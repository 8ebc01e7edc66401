import Bedrock.Lib.Run
import Bedrock.Vfs.Tree

/-!
# Vfs/Calls — the calls of the virtual file system

The calls name files by path; a path starts at a drive or at the current directory.  What they do to
a file system they also do to the dentries they came by, and to the entry of the global cache:

    path --resolve_parent--▸ dentry, name --▸ inode.unlink(name)
                                  |
                                  └--▸ dentry.children.remove(name), dcache.evict(ino, name)

A call returns the state it leaves behind together with its result, since some calls change dentries
and then fail.  A walk that fails leaves the state as it was: the dentries it has made on its way
are those of a shorter walk.  Dentries are kept for good; a weak reference to one that the kernel
has dropped may be lost at any time (`expire`, `orphan`).
-/

namespace Bedrock

open Function

/-- The file systems, with the superblock of every mount, the superblocks shut down so far, and the
current directory. -/
structure Kernel extends Vfs where
  nextMountId : ℕ
  sbOf : ℕ → ℕ
  nextSb : ℕ
  shutdowns : List ℕ
  cwd : Option (Char × ℕ)

variable (v : Vfs)

namespace Vfs

/-! ## Dentries -/

/-- `children.insert`. -/
def setChild (d : ℕ) (name : Str) (c : ℕ) : Vfs :=
  let children := (name, c) :: (v.dentries d).children.filter fun e => e.1 ≠ name
  { v with dentries := update v.dentries d { v.dentries d with children } }

/-- `children.remove`. -/
def dropChild (d : ℕ) (name : Str) : Vfs :=
  let children := (v.dentries d).children.filter fun e => e.1 ≠ name
  { v with dentries := update v.dentries d { v.dentries d with children } }

/-- The inode of a dentry is set, or taken. -/
def setInode (c : ℕ) (inode : Option ℕ) : Vfs :=
  { v with dentries := update v.dentries c { v.dentries c with inode } }

/-- `Dcache::evict`. -/
def evict (ino : ℕ) (name : Str) : Vfs :=
  { v with dcache := v.dcache.filter fun e => e.1 ≠ (ino, name) }

/-- The entries of a dentry nobody refers to any more. -/
def expire (c : ℕ) : Vfs := { v with dcache := v.dcache.filter fun e => e.2 ≠ c }

/-- A dentry whose parent nobody refers to any more. -/
def orphan (d : ℕ) : Vfs :=
  { v with dentries := update v.dentries d { v.dentries d with parent := none } }

/-- `Dcache::insert`. -/
def remember (d : ℕ) (name : Str) (c : ℕ) : Vfs :=
  { v with dcache := dcacheInsert v.dcache (v.cacheIno d, name) c }

/-- A new dentry for a child, in place of the one that was. -/
def attach (d : ℕ) (name : Str) (j : ℕ) : Vfs :=
  let c := v.nextDentry
  let v' := { v with
    dentries := update v.dentries c ⟨some j, some d, [], false, (v.dentries d).mountId⟩
    nextDentry := c + 1 }
  (v'.setChild d name c).remember d name c

/-! ## Operations of the inodes -/

/-- `TmpfsInode::unlink`. -/
def unlinkAt (i : ℕ) (name : Str) : Except VfsError Vfs :=
  match v.entries i with
  | none => .error .notADirectory
  | some children =>
    match children.lookup name with
    | none => .error .notFound
    | some _ => .ok (v.setEntries i (children.filter fun e => e.1 ≠ name))

/-- `TmpfsInode::rmdir`. -/
def rmdirAt (i : ℕ) (name : Str) : Except VfsError Vfs :=
  match v.entries i with
  | none => .error .notADirectory
  | some children =>
    match children.lookup name with
    | none => .error .notFound
    | some j =>
      match v.entries j with
      | some (_ :: _) => .error .notEmpty
      | _ => .ok (v.setEntries i (children.filter fun e => e.1 ≠ name))

/-- `TmpfsInode::truncate` to nothing; the bytes of a file are not there to change. -/
def truncateAt (j : ℕ) : Except VfsError Vfs :=
  match (v.inodes j).entry with
  | .file => .ok v
  | .symlink target =>
    let fs := (v.inodes j).fs
    .ok { v with
      inodes := update v.inodes j { v.inodes j with entry := .symlink [] }
      used := update v.used fs (v.used fs - byteLen target) }
  | _ => .error .isADirectory

def isDot (name : Str) : Bool := name = ".".toList ∨ name = "..".toList

/-- `TmpfsInode::rename_across_dirs`. -/
def renameAcross (i i' : ℕ) (old new : Str) : Except VfsError Vfs :=
  if (v.inodes i).fs ≠ (v.inodes i').fs then .error .crossDeviceLink
  else if (v.inodes i).fileType ≠ .directory ∨ (v.inodes i').fileType ≠ .directory then
    .error .notADirectory
  else if isDot old ∨ isDot new then .error .invalidInput
  else if (v.inodes i).ino = (v.inodes i').ino then v.rename i old new
  else
    match v.entries i, v.entries i' with
    | some source, some target =>
      match source.lookup old with
      | none => .error .notFound
      | some j => .ok ((v.setEntries i (source.filter fun e => e.1 ≠ old)).setEntries i'
          ((new, j) :: target.filter fun e => e.1 ≠ new))
    | _, _ => .error .notADirectory

/-! ## Names below a dentry -/

/-- Whether a name below a dentry with inode `i` leads to a directory, by the dentry's children or
else by the directory itself. -/
def isDirAt (d i : ℕ) (name : Str) : Bool :=
  match (v.dentries d).children.lookup name with
  | some c => v.fileType c = some .directory
  | none =>
    match (v.inodes i).lookup name with
    | .ok j => (v.inodes j).fileType = .directory
    | .error _ => false

/-- The dentry of a name is taken from its parent and emptied; unless somebody else holds it, it is
gone with that. -/
def detach (d : ℕ) (name : Str) (held : Bool) : Vfs :=
  match (v.dentries d).children.lookup name with
  | some c =>
    let v := (v.dropChild d name).setInode c none
    if held then v else v.expire c
  | none => v

/-- `vfs::mkdir` below a dentry. -/
def mkdirName (d : ℕ) (name : Str) : Except VfsError Vfs :=
  match (v.dentries d).inode with
  | none => .error .notFound
  | some i =>
    if (v.inodes i).fileType ≠ .directory then .error .notADirectory
    else (v.addNew i name .directory (.dir [])).map fun v' => v'.attach d name v.nextInode

/-- `vfs::unlink` below a dentry. -/
def unlinkName (d : ℕ) (name : Str) (held : Bool) : Vfs × Except VfsError Unit :=
  match (v.dentries d).inode with
  | none => (v, .error .notFound)
  | some i =>
    if v.isDirAt d i name then (v, .error .isADirectory)
    else
      let v := v.detach d name held
      match v.unlinkAt i name with
      | .error e => (v, .error e)
      | .ok v => (v.evict (v.inodes i).ino name, .ok ())

/-- `vfs::rmdir` below a dentry: if the directory stays, its dentry is gone all the same. -/
def rmdirName (d : ℕ) (name : Str) (held : Bool) : Vfs × Except VfsError Unit :=
  if isDot name then (v, .error .invalidInput)
  else
    match (v.dentries d).inode with
    | none => (v, .error .notFound)
    | some i =>
      let v := v.detach d name held
      match v.rmdirAt i name with
      | .error e => (v, .error e)
      | .ok v => (v.evict (v.inodes i).ino name, .ok ())

/-- The climb of the cycle guard: whether dentry `c`, or a dentry with inode number `ino`, stands
among so many dentries from `a` upwards. -/
def climbMeets (v : Vfs) (c ino : Option ℕ) : ℕ → ℕ → Bool
  | 0, _ => false
  | fuel + 1, a =>
    let anc := (v.dentries a).inode.map fun i => (v.inodes i).ino
    if c = some a ∨ (ino.isSome ∧ anc = ino) then true
    else
      match (v.dentries a).parent with
      | some p => climbMeets v c ino fuel p
      | none => false

/-- The cycle guard of `vfs::rename`: the directory moved is above the one it would go to. -/
def moveRefused (d i : ℕ) (old : Str) (d' : ℕ) : Bool :=
  v.isDirAt d i old &&
    match (v.dentries d).children.lookup old with
    | some c =>
      v.climbMeets (some c) ((v.dentries c).inode.map fun j => (v.inodes j).ino) v.nextDentry d'
    | none =>
      let ino := ((v.inodes i).lookup old).toOption.map fun j => (v.inodes j).ino
      v.climbMeets none ino v.nextDentry d'

/-- The dentries of a rename in one directory: only a child that is cached moves. -/
def moveWithin (d i : ℕ) (old new : Str) : Vfs :=
  let ino := (v.inodes i).ino
  match (v.dentries d).children.lookup old with
  | some c =>
    let v := ((v.dropChild d old).setChild d new c).evict ino old
    { v with dcache := dcacheInsert v.dcache (ino, new) c }
  | none => v.evict ino old

/-- …and between two. -/
def moveAcross (d i : ℕ) (old : Str) (d' i' : ℕ) (new : Str) : Vfs :=
  let v' :=
    match (v.dentries d).children.lookup old with
    | some c =>
      let v := v.dropChild d old
      let e := { v.dentries c with parent := some d', mountId := (v.dentries d').mountId }
      { v with
        dentries := update v.dentries c e
        dcache := dcacheInsert v.dcache ((v.inodes i').ino, new) c }.setChild d' new c
    | none => v
  v'.evict (v.inodes i).ino old

/-- `vfs::rename` below two dentries. -/
def renameName (d : ℕ) (old : Str) (d' : ℕ) (new : Str) : Except VfsError Vfs :=
  match (v.dentries d).inode with
  | none => .error .notFound
  | some i =>
    if (v.inodes i).fileType ≠ .directory then .error .notADirectory
    else
      match (v.dentries d').inode with
      | none => .error .notFound
      | some i' =>
        if (v.inodes i').fileType ≠ .directory then .error .notADirectory
        else if d = d' then (v.rename i old new).map fun v => v.moveWithin d i old new
        else if v.moveRefused d i old d' then .error .invalidInput
        else (v.renameAcross i i' old new).map fun v => v.moveAcross d i old d' i' new

end Vfs

/-- The `OpenFlags` that decide what a name leads to. -/
structure OpenFlags where
  create : Bool
  trunc : Bool
  excl : Bool
  nofollow : Bool
  directory : Bool
  deriving DecidableEq, Repr

namespace Vfs

/-- The dentry of a child that is there gets its inode anew, or is made. -/
def refresh (d : ℕ) (leaf : Str) (j : ℕ) : Vfs :=
  match (v.dentries d).children.lookup leaf with
  | some c => v.setInode c (some j)
  | none => v.attach d leaf j

/-- `resolve_inode` below the parent, up to the links: the inode of a name, made if need be. -/
def openLeaf (d : ℕ) (leaf : Str) (flags : OpenFlags) : Vfs × Except VfsError ℕ :=
  match (v.dentries d).inode with
  | none => (v, .error .notFound)
  | some i =>
    if (v.inodes i).fileType ≠ .directory then (v, .error .notADirectory)
    else
      match (v.inodes i).lookup leaf with
      | .ok j =>
        if flags.excl then (v, .error .alreadyExists)
        else
          match if flags.trunc then v.truncateAt j else .ok v with
          | .error e => (v, .error e)
          | .ok v => (v.refresh d leaf j, .ok j)
      | .error e =>
        if ¬flags.create then (v, .error e)
        else
          match v.addNew i leaf .regular .file with
          | .error e => (v, .error e)
          | .ok v' => (v'.attach d leaf v.nextInode, .ok v.nextInode)

/-- Where the target of a link in the last place starts: as `linkBase`, but from the dentry of the
link's directory. -/
def leafBase (d : ℕ) (target : Str) : Except VfsError (ℕ × List Str) :=
  match splitDrivePath target with
  | some (letter, inner) =>
    match v.drive letter with
    | some m => .ok (m.root, splitComponents inner)
    | none => .error .notFound
  | none =>
    if target.head? = some '/' ∧ (v.dentries d).mountId ≠ 0 then
      match v.mountById (v.dentries d).mountId with
      | some m => .ok (m.root, splitComponents target)
      | none => .ok (d, splitComponents target)
    else .ok (d, splitComponents target)

/-- The loop of `resolve_inode` over links in the last place. -/
def followLeaf (d : ℕ) : ℕ → Vfs → ℕ → Vfs × Except VfsError ℕ
  | links, v, j =>
    if (v.inodes j).fileType ≠ .symlink then (v, .ok j)
    else
      match links with
      | 0 => (v, .error .loop)
      | links + 1 =>
        match (v.inodes j).readlink with
        | .error e => (v, .error e)
        | .ok target =>
          if target = [] then (v, .error .loop)
          else
            match v.leafBase d target with
            | .error e => (v, .error e)
            | .ok (base, components) =>
              match walkInner symlinkMax v base components with
              | .error e => (v, .error e)
              | .ok (c, v) =>
                match (v.dentries c).inode with
                | none => (v, .error .notFound)
                | some j => followLeaf d links v j

/-- `resolve_inode` below the parent. -/
def resolveInode (d : ℕ) (leaf : Str) (flags : OpenFlags) : Vfs × Except VfsError ℕ :=
  match v.openLeaf d leaf flags with
  | (v, .error e) => (v, .error e)
  | (v, .ok j) =>
    if (v.inodes j).fileType = .symlink ∧ flags.nofollow then (v, .error .loop)
    else
      match followLeaf d symlinkMax v j with
      | (v, .error e) => (v, .error e)
      | (v, .ok j) =>
        if flags.directory ∧ (v.inodes j).fileType ≠ .directory then (v, .error .notADirectory)
        else (v, .ok j)

end Vfs

variable (k : Kernel)

namespace Kernel

/-- A state of the files in place of the one there was. -/
def withVfs (v : Vfs) : Kernel := { k with toVfs := v }

/-! ## Paths -/

/-- `DriveMap::lookup`. -/
def lookupDrive (letter : Char) : Except VfsError DriveMount :=
  if ¬letter.toUpper.isUpper then .error .invalidInput
  else
    match k.drive letter with
    | some m => .ok m
    | none => .error .notFound

/-- `walk_from`. -/
def walkFrom (d : ℕ) (components : List Str) : Except VfsError (ℕ × Kernel) :=
  (k.walkInner Vfs.symlinkMax d components).map fun r => (r.1, k.withVfs r.2)

/-- Where a path starts: at a drive or in the current directory, with the letter of either. -/
def startOf (path : Str) : Except VfsError (Char × ℕ × Str) :=
  match Vfs.splitDrivePath path with
  | some (letter, inner) => (k.lookupDrive letter).map fun m => (letter, m.root, inner)
  | none =>
    match k.cwd with
    | some (letter, d) => .ok (letter, d, path)
    | none => .error .notFound

/-- `resolve_path`. -/
def resolvePath (path : Str) : Except VfsError (Char × ℕ × Kernel) :=
  if path = [] then .error .invalidInput
  else
    match k.startOf path with
    | .error e => .error e
    | .ok (letter, d, inner) =>
      (k.walkFrom d (Vfs.splitComponents inner)).map fun r => (letter, r)

/-- `resolve_parent`. -/
def resolveParent (path : Str) : Except VfsError (ℕ × Str × Kernel) :=
  match k.startOf path with
  | .error e => .error e
  | .ok (_, d, inner) =>
    match (Vfs.splitComponents inner).getLast? with
    | none => .error .invalidInput
    | some leaf =>
      (k.walkFrom d (Vfs.splitComponents inner).dropLast).map fun r => (r.1, leaf, r.2)

/-! ## Files -/

/-- The result of an operation that changes nothing when it fails. -/
def reply : Except VfsError Vfs → Kernel × Except VfsError Unit
  | .error e => (k, .error e)
  | .ok v => (k.withVfs v, .ok ())

/-- `vfs::mkdir`. -/
def mkdir (path : Str) : Kernel × Except VfsError Unit :=
  match k.resolveParent path with
  | .error e => (k, .error e)
  | .ok (d, name, k) => k.reply (k.mkdirName d name)

/-- `vfs::rmdir`. -/
def rmdir (path : Str) (held : Bool) : Kernel × Except VfsError Unit :=
  match k.resolveParent path with
  | .error e => (k, .error e)
  | .ok (d, name, k) => (k.rmdirName d name held).map k.withVfs id

/-- `vfs::unlink`. -/
def unlink (path : Str) (held : Bool) : Kernel × Except VfsError Unit :=
  match k.resolveParent path with
  | .error e => (k, .error e)
  | .ok (d, name, k) => (k.unlinkName d name held).map k.withVfs id

/-- `vfs::rename`. -/
def rename (oldPath newPath : Str) : Kernel × Except VfsError Unit :=
  match k.resolveParent oldPath with
  | .error e => (k, .error e)
  | .ok (d, old, k) =>
    match k.resolveParent newPath with
    | .error e => (k, .error e)
    | .ok (d', new, k) => k.reply (k.renameName d old d' new)

/-- `vfs::pwrite`, without the bytes it writes. -/
def pwrite (path : Str) (flags : OpenFlags) : Kernel × Except VfsError Unit :=
  match k.resolveParent path with
  | .error e => (k, .error e)
  | .ok (d, leaf, k) =>
    match k.resolveInode d leaf flags with
    | (v, .error e) => (k.withVfs v, .error e)
    | (v, .ok j) =>
      (k.withVfs v,
        if (v.inodes j).fileType = .directory then .error .isADirectory else .ok ())

/-- `vfs::chdir`. -/
def chdir (path : Str) : Kernel × Except VfsError Unit :=
  match k.resolvePath path with
  | .error e => (k, .error e)
  | .ok (letter, d, k) =>
    match k.fileType d with
    | none => (k, .error .notFound)
    | some .directory => ({ k with cwd := some (letter, d) }, .ok ())
    | some _ => (k, .error .notADirectory)

/-! ## Drives -/

/-- `DriveMap::assign`. -/
def assign (letter : Char) (m : DriveMount) : Except VfsError Kernel :=
  let key := letter.toUpper
  if ¬key.isUpper then .error .invalidInput
  else if (k.drives.lookup key).isSome then .error .alreadyExists
  else .ok { k with
    drives := k.drives.filter (·.1 < key) ++ (key, m) :: k.drives.filter (key < ·.1) }

/-- `DriveMap::remove`. -/
def removeDrive (letter : Char) : Kernel :=
  { k with drives := k.drives.filter fun e => e.1 ≠ letter.toUpper }

/-- `next_mount_id`, without its wrap-around: a number that no mount has had. -/
def takeMountId : Kernel := { k with nextMountId := k.nextMountId + 1 }

/-- A new superblock, its number the file system's. -/
def takeSuperblock : Kernel := { k with nextSb := k.nextSb + 1 }

/-- `shutdown` of a superblock. -/
def shutDown (sb : ℕ) : Kernel := { k with shutdowns := sb :: k.shutdowns }

/-- A new tmpfs and its root. -/
def newTmpfs : Kernel :=
  { k with
    inodes := update k.inodes k.nextInode ⟨1, .directory, .dir [], k.nextSb⟩
    nextInode := k.nextInode + 1
    used := update k.used k.nextSb 0 }

/-- The dentry of a mount's root. -/
def newRoot (i mountId sb : ℕ) : Kernel :=
  { k with
    dentries := update k.dentries k.nextDentry ⟨some i, none, [], true, mountId⟩
    nextDentry := k.nextDentry + 1
    sbOf := update k.sbOf k.nextMountId sb }

/-- `vfs::mount` of a tmpfs. -/
def mount (letter : Char) : Kernel × Except VfsError Unit :=
  let made := (k.newTmpfs.newRoot k.nextInode k.nextMountId k.nextSb).takeMountId.takeSuperblock
  match made.assign letter ⟨k.nextMountId, k.nextDentry, none⟩ with
  | .error e => (k.takeMountId.takeSuperblock.shutDown k.nextSb, .error e)
  | .ok k' => (k', .ok ())

/-- `vfs::mount_virtual`: another drive on a directory of one that is there. -/
def mountVirtual (source : Str) (letter : Char) : Kernel × Except VfsError Unit :=
  match k.resolvePath source with
  | .error e => (k, .error e)
  | .ok (srcLetter, d, k) =>
    match (k.dentries d).inode with
    | none => (k, .error .notFound)
    | some i =>
      match k.lookupDrive srcLetter with
      | .error e => (k, .error e)
      | .ok m =>
        let made := (k.newRoot i k.nextMountId (k.sbOf m.id)).takeMountId
        match made.assign letter ⟨k.nextMountId, k.nextDentry, none⟩ with
        | .error e => (k.takeMountId, .error e)
        | .ok k' => (k', .ok ())

/-- `vfs::mount_at`: a tmpfs over a directory that no mount has touched. -/
def mountAt (target : Str) (letter : Char) : Kernel × Except VfsError Unit :=
  match k.resolvePath target with
  | .error e => (k, .error e)
  | .ok (_, d, k) =>
    match k.fileType d with
    | none => (k, .error .notFound)
    | some .directory =>
      if (k.dentries d).mountId ≠ 0 then (k, .error .alreadyExists)
      else
        let made := (k.newTmpfs.newRoot k.nextInode 0 k.nextSb).takeMountId.takeSuperblock
        match made.assign letter ⟨k.nextMountId, k.nextDentry, some d⟩ with
        | .error e => (k.takeMountId.takeSuperblock, .error e)
        | .ok k' =>
          let e := { k'.dentries d with mountId := k.nextMountId, mountPoint := true }
          (k'.withVfs { k'.toVfs with dentries := update k'.dentries d e }, .ok ())
    | some _ => (k, .error .notADirectory)

/-- The dentry a mount covers is laid bare. -/
def uncover (m : DriveMount) : Kernel :=
  match m.covered with
  | some d =>
    let e := { k.dentries d with mountId := 0, mountPoint := false }
    k.withVfs { k.toVfs with dentries := update k.dentries d e }
  | none => k

/-- `vfs::unmount`, where the superblock's `sync_fs` and `shutdown` return what is given. -/
def unmount (letter : Char) (synced shut : Except VfsError Unit) :
    Kernel × Except VfsError Unit :=
  if k.cwd.map Prod.fst = some letter then (k, .error .mountBusy)
  else
    match k.lookupDrive letter with
    | .error e => (k, .error e)
    | .ok m =>
      match synced with
      | .error e => (k, .error e)
      | .ok () =>
        match shut with
        | .error e => (k.shutDown (k.sbOf m.id), .error e)
        | .ok () => (((k.shutDown (k.sbOf m.id)).uncover m).removeDrive letter, .ok ())

end Kernel

/-! ## Runs -/

/-- What may happen to the files: walks, calls, the methods of a directory's object, and the loss of
weak references. -/
inductive VfsCall
  | walk (d : ℕ) (components : List Str)
  | mkdir (path : Str)
  | rmdir (path : Str) (held : Bool)
  | unlink (path : Str) (held : Bool)
  | rename (oldPath newPath : Str)
  | pwrite (path : Str) (flags : OpenFlags)
  | chdir (path : Str)
  | mount (letter : Char)
  | mountVirtual (source : Str) (letter : Char)
  | mountAt (target : Str) (letter : Char)
  | unmount (letter : Char) (synced shut : Except VfsError Unit)
  | invoke (i : ℕ) (op : NameOp)
  | invokeRmdir (i : ℕ) (name : Str)
  | invokeUnlink (i : ℕ) (name : Str)
  | expire (c : ℕ)
  | orphan (d : ℕ)

namespace Kernel

/-- A method of the object of a directory that is there. -/
def onInode (i : ℕ) (r : Except VfsError Vfs) : Kernel × Except VfsError Unit :=
  if i < k.nextInode then k.reply r else (k, .error .notFound)

def call : VfsCall → Kernel × Except VfsError Unit
  | .walk d components =>
    if d < k.nextDentry then
      match k.walkFrom d components with
      | .error e => (k, .error e)
      | .ok (_, k) => (k, .ok ())
    else (k, .error .notFound)
  | .mkdir path => k.mkdir path
  | .rmdir path held => k.rmdir path held
  | .unlink path held => k.unlink path held
  | .rename oldPath newPath => k.rename oldPath newPath
  | .pwrite path flags => k.pwrite path flags
  | .chdir path => k.chdir path
  | .mount letter => k.mount letter
  | .mountVirtual source letter => k.mountVirtual source letter
  | .mountAt target letter => k.mountAt target letter
  | .unmount letter synced shut => k.unmount letter synced shut
  | .invoke i op => k.onInode i (k.invoke i op)
  | .invokeRmdir i name => k.onInode i (k.rmdirAt i name)
  | .invokeUnlink i name => k.onInode i (k.unlinkAt i name)
  | .expire c => (k.withVfs (k.toVfs.expire c), .ok ())
  | .orphan d => (k.withVfs (k.toVfs.orphan d), .ok ())

/-- The state a call leaves behind. -/
def step (c : VfsCall) : Option Kernel := some (k.call c).1

/-- No file system yet. -/
def boot : Kernel where
  inodes _ := ⟨0, .regular, .file, 0⟩
  nextInode := 0
  nextIno := 2
  dentries _ := ⟨none, none, [], false, 0⟩
  nextDentry := 0
  dcache := []
  drives := []
  roots := []
  used _ := 0
  nextMountId := 1
  sbOf _ := 0
  nextSb := 0
  shutdowns := []
  cwd := none

/-- `vfs::init`. -/
def init : List VfsCall :=
  [.mount 'A', .mkdir "A>tmp".toList, .chdir "A>".toList]

end Kernel

end Bedrock
