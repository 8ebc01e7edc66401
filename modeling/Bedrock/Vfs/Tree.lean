import Bedrock.Caps.Cap

/-!
# Vfs/Tree — inodes, the dentry cache and the path walk

A drive is a graph of inodes; names are looked up through a tree of dentries that remembers every
name it has seen:

    components --walk--▸ dentry --▸ inode             one `walk_inner` for each component
                           | ▴
                  children ▾ | parent                 first the dentry's children, then the global
                         dentry                       cache, then the directory itself

Directory operations work on the inodes and do not tell the cache, so a name may go on leading to
what it once was.  Links are followed wherever they stand, at most forty for each component; their
targets may use `..`, which goes to the dentry's parent, and may name a drive.
-/

namespace Bedrock

/-- `FileType`. -/
inductive FileType
  | regular | directory | symlink | fifo | charDevice | blockDevice | socket
  deriving DecidableEq, Repr

/-- `TmpfsEntry`, without the bytes of a file.  The target of a link is as `readlink` gives it. -/
inductive TmpfsEntry
  | file
  | dir (children : List (Str × ℕ))
  | symlink (target : Str)
  | fifo
  deriving DecidableEq, Repr

/-- What naming reads of a `TmpfsInode`; `fs` stands for the file system whose budget it is charged
to. -/
structure Inode where
  ino : ℕ
  fileType : FileType
  entry : TmpfsEntry
  fs : ℕ
  deriving DecidableEq, Repr

/-- What naming reads of a `Dentry`. -/
structure Dentry where
  inode : Option ℕ
  parent : Option ℕ
  children : List (Str × ℕ)
  mountPoint : Bool
  mountId : ℕ
  deriving DecidableEq, Repr

/-- What naming reads of a `DriveMount`. -/
structure DriveMount where
  id : ℕ
  root : ℕ
  covered : Option ℕ
  deriving DecidableEq, Repr

/-- The inodes and dentries created so far, the global cache, the mounted drives in the order of
their letters, the drives registered in the object namespace, and the bytes in use. -/
structure Vfs where
  inodes : ℕ → Inode
  nextInode : ℕ
  nextIno : ℕ
  dentries : ℕ → Dentry
  nextDentry : ℕ
  dcache : List ((ℕ × Str) × ℕ)
  drives : List (Char × DriveMount)
  roots : List (Str × ℕ)
  used : ℕ → ℕ

/-! ## Looking up one name -/

/-- `TmpfsInode::lookup`. -/
def Inode.lookup (n : Inode) (name : Str) : Except VfsError ℕ :=
  match n.entry with
  | .dir children =>
    match children.lookup name with
    | some j => .ok j
    | none => .error .notFound
  | _ => .error .notADirectory

/-- `TmpfsInode::readlink`. -/
def Inode.readlink (n : Inode) : Except VfsError Str :=
  match n.entry with
  | .symlink target => .ok target
  | _ => .error .invalidInput

variable (v : Vfs)

/-- A mapped result is good exactly if it came from a good one. -/
theorem map_eq_ok {ε α β : Type} {f : α → β} {x : Except ε α} {b : β} :
    x.map f = .ok b ↔ ∃ a, x = .ok a ∧ f a = b := by
  cases x <;> simp [Except.map]

namespace Vfs

/-- `DCACHE_MAX`. -/
def dcacheMax : ℕ := 4096

/-- `Dcache::insert`; the list stands in the map's order, whose first key goes when it is full. -/
def dcacheInsert (dcache : List ((ℕ × Str) × ℕ)) (key : ℕ × Str) (c : ℕ) : List ((ℕ × Str) × ℕ) :=
  let kept := if dcacheMax ≤ dcache.length then dcache.tail else dcache
  (kept.filter fun e => e.1 ≠ key) ++ [(key, c)]

/-- The number the cache knows the directory by. -/
def cacheIno (d : ℕ) : ℕ :=
  match (v.dentries d).inode with
  | some i => (v.inodes i).ino
  | none => 0

/-- Remember a dentry among another's children. -/
def addChild (d : ℕ) (name : Str) (c : ℕ) : Vfs :=
  let e := { v.dentries d with children := (name, c) :: (v.dentries d).children }
  { v with dentries := Function.update v.dentries d e }

/-- A new dentry for an inode, below its directory's dentry. -/
def newDentry (d : ℕ) (name : Str) (j : ℕ) : ℕ × Vfs :=
  let c := v.nextDentry
  let v' := { v with
    dentries := Function.update v.dentries c ⟨some j, some d, [], false, (v.dentries d).mountId⟩
    nextDentry := c + 1
    dcache := dcacheInsert v.dcache (v.cacheIno d, name) c }
  (c, v'.addChild d name c)

/-- One name below a dentry: its children, the global cache, the directory. -/
def child (d : ℕ) (name : Str) : Except VfsError (ℕ × Vfs) :=
  match (v.dentries d).children.lookup name with
  | some c => .ok (c, v)
  | none =>
    match v.dcache.lookup (v.cacheIno d, name) with
    | some c =>
      if (v.dentries c).inode = none then .error .notFound else .ok (c, v.addChild d name c)
    | none =>
      match (v.dentries d).inode with
      | none => .error .notFound
      | some i => (v.inodes i).lookup name |>.map (v.newDentry d name)

/-! ## The walk -/

/-- `lookup_by_id`. -/
def mountById (id : ℕ) : Option DriveMount :=
  (v.drives.map Prod.snd).find? fun m => m.id = id

/-- `DRIVE_MAP.lookup`, for a letter in either case. -/
def drive (letter : Char) : Option DriveMount := v.drives.lookup letter.toUpper

/-- `attempt_mount_cross`. -/
def crossMount (d : ℕ) : ℕ :=
  if (v.dentries d).mountPoint ∧ (v.dentries d).mountId ≠ 0 then
    match v.mountById (v.dentries d).mountId with
    | some m => m.root
    | none => d
  else d

/-- Where `..` leads: to the parent, from a mount's root to the dentry it covers, and otherwise
nowhere. -/
def up (d : ℕ) : ℕ :=
  match (v.dentries d).parent with
  | some p => p
  | none =>
    match (v.drives.map Prod.snd).find? fun m => m.root = d with
    | some m => m.covered.getD d
    | none => d

def fileType (d : ℕ) : Option FileType :=
  (v.dentries d).inode.map fun i => (v.inodes i).fileType

/-- `split_drive_path`: a letter, `>`, and a path on that drive. -/
def splitDrivePath : Str → Option (Char × Str)
  | letter :: '>' :: inner => if letter.isAlpha then some (letter, inner) else none
  | _ => none

/-- `split_components`. -/
def splitComponents (path : Str) : List Str := (segs path).filter (· ≠ ".".toList)

/-- The parent's dentry, which a link's target may start from. -/
def linkParent (d : ℕ) : Except VfsError ℕ :=
  match (v.dentries d).parent with
  | some p => .ok p
  | none => .error .notFound

/-- Where the target of a link starts: at a drive, at the root of the link's own mount, or in the
link's directory. -/
def linkBase (d : ℕ) (target : Str) : Except VfsError (ℕ × List Str) :=
  match splitDrivePath target with
  | some (letter, inner) =>
    match v.drive letter with
    | some m => .ok (m.root, splitComponents inner)
    | none => .error .notFound
  | none =>
    if target.head? = some '/' ∧ (v.dentries d).mountId ≠ 0 then
      match v.mountById (v.dentries d).mountId with
      | some m => .ok (m.root, splitComponents target)
      | none => (v.linkParent d).map fun p => (p, splitComponents target)
    else (v.linkParent d).map fun p => (p, splitComponents target)

/-- How far a walk comes before it meets a link. -/
inductive Walked
  | arrived (d : ℕ)
  | follow (base : ℕ) (rest : List Str)
  deriving DecidableEq, Repr

/-- The loop of `walk_inner` up to the first link, which it may follow if any are left. -/
def walkPlain (links : ℕ) : Vfs → ℕ → List Str → Except VfsError (Walked × Vfs)
  | v, d, [] => .ok (.arrived d, v)
  | v, d, name :: rest =>
    if name = ".".toList ∨ name = [] then walkPlain links v d rest
    else if name = "..".toList then walkPlain links v (v.up d) rest
    else
      match v.child d name with
      | .error e => .error e
      | .ok (c, v) =>
        let d := v.crossMount c
        match v.fileType d, (v.dentries d).inode with
        | some .symlink, some i =>
          if links = 0 then .error .loop
          else
            match (v.inodes i).readlink with
            | .error e => .error e
            | .ok target =>
              if target = [] then .error .loop
              else (v.linkBase d target).map fun r => (.follow r.1 (r.2 ++ rest), v)
        | _, _ => walkPlain links v d rest

/-- `walk_inner`, with so many links left to follow. -/
def walkInner : ℕ → Vfs → ℕ → List Str → Except VfsError (ℕ × Vfs)
  | links, v, d, components =>
    match walkPlain links v d components with
    | .error e => .error e
    | .ok (.arrived d, v) => .ok (d, v)
    | .ok (.follow base rest, v) =>
      match links with
      | 0 => .error .loop
      | links + 1 => walkInner links v base rest

/-- `SYMLINK_MAX`. -/
def symlinkMax : ℕ := 40

/-! ## Resolution -/

end Vfs

/-! ## Operations on a directory -/

/-- The methods of a directory that make a name. -/
inductive NameOp
  | create (name : Str)
  | mkdir (name : Str)
  | rename (old new : Str)
  | symlink (name target : Str)
  | link (old new : Str)
  | mkfifo (name : Str) (mode : ℕ)
  | mknod (name : Str) (mode dev : ℕ)
  deriving DecidableEq, Repr

namespace NameOp

end NameOp

/-- `TMPFS_BUDGET`. -/
def tmpfsBudget : ℕ := 64 * 1024 * 1024

namespace Vfs

/-- The names in a directory; nothing for any other inode. -/
def entries (i : ℕ) : Option (List (Str × ℕ)) :=
  match (v.inodes i).entry with
  | .dir children => some children
  | _ => none

def setEntries (i : ℕ) (children : List (Str × ℕ)) : Vfs :=
  { v with inodes := Function.update v.inodes i { v.inodes i with entry := .dir children } }

/-- A new inode under a name: what `create`, `mkdir`, `mkfifo`, `mknod` and `symlink` share. -/
def addNew (i : ℕ) (name : Str) (fileType : FileType) (entry : TmpfsEntry) :
    Except VfsError Vfs :=
  match v.entries i with
  | none => .error .notADirectory
  | some children =>
    if (children.lookup name).isSome then .error .alreadyExists
    else
      let j := v.nextInode
      let v' := { v with
        inodes := Function.update v.inodes j ⟨v.nextIno, fileType, entry, (v.inodes i).fs⟩
        nextInode := j + 1
        nextIno := v.nextIno + 1 }
      .ok (v'.setEntries i ((name, j) :: children))

/-- The file type `mknod` reads off the mode's bits. -/
def nodType (mode : ℕ) : FileType :=
  if mode &&& 0o60000 = 0o60000 then .blockDevice
  else if mode &&& 0o20000 = 0o20000 then .charDevice
  else if mode &&& 0o140000 = 0o140000 then .socket
  else .regular

/-- `TmpfsInode::symlink`: the target is charged to the budget. -/
def symlink (i : ℕ) (name target : Str) : Except VfsError Vfs :=
  match v.entries i with
  | none => .error .notADirectory
  | some children =>
    let fs := (v.inodes i).fs
    if (children.lookup name).isSome then .error .alreadyExists
    else if tmpfsBudget < v.used fs + byteLen target then .error .noSpace
    else
      { v with used := Function.update v.used fs (v.used fs + byteLen target) }.addNew i name
        .symlink (.symlink target)

/-- `TmpfsInode::link`. -/
def link (i : ℕ) (old new : Str) : Except VfsError Vfs :=
  match v.entries i with
  | none => .error .notADirectory
  | some children =>
    match children.lookup old with
    | none => .error .notFound
    | some j =>
      if (children.lookup new).isSome then .error .alreadyExists
      else .ok (v.setEntries i ((new, j) :: children))

/-- `TmpfsInode::rename`: whatever had the new name is dropped from the directory. -/
def rename (i : ℕ) (old new : Str) : Except VfsError Vfs :=
  match v.entries i with
  | none => .error .notADirectory
  | some children =>
    match children.lookup old with
    | none => .error .notFound
    | some j =>
      .ok (v.setEntries i ((new, j) :: children.filter fun e => e.1 ≠ old ∧ e.1 ≠ new))

/-- `VfsDir::invoke`, for the methods that make a name. -/
def invoke (i : ℕ) : NameOp → Except VfsError Vfs
  | .create name => v.addNew i name .regular .file
  | .mkdir name => v.addNew i name .directory (.dir [])
  | .rename old new => v.rename i old new
  | .symlink name target => v.symlink i name target
  | .link old new => v.link i old new
  | .mkfifo name _ => v.addNew i name .fifo .fifo
  | .mknod name mode _ => v.addNew i name (nodType mode) .file

end Vfs

end Bedrock
