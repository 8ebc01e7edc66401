import Bedrock.Lib.Run
import Bedrock.Mm.PhysAlloc
import Bedrock.Vfs.Tree

/-!
# Vfs/Tmpfs — the inodes of one tmpfs

A tmpfs is a table of inodes.  Directories refer to their children, callers hold references of
their own, and an inode is dropped when the last of both is gone:

    root --name--▸ directory --name--▸ file ◂-- handle
                            └--link--▸┘

Files and links are charged by the byte against one counter: space is reserved before an inode
grows, given back after it shrinks, and given back whole when it is dropped.
-/

namespace Bedrock.Tmpfs

open Function Option

/-- `TmpfsEntry`, with the bytes of files and of the targets of links. -/
inductive Entry
  | file (data : List UInt8)
  | dir (children : List (Str × ℕ))
  | symlink (target : List UInt8)
  | fifo
  deriving DecidableEq, Repr

structure TmpfsInode where
  ino : ℕ
  fileType : FileType
  entry : Entry
  deriving DecidableEq, Repr

/-- One tmpfs: the inodes that have not been dropped, how many there have been, the counters and the
references from outside. -/
structure Fs where
  inodes : ℕ → Option TmpfsInode
  next : ℕ
  nextIno : ℕ
  used : ℕ
  handles : List ℕ

/-- The root, which the superblock holds. -/
def root : ℕ := 0

/-- `TmpfsInode::new_root`. -/
def newRoot : TmpfsInode := ⟨1, .directory, .dir []⟩

/-- `Tmpfs::mount`, when the numbers up to `nextIno` are taken. -/
def mount (nextIno : ℕ) : Fs where
  inodes i := if i = root then some newRoot else none
  next := 1
  nextIno := nextIno
  used := 0
  handles := []

/-- The bytes an entry is charged for. -/
def Entry.size : Entry → ℕ
  | .file data => data.length
  | .symlink target => target.length
  | _ => 0

/-- Files and links. -/
def Entry.isData : Entry → Bool
  | .file _ | .symlink _ => true
  | _ => false

namespace Fs

def entry (s : Fs) (i : ℕ) : Option Entry := (s.inodes i).map TmpfsInode.entry

/-- The children map of a directory. -/
def children (s : Fs) (i : ℕ) : Option (List (Str × ℕ)) :=
  match s.entry i with
  | some (.dir children) => some children
  | _ => none

def setEntry (s : Fs) (i : ℕ) (entry : Entry) : Fs :=
  { s with inodes := update s.inodes i ((s.inodes i).map fun n => { n with entry }) }

def setChildren (s : Fs) (i : ℕ) (children : List (Str × ℕ)) : Fs := s.setEntry i (.dir children)

/-- `HashMap::insert`. -/
def put (children : List (Str × ℕ)) (name : Str) (j : ℕ) : List (Str × ℕ) :=
  (name, j) :: children.filter fun e => e.1 ≠ name

/-- `HashMap::remove`. -/
def take (children : List (Str × ℕ)) (name : Str) : List (Str × ℕ) :=
  children.filter fun e => e.1 ≠ name

/-! ## The budget -/

/-- `reserve_budget`. -/
def reserveBudget (s : Fs) (growth : ℕ) : Except VfsError Fs :=
  if growth = 0 then .ok s
  else if 2 ^ 64 ≤ s.used + growth then .error .noSpace
  else if tmpfsBudget < s.used + growth then .error .noSpace
  else .ok { s with used := s.used + growth }

/-- `used.fetch_sub`. -/
def refund (s : Fs) (n : ℕ) : Fs := { s with used := wrappingSub s.used n }

/-- Reserve what an inode is about to grow by. -/
def reserveGrowth (s : Fs) (old new : ℕ) : Except VfsError Fs :=
  if old < new then s.reserveBudget (new - old) else .ok s

/-- Give back what it has shrunk by. -/
def refundShrink (s : Fs) (old new : ℕ) : Fs := if new < old then s.refund (old - new) else s

/-- `Vec::resize` with zeros. -/
def resize (data : List UInt8) (len : ℕ) : List UInt8 :=
  data.take len ++ List.replicate (len - data.length) 0

/-- `data[offset..end].copy_from_slice(buf)`; a slice out of bounds panics. -/
def copyFromSlice (data : List UInt8) (offset stop : ℕ) (buf : List UInt8) : Option (List UInt8) :=
  if offset ≤ stop ∧ stop ≤ data.length ∧ stop - offset = buf.length then
    some (data.take offset ++ buf ++ data.drop stop)
  else none

/-- Grow to `stop` bytes if need be, then write `buf` at `offset`: what both arms of `write_at`
do. -/
def writeBytes (s : Fs) (i : ℕ) (data : List UInt8) (offset : ℕ) (buf : List UInt8)
    (make : List UInt8 → Entry) : Option (Except VfsError Fs) :=
  let stop := (offset + buf.length) % 2 ^ 64
  match s.reserveGrowth data.length (max data.length stop) with
  | .error e => some (.error e)
  | .ok s =>
    let grown := if data.length < stop then resize data stop else data
    match copyFromSlice grown offset stop buf with
    | none => none
    | some written => some (.ok
        ((s.setEntry i (make written)).refundShrink data.length written.length))

/-- `write_at`; `none` is a panic. -/
def writeAt (s : Fs) (i offset : ℕ) (buf : List UInt8) : Option (Except VfsError Fs) :=
  match s.entry i with
  | some (.file data) => s.writeBytes i data offset buf .file
  | some (.symlink target) =>
    if offset = 0 then
      some ((s.reserveGrowth target.length buf.length).map fun s =>
        (s.setEntry i (.symlink buf)).refundShrink target.length buf.length)
    else s.writeBytes i target offset buf .symlink
  | _ => some (.error .isADirectory)

/-- `truncate`. -/
def truncate (s : Fs) (i len : ℕ) : Except VfsError Fs :=
  match s.entry i with
  | some (.file data) =>
    (s.reserveGrowth data.length len).map fun s =>
      (s.setEntry i (.file (resize data len))).refundShrink data.length (resize data len).length
  | some (.symlink target) =>
    (s.reserveGrowth target.length len).map fun s =>
      let target' := if target.length < len then resize target len else target.take len
      (s.setEntry i (.symlink target')).refundShrink target.length target'.length
  | _ => .error .isADirectory

/-! ## Names -/

/-- A new inode, not under any name yet. -/
def newInode (s : Fs) (fileType : FileType) (entry : Entry) : Fs :=
  { s with
    inodes := update s.inodes s.next (some ⟨s.nextIno, fileType, entry⟩)
    next := s.next + 1
    nextIno := s.nextIno + 1 }

/-- …and under a name that is not taken. -/
def addNew (s : Fs) (i : ℕ) (name : Str) (fileType : FileType) (entry : Entry) :
    Except VfsError Fs :=
  match s.children i with
  | none => .error .notADirectory
  | some children =>
    if (children.lookup name).isSome then .error .alreadyExists
    else .ok ((s.newInode fileType entry).setChildren i (put children name s.next))

/-- `create`. -/
def create (s : Fs) (i : ℕ) (name : Str) : Except VfsError Fs := s.addNew i name .regular (.file [])

/-- `mkdir`. -/
def mkdir (s : Fs) (i : ℕ) (name : Str) : Except VfsError Fs := s.addNew i name .directory (.dir [])

/-- `mkfifo`. -/
def mkfifo (s : Fs) (i : ℕ) (name : Str) : Except VfsError Fs := s.addNew i name .fifo .fifo

/-- `mknod`. -/
def mknod (s : Fs) (i : ℕ) (name : Str) (mode : ℕ) : Except VfsError Fs :=
  s.addNew i name (Vfs.nodType mode) (.file [])

/-- `symlink`. -/
def symlink (s : Fs) (i : ℕ) (name : Str) (target : List UInt8) : Except VfsError Fs :=
  match s.children i with
  | none => .error .notADirectory
  | some children =>
    if (children.lookup name).isSome then .error .alreadyExists
    else
      match s.reserveBudget target.length with
      | .error e => .error e
      | .ok s => s.addNew i name .symlink (.symlink target)

/-- `link`. -/
def link (s : Fs) (i : ℕ) (old new : Str) : Except VfsError Fs :=
  match s.children i with
  | none => .error .notADirectory
  | some children =>
    match children.lookup old with
    | none => .error .notFound
    | some j =>
      if (children.lookup new).isSome then .error .alreadyExists
      else .ok (s.setChildren i (put children new j))

/-- `unlink`. -/
def unlink (s : Fs) (i : ℕ) (name : Str) : Except VfsError Fs :=
  match s.children i with
  | none => .error .notADirectory
  | some children =>
    match children.lookup name with
    | none => .error .notFound
    | some _ => .ok (s.setChildren i (take children name))

/-- `rmdir`: only a directory is asked whether it is empty. -/
def rmdir (s : Fs) (i : ℕ) (name : Str) : Except VfsError Fs :=
  match s.children i with
  | none => .error .notADirectory
  | some children =>
    match children.lookup name with
    | none => .error .notFound
    | some j =>
      match s.children j with
      | some (_ :: _) => .error .notEmpty
      | _ => .ok (s.setChildren i (take children name))

/-- `rename`. -/
def rename (s : Fs) (i : ℕ) (old new : Str) : Except VfsError Fs :=
  match s.children i with
  | none => .error .notADirectory
  | some children =>
    match children.lookup old with
    | none => .error .notFound
    | some j => .ok (s.setChildren i (put (take children old) new j))

/-- A name of the two that every directory has. -/
def isDot (name : Str) : Bool := name = ".".toList ∨ name = "..".toList

/-- `rename_across_dirs`, within one tmpfs. -/
def renameAcrossDirs (s : Fs) (i i' : ℕ) (old new : Str) : Except VfsError Fs :=
  match s.inodes i, s.inodes i' with
  | some n, some n' =>
    if n.fileType ≠ .directory ∨ n'.fileType ≠ .directory then .error .notADirectory
    else if isDot old ∨ isDot new then .error .invalidInput
    else if n.ino = n'.ino then s.rename i old new
    else
      match s.children i, s.children i' with
      | some source, some target =>
        match source.lookup old with
        | none => .error .notFound
        | some j => .ok ((s.setChildren i (take source old)).setChildren i' (put target new j))
      | _, _ => .error .notADirectory
  | _, _ => .error .notADirectory

/-! ## References -/

/-- Some directory has an entry for inode `j`. -/
def named (s : Fs) (j : ℕ) : Bool :=
  (List.range s.next).any fun i => ((s.children i).getD []).any fun e => e.2 = j

/-- `TmpfsInode::drop`, once neither a directory nor a caller refers to the inode. -/
def drop (s : Fs) (j : ℕ) : Option Fs :=
  match s.inodes j with
  | none => none
  | some n =>
    if j = root ∨ j ∈ s.handles ∨ s.named j then none
    else
      let s' := { s with inodes := update s.inodes j none }
      some (if 0 < n.entry.size then s'.refund n.entry.size else s')

end Fs

/-! ## Runs -/

inductive Op
  | create (dir : ℕ) (name : Str)
  | mkdir (dir : ℕ) (name : Str)
  | mkfifo (dir : ℕ) (name : Str)
  | mknod (dir : ℕ) (name : Str) (mode : ℕ)
  | symlink (dir : ℕ) (name : Str) (target : List UInt8)
  | link (dir : ℕ) (old new : Str)
  | writeAt (i offset : ℕ) (buf : List UInt8)
  | truncate (i len : ℕ)
  | rename (dir : ℕ) (old new : Str)
  /-- With the answer of `vfs::rename`'s own guard, which climbs dentries and is asked first. -/
  | renameAcrossDirs (refused : Bool) (dir dir' : ℕ) (old new : Str)
  | unlink (dir : ℕ) (name : Str)
  | rmdir (dir : ℕ) (name : Str)
  | hold (i : ℕ)
  | release (i : ℕ)
  | drop (i : ℕ)
  deriving DecidableEq, Repr

namespace Fs

/-- What an operation returns: `none` if it panics or cannot take place. -/
def apply (s : Fs) : Op → Option (Except VfsError Fs)
  | .create i name => some (s.create i name)
  | .mkdir i name => some (s.mkdir i name)
  | .mkfifo i name => some (s.mkfifo i name)
  | .mknod i name mode => some (s.mknod i name mode)
  | .symlink i name target => some (s.symlink i name target)
  | .link i old new => some (s.link i old new)
  | .writeAt i offset buf => s.writeAt i offset buf
  | .truncate i len => some (s.truncate i len)
  | .rename i old new => some (s.rename i old new)
  | .renameAcrossDirs refused i i' old new =>
    some (if refused then .error .invalidInput else s.renameAcrossDirs i i' old new)
  | .unlink i name => some (s.unlink i name)
  | .rmdir i name => some (s.rmdir i name)
  | .hold i => if (s.inodes i).isSome then some (.ok { s with handles := i :: s.handles }) else none
  | .release i =>
    if i ∈ s.handles then some (.ok { s with handles := s.handles.erase i }) else none
  | .drop i => (s.drop i).map .ok

/-- An operation that fails leaves the tmpfs as it is. -/
def step (s : Fs) (op : Op) : Option Fs :=
  (s.apply op).map fun
    | .ok s' => s'
    | .error _ => s

/-! ## Entries after an update -/

theorem children_eq_some {s : Fs} {i : ℕ} {c : List (Str × ℕ)} :
    s.children i = some c ↔ s.entry i = some (.dir c) := by
  unfold children
  cases s.entry i with
  | none => simp
  | some e => cases e <;> simp

theorem entry_setEntry (s : Fs) (i j : ℕ) (e : Entry) :
    (s.setEntry i e).entry j = if j = i then (s.entry i).map fun _ => e else s.entry j := by
  obtain rfl | hj := eq_or_ne j i
  · simp only [entry, setEntry, update_self]
    cases s.inodes j <;> rfl
  · simp only [entry, setEntry, update_of_ne hj, if_neg hj]

theorem entry_newInode (s : Fs) (fileType : FileType) (e : Entry) (j : ℕ) :
    (s.newInode fileType e).entry j = if j = s.next then some e else s.entry j := by
  by_cases hj : j = s.next
  · subst hj
    simp only [entry, newInode, update_self]
    rfl
  · simp only [entry, newInode, update_of_ne hj, if_neg hj]

/-! ## What the operations do when they succeed -/

section Ok

variable {s s' : Fs} {i i' : ℕ} {name old new : Str} {c : List (Str × ℕ)}

theorem addNew_ok {fileType : FileType} {e : Entry} (h : s.addNew i name fileType e = .ok s') :
    ∃ c, s.children i = some c ∧ c.lookup name = none ∧
      s' = (s.newInode fileType e).setChildren i (put c name s.next) := by
  unfold addNew at h
  split at h
  · cases h
  rename_i c hc
  split_ifs at h with hname
  exact ⟨c, hc, not_isSome_iff_eq_none.mp hname, (Except.ok.inj h).symm⟩

theorem symlink_ok {target : List UInt8} (h : s.symlink i name target = .ok s') :
    ∃ s1, s.reserveBudget target.length = .ok s1 ∧
      s1.addNew i name .symlink (.symlink target) = .ok s' := by
  unfold symlink at h
  split at h
  · cases h
  split_ifs at h
  split at h
  · cases h
  rename_i s1 hr
  exact ⟨s1, hr, h⟩

theorem link_ok (h : s.link i old new = .ok s') :
    ∃ c j, s.children i = some c ∧ c.lookup old = some j ∧ c.lookup new = none ∧
      s' = s.setChildren i (put c new j) := by
  unfold link at h
  split at h
  · cases h
  rename_i c hc
  split at h
  · cases h
  rename_i j hj
  split_ifs at h with hnew
  exact ⟨c, j, hc, hj, not_isSome_iff_eq_none.mp hnew, (Except.ok.inj h).symm⟩

theorem unlink_ok (h : s.unlink i name = .ok s') :
    ∃ c j, s.children i = some c ∧ c.lookup name = some j ∧
      s' = s.setChildren i (take c name) := by
  unfold unlink at h
  split at h
  · cases h
  rename_i c hc
  split at h
  · cases h
  rename_i j hj
  exact ⟨c, j, hc, hj, (Except.ok.inj h).symm⟩

theorem rmdir_ok (h : s.rmdir i name = .ok s') :
    ∃ c j, s.children i = some c ∧ c.lookup name = some j ∧
      (∀ c', s.children j = some c' → c' = []) ∧ s' = s.setChildren i (take c name) := by
  unfold rmdir at h
  split at h
  · cases h
  rename_i c hc
  split at h
  · cases h
  rename_i j hj
  split at h
  · cases h
  rename_i hempty
  refine ⟨c, j, hc, hj, fun c' hc' => ?_, (Except.ok.inj h).symm⟩
  cases c' with
  | nil => rfl
  | cons x xs => exact absurd hc' (hempty x xs)

theorem rename_ok (h : s.rename i old new = .ok s') :
    ∃ c j, s.children i = some c ∧ c.lookup old = some j ∧
      s' = s.setChildren i (put (take c old) new j) := by
  unfold rename at h
  split at h
  · cases h
  rename_i c hc
  split at h
  · cases h
  rename_i j hj
  exact ⟨c, j, hc, hj, (Except.ok.inj h).symm⟩

theorem renameAcrossDirs_ok (h : s.renameAcrossDirs i i' old new = .ok s') :
    (∃ n n', s.inodes i = some n ∧ s.inodes i' = some n' ∧ n.ino = n'.ino ∧
      s.rename i old new = .ok s') ∨
    ∃ c c' j, i ≠ i' ∧ s.children i = some c ∧ s.children i' = some c' ∧ c.lookup old = some j ∧
      s' = (s.setChildren i (take c old)).setChildren i' (put c' new j) := by
  unfold renameAcrossDirs at h
  split at h
  · rename_i n n' hn hn'
    split_ifs at h with htype hdot hino
    · exact .inl ⟨n, n', hn, hn', hino, h⟩
    · split at h
      · rename_i c c' hc hc'
        split at h
        · cases h
        rename_i j hj
        refine .inr ⟨c, c', j, fun heq => hino ?_, hc, hc', hj, (Except.ok.inj h).symm⟩
        rw [heq, hn'] at hn
        rw [some.inj hn]
      · cases h
  · cases h

theorem drop_some {j : ℕ} (h : s.drop j = some s') :
    ∃ n, s.inodes j = some n ∧ j ≠ root ∧ j ∉ s.handles ∧ s.named j = false ∧
      s' = if 0 < n.entry.size then { s with inodes := update s.inodes j none }.refund
          n.entry.size
        else { s with inodes := update s.inodes j none } := by
  unfold drop at h
  split at h
  · cases h
  rename_i n hn
  obtain ⟨hheld, h⟩ := ite_none_left_eq_some.mp h
  obtain ⟨hroot, hrest⟩ := not_or.mp hheld
  obtain ⟨hhandle, hnamed⟩ := not_or.mp hrest
  exact ⟨n, hn, hroot, hhandle, by simpa using hnamed, (some.inj h).symm⟩

theorem reserveGrowth_ok {a b : ℕ} (h : s.reserveGrowth a b = .ok s') :
    ∃ u, s' = { s with used := u } := by
  unfold reserveGrowth reserveBudget at h
  split_ifs at h <;> exact ⟨_, (Except.ok.inj h).symm⟩

theorem refundShrink_eq (s : Fs) (a b : ℕ) : ∃ u, s.refundShrink a b = { s with used := u } := by
  unfold refundShrink
  split_ifs
  · exact ⟨_, rfl⟩
  · exact ⟨_, rfl⟩

/-- What a write or a resize has in common: an entry with data takes another, and the counter
moves. -/
def Rewritten (s : Fs) (i : ℕ) (s' : Fs) : Prop :=
  ∃ e₀ e u, s.entry i = some e₀ ∧ e₀.isData ∧ e.isData ∧ s' = { s.setEntry i e with used := u }

theorem rewritten {e₀ e : Entry} {s1 : Fs} {a b a' b' : ℕ} (he : s.entry i = some e₀)
    (hd0 : e₀.isData) (hd : e.isData) (hr : s.reserveGrowth a b = .ok s1) :
    s.Rewritten i ((s1.setEntry i e).refundShrink a' b') := by
  obtain ⟨u, rfl⟩ := reserveGrowth_ok hr
  obtain ⟨v, hv⟩ := refundShrink_eq (setEntry { s with used := u } i e) a' b'
  exact ⟨e₀, e, v, he, hd0, hd, hv⟩

theorem writeBytes_ok {data buf : List UInt8} {offset : ℕ} {make : List UInt8 → Entry}
    (hdata : ∀ d, (make d).isData) (he : s.entry i = some (make data))
    (h : s.writeBytes i data offset buf make = some (.ok s')) : s.Rewritten i s' := by
  unfold writeBytes at h
  simp only at h
  split at h
  · cases h
  rename_i s1 hr
  split at h
  · cases h
  · cases h
    exact rewritten he (hdata _) (hdata _) hr

theorem writeAt_ok {buf : List UInt8} {offset : ℕ}
    (h : s.writeAt i offset buf = some (.ok s')) : s.Rewritten i s' := by
  unfold writeAt at h
  split at h
  · rename_i data he
    exact writeBytes_ok (fun _ => rfl) he h
  · rename_i target he
    split_ifs at h
    · obtain ⟨s1, hr, ⟨⟩⟩ := map_eq_ok.mp (some.inj h)
      exact rewritten he rfl rfl hr
    · exact writeBytes_ok (fun _ => rfl) he h
  · cases h

theorem truncate_ok {len : ℕ} (h : s.truncate i len = .ok s') : s.Rewritten i s' := by
  unfold truncate at h
  split at h
  · rename_i data he
    obtain ⟨s1, hr, ⟨⟩⟩ := map_eq_ok.mp h
    exact rewritten he rfl rfl hr
  · rename_i target he
    obtain ⟨s1, hr, ⟨⟩⟩ := map_eq_ok.mp h
    exact rewritten he rfl rfl hr
  · cases h

end Ok

end Fs

end Bedrock.Tmpfs
