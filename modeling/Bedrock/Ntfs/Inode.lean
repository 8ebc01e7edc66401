import Bedrock.Ntfs.Index
import Bedrock.Vfs.Tree

/-!
# Ntfs/Inode — files and directories of a volume

An inode is made from its record, and for a file with an attribute list from other records too.  Of
several unnamed data attributes the size is the largest, and the resident bytes are the last.

    size   max of all                     read_at: offset < size
    data   the last resident value                 v[offset ..]

So a read that the size allows may begin behind the end of the bytes (`NtfsInode.Overrun`).  This is
the one panic that hostile media can bring about.
-/

namespace Bedrock.Ntfs

open Outcome Wire

def RECORD_MAGIC : ℕ := 0x454C4946

/-- `read_record_at`. -/
def readRecordAt (dev : SectorDevice) (boot : BootSector) (runs : RunList) (offset recordSize : ℕ) :
    Outcome VfsError (List UInt8) := do
  let buf ← readFileAt dev boot runs offset recordSize
  failIf (buf.length < recordSize) .ioError
  let buf ← usaFixup buf boot.bytesPerSector
  let magic ← u32At buf 0
  failIf (magic ≠ RECORD_MAGIC) .ioError
  pure buf

/-- `read_mft_record`. -/
def readMftRecord (sb : SuperBlock) (mftNo : ℕ) : Outcome VfsError (List UInt8) := do
  failIf (sb.boot.maxRecords ≤ mftNo) .notFound
  failIf (2 ^ 64 ≤ mftNo * sb.boot.recordSize) .ioError
  readRecordAt sb.device sb.boot sb.mftRuns (mftNo * sb.boot.recordSize) sb.boot.recordSize

/-- `DataSource`. -/
inductive DataSource
  | resident (v : List UInt8)
  | runs (runs : RunList) (init : ℕ)
  | none
  deriving DecidableEq

/-- `NtfsInode`. -/
structure NtfsInode where
  mftNo : ℕ
  fileType : FileType
  size : ℕ
  mtime : ℕ
  data : DataSource
  unsupported : Bool
  deriving DecidableEq

/-- What `load` gathers from the data attributes. -/
structure Gathered where
  resident : Option (List UInt8)
  runs : RunList
  size : ℕ
  init : ℕ
  unsupported : Bool

/-- `add_data_attr`. -/
def addDataAttr (a : Attr) (record : List UInt8) (g : Gathered) : Outcome VfsError Gathered :=
  if a.flags &&& (FLAG_COMPRESSED ||| FLAG_ENCRYPTED) ≠ 0 then pure { g with unsupported := true }
  else if a.resident then
    pure { g with resident := some a.value, size := max g.size a.value.length }
  else do
    let rl ← a.runs record
    pure { g with
      runs := g.runs ++ rl, size := max g.size a.realSize, init := max g.init a.initSize }

/-- The type and the time of change in the first file name, if it can be read. -/
def fileNameInfo (attrs : List Attr) : Outcome VfsError (FileType × ℕ) :=
  match attrs.find? fun a => a.attrType = ATTR_FILE_NAME with
  | some a =>
    match parseFileName a.value with
    | .ok f =>
      pure (if f.flags &&& FILE_NAME_INDEX_PRESENT ≠ 0 then .directory else .regular, f.mtime)
    | .err _ => pure (.regular, 0)
    | .panic => panic
  | none => pure (.regular, 0)

/-- An entry of the attribute list: the data attribute is looked for in the record it names. -/
def addListed (sb : SuperBlock) (mftNo : ℕ) (record : List UInt8) (g : Gathered)
    (e : AttrListEntry) : Outcome VfsError Gathered :=
  if e.attrType ≠ ATTR_DATA ∨ e.name.isSome then pure g
  else do
    let recMft := e.mftRef &&& MFT_REF_MASK
    let rec' ← (if recMft = mftNo then pure record else readMftRecord sb recMft)
    let attrs ← iterAttrs rec'
    match attrs.find? fun a =>
        a.attrType = ATTR_DATA ∧ a.name = none ∧ a.lowestVcn = e.lowestVcn with
    | some a => addDataAttr a rec' g
    | none => pure g

/-- The data attributes of a record with these attributes. -/
def gather (sb : SuperBlock) (mftNo : ℕ) (record : List UInt8) (attrs : List Attr) :
    Outcome VfsError Gathered :=
  match attrs.find? fun a => a.attrType = ATTR_ATTRIBUTE_LIST with
  | some list => do
    let bytes ← readAttrValue sb.device sb.boot record list (2 ^ 20)
    let entries ← parseAttrList bytes
    entries.foldlM (addListed sb mftNo record) ⟨none, [], 0, 0, false⟩
  | none =>
    attrs.foldlM (fun g a => if a.attrType = ATTR_DATA ∧ a.name = none then
      addDataAttr a record g else pure g) ⟨none, [], 0, 0, false⟩

/-- The bytes of the inode: resident ones come before runs. -/
def Gathered.source (g : Gathered) : DataSource :=
  match g.resident with
  | some v => .resident v
  | none =>
    if g.runs = [] then .none
    else .runs (g.runs.insertionSort fun r s => r.vcn ≤ s.vcn) g.init

/-- `NtfsInode::load`. -/
def load (sb : SuperBlock) (mftNo : ℕ) : Outcome VfsError NtfsInode := do
  let record ← readMftRecord sb mftNo
  let attrs ← iterAttrs record
  let info ← fileNameInfo attrs
  let g ← gather sb mftNo record attrs
  pure ⟨mftNo, info.1, g.size, info.2, g.source, g.unsupported⟩

/-- `boot_mft_runs`. -/
def bootMftRuns (dev : SectorDevice) (boot : BootSector) : Outcome VfsError RunList := do
  let lba ← word (boot.mftLcn * boot.sectorsPerCluster)
  let secs ← div boot.recordSize boot.bytesPerSector
  let buf ← readSectors dev lba secs
  let buf ← usaFixup buf boot.bytesPerSector
  failIf (buf.length < 4 ∨ natAt 4 buf 0 ≠ RECORD_MAGIC) .ioError
  let attrs ← iterAttrs buf
  match attrs.find? fun a => a.attrType = ATTR_DATA ∧ a.name = none ∧ a.resident = false with
  | some a => a.runs buf
  | none => err .ioError

/-- `NtfsFileSystem::mount`: the volume, and its root, which is record 5. -/
def mount (device : Option SectorDevice) : Outcome VfsError (SuperBlock × NtfsInode) := do
  let dev ← ofOption .invalidDevice device
  let boot ← BootSector.parse dev
  let mftRuns ← bootMftRuns dev boot
  let sb : SuperBlock := ⟨dev, boot, mftRuns⟩
  let root ← load sb 5
  failIf (root.fileType ≠ .directory) .ioError
  pure (sb, root)

/-- The loop of `read_at` over runs: so many bytes are wanted from `pos` on. -/
def readDataFrom (sb : SuperBlock) (runs : RunList) (init size : ℕ) :
    ℕ → ℕ → ℕ → Outcome VfsError (List UInt8)
  | 0, pos, left => if left = 0 ∨ size ≤ pos then pure [] else panic
  | fuel + 1, pos, left =>
    if left = 0 ∨ size ≤ pos then pure []
    else do
      let want := min left (size - pos)
      let bytes ← (if init ≤ pos then pure (List.replicate want 0)
        else do
          let got ← readFileAt sb.device sb.boot runs pos (min want (init - pos))
          let gap ← sub want got.length
          pure (got ++ List.replicate gap 0))
      let left ← sub left want
      let next ← word (pos + want)
      let rest ← readDataFrom sb runs init size fuel next left
      pure (bytes ++ rest)

/-- `read_at`: the bytes that are read into a buffer of so many. -/
def readAt (sb : SuperBlock) (inode : NtfsInode) (offset len : ℕ) :
    Outcome VfsError (List UInt8) := do
  failIf (inode.unsupported = true) .notSupported
  failIf (inode.fileType ≠ .regular) .isADirectory
  if inode.size ≤ offset ∨ len = 0 then pure []
  else
    match inode.data with
    | .resident v => slice v offset (offset + min len (v.length - offset))
    | .runs runs init => readDataFrom sb runs init inode.size len offset len
    | .none => pure []

/-- `dir_entries`. -/
def dirEntries (sb : SuperBlock) (inode : NtfsInode) : Outcome VfsError (List IndexEntry) := do
  let record ← readMftRecord sb inode.mftNo
  readDirEntries sb record

def eqIgnoreAsciiCase (s t : Str) : Bool := s.map Char.toLower = t.map Char.toLower

/-- `lookup`. -/
def lookup (sb : SuperBlock) (inode : NtfsInode) (name : Str) : Outcome VfsError NtfsInode := do
  let entries ← dirEntries sb inode
  match entries.find? fun e => eqIgnoreAsciiCase e.name name with
  | some e => load sb e.mftRef
  | none => err .notFound

/-- `DirEntry`. -/
structure DirEntry where
  ino : ℕ
  name : Str
  fileType : FileType
  deriving DecidableEq

/-- `readdir`. -/
def readdir (sb : SuperBlock) (inode : NtfsInode) : Outcome VfsError (List DirEntry) := do
  let entries ← dirEntries sb inode
  pure (entries.map fun e =>
    ⟨e.mftRef &&& MFT_REF_MASK, e.name, if e.isDir then .directory else .regular⟩)

/-! ## No panic, but for one -/

section Safe

variable {sb : SuperBlock} {dev : SectorDevice} {boot : BootSector} {record : List UInt8} {a : Attr}

theorem BootSector.Ok.ensures_readRecordAt (h : boot.Ok) (runs : RunList) (offset : ℕ) {n : ℕ}
    (hn : n < 2 ^ 32) :
    Ensures (readRecordAt dev boot runs offset n) fun bs => bs.length < 2 ^ 32 := by
  rw [readRecordAt, h.bytes]
  refine (h.ensures_readFileAt _ _).bind fun buf hbuf => ?_
  refine .guard fun _ => ?_
  refine (ensures_usaFixup (by decide) (by omega)).bind fun buf' hbuf' => ?_
  refine (ensures_fieldAt (by decide)).bind fun _ _ => ?_
  exact Ensures.guard fun _ => Ensures.pure (by rw [hbuf'.1]; omega)

theorem ensures_readMftRecord (h : sb.boot.Ok) (mftNo : ℕ) :
    Ensures (readMftRecord sb mftNo) fun bs => bs.length < 2 ^ 32 := by
  refine .guard fun _ => .guard fun _ => ?_
  exact h.ensures_readRecordAt _ _ (lt_of_le_of_lt h.record_le (by decide))

theorem ensures_addDataAttr (hr : record.length < 2 ^ 32) (ha : a.Ok record) {g : Gathered}
    (hg : g.size < 2 ^ 64) : Ensures (addDataAttr a record g) fun g => g.size < 2 ^ 64 := by
  have hvalue := ha.value_le
  refine .ite (fun _ => .pure hg) fun _ => .ite (fun _ => ?_) fun _ => ?_
  · exact .pure (max_lt hg (by omega))
  · exact (ensures_runs hr a).bind fun _ _ => .pure (max_lt hg ha.size_lt)

theorem ensures_fileNameInfo (attrs : List Attr) : Ensures (fileNameInfo attrs) fun _ => True := by
  rw [fileNameInfo]
  split
  · rename_i a _
    have hname := ensures_parseFileName a.value
    cases hf : parseFileName a.value with
    | ok f | err e => exact .pure trivial
    | panic => exact absurd hf hname.ne_panic
  · exact .pure trivial

theorem ensures_addListed (h : sb.boot.Ok) (hr : record.length < 2 ^ 32) (mftNo : ℕ)
    {g : Gathered} (hg : g.size < 2 ^ 64) (e : AttrListEntry) :
    Ensures (addListed sb mftNo record g e) fun g => g.size < 2 ^ 64 := by
  refine .ite (fun _ => .pure hg) fun _ => ?_
  refine .bind (R := fun r => r.length < 2 ^ 32) ?_ fun rec' hrec' => ?_
  · exact .ite (fun _ => .pure hr) fun _ => ensures_readMftRecord h _
  refine (ensures_iterAttrs hrec').bind fun attrs hattrs => ?_
  split
  · rename_i a ha
    exact ensures_addDataAttr hrec' (hattrs a (List.mem_of_find?_eq_some ha)) hg
  · exact .pure hg

theorem ensures_gather (h : sb.boot.Ok) (hr : record.length < 2 ^ 32) (mftNo : ℕ)
    {attrs : List Attr} (hattrs : ∀ a ∈ attrs, a.Ok record) :
    Ensures (gather sb mftNo record attrs) fun g => g.size < 2 ^ 64 := by
  rw [gather]
  split
  · rename_i list hlist
    have hvalue := (hattrs list (List.mem_of_find?_eq_some hlist)).value_le
    refine (h.ensures_readAttrValue sb.device hr _ _).bind fun bytes hbytes => ?_
    refine (ensures_parseAttrList (by omega)).bind fun entries _ => ?_
    exact .foldlM (fun g e _ hg => ensures_addListed h hr mftNo hg e) (by decide)
  · refine .foldlM (fun g a ha hg => ?_) (by decide)
    refine .ite (fun _ => ?_) fun _ => .pure hg
    exact ensures_addDataAttr hr (hattrs a ha) hg

theorem ensures_load (h : sb.boot.Ok) (mftNo : ℕ) :
    Ensures (load sb mftNo) fun inode => inode.size < 2 ^ 64 := by
  refine (ensures_readMftRecord h mftNo).bind fun record hr => ?_
  refine (ensures_iterAttrs hr).bind fun attrs hattrs => ?_
  refine (ensures_fileNameInfo attrs).bind fun info _ => ?_
  exact (ensures_gather h hr mftNo hattrs).bind fun g hg => .pure hg

theorem BootSector.Ok.ensures_bootMftRuns (h : boot.Ok) :
    Ensures (bootMftRuns dev boot) fun _ => True := by
  have hle := h.record_le
  rw [bootMftRuns, h.bytes]
  refine (Ensures.word h.mft_lt).bind fun lba _ => ?_
  refine (Ensures.div (by decide)).bind ?_
  rintro _ rfl
  refine (ensures_readSectors dev _ _).bind fun buf hbuf => ?_
  rw [BYTES_PER_SECTOR] at hbuf
  have hlt : buf.length < 2 ^ 32 := by omega
  refine (ensures_usaFixup (by decide) (by omega)).bind fun buf' hbuf' => ?_
  refine .guard fun _ => ?_
  refine (ensures_iterAttrs (by rw [hbuf'.1]; exact hlt)).bind fun attrs _ => ?_
  split
  · exact ensures_runs (by rw [hbuf'.1]; exact hlt) _
  · exact .err _

theorem ensures_mount (device : Option SectorDevice) :
    Ensures (mount device) fun p => p.1.boot.Ok := by
  refine (Ensures.ofOption _ _).bind fun dev _ => ?_
  refine (ensures_parse dev).bind fun boot h => ?_
  refine (h.ensures_bootMftRuns).bind fun runs _ => ?_
  have hload : Ensures (load ⟨dev, boot, runs⟩ 5) fun inode => inode.size < 2 ^ 64 :=
    ensures_load h 5
  refine hload.bind fun root _ => ?_
  exact .guard fun _ => .pure h

theorem ensures_readDataFrom (h : sb.boot.Ok) (runs : RunList) (init : ℕ) {size : ℕ}
    (hs : size < 2 ^ 64) : ∀ {fuel pos left : ℕ}, left ≤ fuel →
      Ensures (readDataFrom sb runs init size fuel pos left) fun _ => True
  | 0, _, _, hl => by
    rw [readDataFrom, if_pos (.inl (Nat.le_zero.mp hl))]
    exact .pure trivial
  | fuel + 1, pos, left, hl => by
    refine .ite (fun _ => .pure trivial) fun hleft => ?_
    refine .bind (R := fun _ => True) ?_ fun bytes _ => ?_
    · refine .ite (fun _ => .pure trivial) fun _ => ?_
      refine (h.ensures_readFileAt _ _).bind fun got hgot => ?_
      exact (Ensures.sub (by omega)).bind fun _ _ => Ensures.pure trivial
    refine (Ensures.sub (by omega)).bind ?_
    rintro _ rfl
    refine (Ensures.word (by omega)).bind ?_
    rintro _ rfl
    exact (ensures_readDataFrom h runs init hs (by omega)).bind fun _ _ => .pure trivial

theorem ensures_dirEntries (h : sb.boot.Ok) (inode : NtfsInode) :
    Ensures (dirEntries sb inode) fun _ => True :=
  (ensures_readMftRecord h _).bind fun _ hr => ensures_readDirEntries h hr

theorem ensures_lookup (h : sb.boot.Ok) (inode : NtfsInode) (name : Str) :
    Ensures (lookup sb inode name) fun _ => True := by
  refine (ensures_dirEntries h inode).bind fun entries _ => ?_
  split
  · exact (ensures_load h _).mono fun _ _ => trivial
  · exact .err _

theorem ensures_readdir (h : sb.boot.Ok) (inode : NtfsInode) :
    Ensures (readdir sb inode) fun _ => True :=
  (ensures_dirEntries h inode).bind fun _ _ => .pure trivial

end Safe

/-- The read is allowed by the size, and begins behind the end of the resident bytes. -/
def NtfsInode.Overrun (inode : NtfsInode) (offset len : ℕ) : Prop :=
  inode.unsupported = false ∧ inode.fileType = .regular ∧ offset < inode.size ∧ 0 < len ∧
    ∃ v, inode.data = .resident v ∧ v.length < offset

theorem readAt_eq_panic_iff {sb : SuperBlock} (h : sb.boot.Ok) {inode : NtfsInode}
    (hs : inode.size < 2 ^ 64) (offset len : ℕ) :
    readAt sb inode offset len = panic ↔ inode.Overrun offset len := by
  by_cases hu : inode.unsupported = true
  · rw [readAt, failIf_pos hu]
    exact ⟨nofun, fun ho => by simp [ho.1] at hu⟩
  by_cases hf : inode.fileType ≠ .regular
  · rw [readAt, failIf_neg hu, failIf_pos hf]
    exact ⟨nofun, fun ho => absurd ho.2.1 hf⟩
  rw [readAt, failIf_neg hu, ok_bind, failIf_neg hf, ok_bind]
  by_cases hz : inode.size ≤ offset ∨ len = 0
  · rw [if_pos hz]
    exact ⟨nofun, fun ⟨_, _, ho, hl, _⟩ => by omega⟩
  rw [if_neg hz]
  cases hd : inode.data with
  | resident v =>
    have hslice : slice v offset (offset + min len (v.length - offset)) =
        (panic : Outcome VfsError _) ↔ v.length < offset := by
      rw [slice]
      split <;> simp <;> omega
    rw [hslice]
    refine ⟨fun hv => ⟨by simpa using hu, not_not.mp hf, by omega, by omega, v, hd, hv⟩, ?_⟩
    rintro ⟨-, -, -, -, w, hw, hlt⟩
    obtain rfl : v = w := by simpa [hd] using hw
    exact hlt
  | runs runs init =>
    refine ⟨fun hp => absurd hp (ensures_readDataFrom h runs init hs le_rfl).ne_panic, ?_⟩
    rintro ⟨-, -, -, -, w, hw, -⟩
    simp [hd] at hw
  | none =>
    refine ⟨nofun, ?_⟩
    rintro ⟨-, -, -, -, w, hw, -⟩
    simp [hd] at hw

/-- **On a volume that was mounted, whatever it holds, loading, listing and looking up never panic,
and a read panics exactly if it overruns the resident bytes.** -/
theorem mounted_panic_iff (device : Option SectorDevice) (sb : SuperBlock) (root : NtfsInode)
    (h : mount device = ok (sb, root)) : (∀ mftNo, load sb mftNo ≠ panic) ∧
    ∀ mftNo inode, load sb mftNo = ok inode →
      readdir sb inode ≠ panic ∧ (∀ name, lookup sb inode name ≠ panic) ∧
      ∀ offset len, readAt sb inode offset len = panic ↔ inode.Overrun offset len := by
  have hok : sb.boot.Ok := (ensures_mount device).of_ok h
  refine ⟨fun no => (ensures_load hok no).ne_panic, fun no inode hload => ?_⟩
  refine ⟨(ensures_readdir hok inode).ne_panic,
    fun name => (ensures_lookup hok inode name).ne_panic, fun offset len => ?_⟩
  exact readAt_eq_panic_iff hok ((ensures_load hok no).of_ok hload) offset len

/-! ## A volume with such a file -/

/-- A record of one sector, with its first attribute at 0x38. -/
def recordOf (attrs : List UInt8) : List (ℕ × List UInt8) :=
  [(0, [0x46, 0x49, 0x4C, 0x45]), (0x04, [0x30, 0, 2, 0]), (0x14, [0x38, 0]), (0x1C, [0, 2, 0, 0]),
   (0x30, [1, 0]), (0x38, attrs ++ [0xFF, 0xFF, 0xFF, 0xFF]), (510, [1, 0])]

/-- A resident attribute of 0x18 + `room` bytes. -/
def residentOf (t : UInt8) (room : ℕ) (value : List UInt8) : List UInt8 :=
  [t, 0, 0, 0, UInt8.ofNat (0x18 + room), 0, 0, 0] ++ List.replicate 8 0 ++
    [UInt8.ofNat value.length, 0, 0, 0, 0x18, 0, 0, 0] ++ fit room value

/-- Sixteen sectors: the boot sector, and from sector 2 on the records 0 ($MFT), 5 (the root) and 6,
a file whose second data attribute is shorter than its first. -/
def hostile : SectorDevice :=
  deviceOf
    [[(0x03, [78, 84, 70, 83, 32, 32, 32, 32]), (0x0B, [0, 2, 1]), (0x28, [16]), (0x30, [2]),
      (0x40, [0xF7]), (0x44, [0xF7])],
     [],
     recordOf (fit 0x40 ([0x80, 0, 0, 0, 0x48, 0, 0, 0, 1] ++ List.replicate 23 0 ++ [0x40]) ++
       fit 8 [0x11, 8, 2]),
     [], [], [], [],
     recordOf (residentOf 0x30 0x48 (fit 0x3B [] ++ [0x10, 0, 0, 0, 0, 1, 1, 0x2E, 0])),
     recordOf (residentOf 0x80 8 [1, 2, 3, 4] ++ residentOf 0x80 8 [1]),
     [], [], [], [], [], [], []]

/-- A read from a file of the device, if it can be mounted and the file loaded. -/
def readFrom (dev : SectorDevice) (mftNo offset len : ℕ) : Option (Outcome VfsError (List UInt8)) :=
  match mount (some dev) with
  | .ok (sb, _) =>
    match load sb mftNo with
    | .ok inode => some (readAt sb inode offset len)
    | _ => none
  | _ => none

theorem exists_of_readFrom {dev : SectorDevice} {mftNo offset len : ℕ}
    {r : Outcome VfsError (List UInt8)} (h : readFrom dev mftNo offset len = some r) :
    ∃ sb root inode, mount (some dev) = ok (sb, root) ∧ load sb mftNo = ok inode ∧
      readAt sb inode offset len = r := by
  rw [readFrom] at h
  split at h
  · split at h
    · exact ⟨_, _, _, by assumption, by assumption, Option.some.inj h⟩
    · exact nomatch h
  · exact nomatch h

/-- The file has four bytes by its size and one by its contents: a read at two panics. -/
theorem hostile_read_panics :
    ∃ sb root inode, mount (some hostile) = ok (sb, root) ∧ load sb 6 = ok inode ∧
      readAt sb inode 2 1 = panic :=
  exists_of_readFrom (by decide +kernel)

theorem mounted_panic_iff_hostile :
    ∃ sb root inode, mount (some hostile) = ok (sb, root) ∧ load sb 6 = ok inode ∧
      readdir sb inode ≠ panic ∧ inode.Overrun 2 1 := by
  obtain ⟨sb, root, inode, hmount, hload, hread⟩ :=
    exists_of_readFrom (show readFrom hostile 6 2 1 = some panic by decide +kernel)
  obtain ⟨hdir, -, hiff⟩ := (mounted_panic_iff _ sb root hmount).2 6 inode hload
  exact ⟨sb, root, inode, hmount, hload, hdir, (hiff 2 1).mp hread⟩

end Bedrock.Ntfs
