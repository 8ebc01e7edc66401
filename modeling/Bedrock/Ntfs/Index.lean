import Bedrock.Ntfs.Attr

/-!
# Ntfs/Index — the index of a directory

The names of a directory are a B-tree: its root is in the record, the other nodes are blocks of the
allocation.  They are reached in two ways.

    root --subnode--▸ block --subnode--▸ …          at most sixteen levels, last pointers left out
    bitmap --▸ block, block, …                       a sweep over the blocks in use

One set of numbers says which blocks have been visited, and both ways take the number, times the
size of a block, for the place of the block in the allocation.
-/

namespace Bedrock.Ntfs

open Outcome Wire Option

def MAX_INDEX_ENTRIES : ℕ := 1000000
def MAX_INDEX_DEPTH : ℕ := 16
def MAX_INDEX_BLOCKS : ℕ := 1000000
def MAX_BITMAP_BYTES : ℕ := 16 * 1024 * 1024
def INDEX_ENTRY_LAST : ℕ := 0x02
def INDEX_ENTRY_SUBNODE : ℕ := 0x01
def DOS_NAMESPACE : UInt8 := 2
def INDX_MAGIC : ℕ := 0x58444E49

/-- `IndexEntry`. -/
structure IndexEntry where
  mftRef : ℕ
  name : Str
  nameSpace : UInt8
  mtime : ℕ
  size : ℕ
  isDir : Bool
  parentRef : ℕ
  deriving DecidableEq

/-- `IndexBlock`: the bytes of a node, and where its entries are. -/
structure IndexBlock where
  data : List UInt8
  start : ℕ
  stop : ℕ
  deriving DecidableEq

/-- What the search carries along. -/
structure Search where
  visited : List ℕ
  out : List IndexEntry
  deriving DecidableEq

/-- `index_header_region`. -/
def indexHeaderRegion (data : List UInt8) (headerOff : ℕ) : Outcome VfsError (ℕ × ℕ) := do
  let entriesOff ← u32At data headerOff
  let used ← u32At data (headerOff + 4)
  let start ← word (headerOff + entriesOff)
  let stop ← word (headerOff + used)
  failIf (start < headerOff ∨ data.length < stop ∨ stop < start) .ioError
  pure (start, stop)

/-- The directory entry that an entry of the index stands for. -/
def IndexEntry.of (ref : ℕ) (f : FileName) : IndexEntry where
  mftRef := ref &&& MFT_REF_MASK
  name := f.name
  nameSpace := f.nameSpace
  mtime := f.mtime
  size := f.size
  isDir := f.flags &&& FILE_NAME_INDEX_PRESENT ≠ 0
  parentRef := f.parentRef

/-- What `parse_entries` pushes for the entry at `pos`: nothing if the key is no file name, or the
name of the directory itself or of its parent. -/
def entryAt (data : List UInt8) (pos eLen keyLen : ℕ) : Outcome VfsError (Option IndexEntry) := do
  let room ← sub eLen 0x10
  if 0 < keyLen ∧ keyLen ≤ room then do
    let key ← slice data (pos + 0x10) (pos + 0x10 + keyLen)
    match parseFileName key with
    | .ok f =>
      if f.name ≠ ['.'] ∧ f.name ≠ ['.', '.'] then do
        let ref ← u64At data pos
        pure (some (IndexEntry.of ref f))
      else pure none
    | .err _ => pure none
    | .panic => panic
  else pure none

/-- The loop of `parse_entries` from `pos` on; `visit` is what it does with a subnode, if it is not
too deep.  An entry takes 16 bytes at least, so the loop has ended before the fuel has. -/
def parseFrom (visit : Option (ℕ → Search → Outcome VfsError Search)) (data : List UInt8)
    (stop : ℕ) : ℕ → ℕ → Search → Outcome VfsError Search
  | 0, _, _ => panic
  | fuel + 1, pos, st => do
    let behind ← word (pos + 0x10)
    if stop < behind then pure st
    else do
      failIf (MAX_INDEX_ENTRIES ≤ st.out.length) .ioError
      let eLen ← u16At data (pos + 8)
      let keyLen ← u16At data (pos + 10)
      let flags ← u16At data (pos + 12)
      let next ← word (pos + eLen)
      failIf (eLen < 0x10 ∨ stop < next) .ioError
      if flags &&& INDEX_ENTRY_LAST ≠ 0 then pure st
      else do
        let found ← entryAt data pos eLen keyLen
        let st := { st with out := st.out ++ found.toList }
        let st ← (match visit with
          | some visit =>
            if flags &&& INDEX_ENTRY_SUBNODE ≠ 0 ∧ 0x18 ≤ eLen then do
              let place ← sub next 8
              let subVcn ← u64At data place
              visit subVcn st
            else pure st
          | none => pure st)
        parseFrom visit data stop fuel next st

/-- A block is read and searched, if it has not been visited before. -/
def visitBlock (read : ℕ → Outcome VfsError (Option IndexBlock))
    (parse : IndexBlock → Search → Outcome VfsError Search) (vcn : ℕ) (st : Search) :
    Outcome VfsError Search :=
  if vcn ∈ st.visited then pure st
  else do
    let block ← read vcn
    let st := { st with visited := vcn :: st.visited }
    match block with
    | some block => parse block st
    | none => pure st

/-- `parse_entries`, so many levels above the deepest one. -/
def parseEntries (read : Option (ℕ → Outcome VfsError (Option IndexBlock))) :
    ℕ → IndexBlock → Search → Outcome VfsError Search
  | 0, block, st => parseFrom none block.data block.stop (block.data.length + 1) block.start st
  | levels + 1, block, st =>
    let visit := match read with
      | some read => visitBlock read (parseEntries (some read) levels)
      | none => fun _ st => pure st
    parseFrom (some visit) block.data block.stop (block.data.length + 1) block.start st

/-- What is known of the allocation: the last block of the sweep, the bitmap, and how a block is
read. -/
structure Allocation where
  lastVcn : ℕ
  bitmap : List UInt8
  read : ℕ → Outcome VfsError (Option IndexBlock)

/-- Without a bitmap every block is in use. -/
def blockUsed (bitmap : List UInt8) (vcn : ℕ) : Bool :=
  bitmap.isEmpty || match bitmap[vcn / 8]? with
    | some b => b.toNat.testBit (vcn % 8)
    | none => false

/-- The sweep over the blocks of the list. -/
def sweep (a : Allocation) : List ℕ → Search → Outcome VfsError Search
  | [], st => pure st
  | vcn :: vcns, st => do
    let st ← (if blockUsed a.bitmap vcn then
      visitBlock a.read (parseEntries (some a.read) MAX_INDEX_DEPTH) vcn st else pure st)
    sweep a vcns st

/-- The last loop of `read_dir_entries`: a DOS name goes if a name of another kind reads the
same. -/
def dropDosAliases (out : List IndexEntry) : List IndexEntry :=
  out.foldl (fun kept e =>
    if e.nameSpace = DOS_NAMESPACE ∧ ∃ o ∈ kept, o.name = e.name ∧ o.nameSpace ≠ DOS_NAMESPACE
    then kept else kept ++ [e]) []

/-- `read_dir_entries` behind the attributes: the search from the root, the sweep, and the choice of
names. -/
def listEntries (root : List UInt8) (alloc : Option Allocation) :
    Outcome VfsError (List IndexEntry) := do
  let region ← indexHeaderRegion root 0x10
  let st ← parseEntries (alloc.map Allocation.read) MAX_INDEX_DEPTH ⟨root, region.1, region.2⟩
    ⟨[], []⟩
  let st ← (match alloc with
    | some a => sweep a (List.range (a.lastVcn + 1)) st
    | none => pure st)
  pure (dropDosAliases st.out)

/-- `NtfsSuperBlock`. -/
structure SuperBlock where
  device : SectorDevice
  boot : BootSector
  mftRuns : RunList

/-- `read_index_block`. -/
def readIndexBlock (sb : SuperBlock) (runs : RunList) (vcn : ℕ) :
    Outcome VfsError (Option IndexBlock) := do
  failIf (2 ^ 64 ≤ vcn * sb.boot.indexSize) .ioError
  let buf ← readFileAt sb.device sb.boot runs (vcn * sb.boot.indexSize) sb.boot.indexSize
  if buf.length < sb.boot.indexSize then pure none
  else do
    let buf ← usaFixup buf sb.boot.bytesPerSector
    let magic ← u32At buf 0
    if magic ≠ INDX_MAGIC then pure none
    else do
      let region ← indexHeaderRegion buf 0x18
      pure (some ⟨buf, region.1, region.2⟩)

/-- The first attribute of this type that belongs to the index of names. -/
def findI30 (attrs : List Attr) (t : ℕ) : Option Attr :=
  attrs.find? fun a => a.attrType = t ∧ a.name = some ['$', 'I', '3', '0']

/-- `read_dir_entries`, with the reader of blocks as an argument. -/
def readDirEntriesWith (read : RunList → ℕ → Outcome VfsError (Option IndexBlock))
    (sb : SuperBlock) (record : List UInt8) : Outcome VfsError (List IndexEntry) := do
  let attrs ← iterAttrs record
  let root ← ofOption .ioError (findI30 attrs ATTR_INDEX_ROOT)
  match findI30 attrs ATTR_INDEX_ALLOCATION with
  | none => listEntries root.value none
  | some a => do
    failIf (a.resident = true) .ioError
    let runs ← a.runs record
    let bitmap ← (match findI30 attrs ATTR_BITMAP with
      | some b => readAttrValue sb.device sb.boot record b MAX_BITMAP_BYTES
      | none => pure [])
    let blocks ← div a.realSize sb.boot.indexSize
    listEntries root.value (some ⟨min (blocks - 1) MAX_INDEX_BLOCKS, bitmap, read runs⟩)

/-- `read_dir_entries`. -/
def readDirEntries (sb : SuperBlock) (record : List UInt8) : Outcome VfsError (List IndexEntry) :=
  readDirEntriesWith (readIndexBlock sb) sb record

/-! ## No panic -/

/-- The entries are inside the bytes. -/
structure IndexBlock.Ok (b : IndexBlock) : Prop where
  le : b.start ≤ b.stop
  stop_le : b.stop ≤ b.data.length
  length_lt : b.data.length < 2 ^ 32

section Safe

variable {data : List UInt8} {pos eLen stop : ℕ} {b : IndexBlock}

theorem ensures_indexHeaderRegion {o : ℕ} (ho : o < 2 ^ 32) :
    Ensures (indexHeaderRegion data o) fun r => r.1 ≤ r.2 ∧ r.2 ≤ data.length := by
  refine (ensures_fieldAt (by omega)).bind ?_
  rintro _ ⟨-, rfl⟩
  refine (ensures_fieldAt (by omega)).bind ?_
  rintro _ ⟨-, rfl⟩
  have h1 := natAt_lt 4 data o
  have h2 := natAt_lt 4 data (o + 4)
  refine (Ensures.word (by omega)).bind ?_
  rintro _ rfl
  refine (Ensures.word (by omega)).bind ?_
  rintro _ rfl
  refine .guard fun h => .pure ?_
  simp only [not_or, not_lt] at h
  exact ⟨h.2.2, h.2.1⟩

theorem ensures_entryAt (hd : data.length < 2 ^ 32) (h : pos + eLen ≤ data.length)
    (hlen : 0x10 ≤ eLen) (keyLen : ℕ) : Ensures (entryAt data pos eLen keyLen) fun _ => True := by
  refine (Ensures.sub hlen).bind ?_
  rintro _ rfl
  refine Ensures.ite (fun hkey => ?_) fun _ => Ensures.pure trivial
  refine (Ensures.slice (by omega) (by omega)).bind fun key _ => ?_
  have hname := ensures_parseFileName key
  cases hf : parseFileName key with
  | ok f =>
    refine .ite (fun _ => ?_) fun _ => .pure trivial
    exact (ensures_fieldAt (by omega)).bind fun _ _ => .pure trivial
  | err e => exact .pure trivial
  | panic => exact absurd hf hname.ne_panic

theorem ensures_parseFrom {visit : Option (ℕ → Search → Outcome VfsError Search)}
    (hv : ∀ f, visit = some f → ∀ vcn st, Ensures (f vcn st) fun _ => True)
    (hd : data.length < 2 ^ 32) (hstop : stop ≤ data.length) :
    ∀ {fuel pos : ℕ} {st : Search}, stop < fuel + pos → pos ≤ stop →
      Ensures (parseFrom visit data stop fuel pos st) fun _ => True
  | 0, _, _, hf, hp => by omega
  | fuel + 1, pos, st, hf, hp => by
    refine (Ensures.word (by omega)).bind ?_
    rintro _ rfl
    refine Ensures.ite (fun _ => Ensures.pure trivial) fun _ => ?_
    refine .guard fun _ => ?_
    refine (ensures_fieldAt (by omega)).bind fun eLen hlen => ?_
    have hlt : eLen < 256 ^ 2 := hlen.2 ▸ natAt_lt 2 data _
    refine (ensures_fieldAt (by omega)).bind fun keyLen _ => ?_
    refine (ensures_fieldAt (by omega)).bind fun flags _ => ?_
    refine (Ensures.word (by omega)).bind ?_
    rintro _ rfl
    refine Ensures.guard fun hnext => ?_
    refine .ite (fun _ => .pure trivial) fun _ => ?_
    refine (ensures_entryAt hd (by omega) (by omega) keyLen).bind fun found _ => ?_
    refine .bind (R := fun _ => True) ?_
      fun st _ => ensures_parseFrom hv hd hstop (by omega) (by omega)
    cases visit with
    | none => exact .pure trivial
    | some f =>
      refine Ensures.ite (fun hsub => ?_) fun _ => Ensures.pure trivial
      refine (Ensures.sub (by omega)).bind ?_
      rintro _ rfl
      exact (ensures_fieldAt (by omega)).bind fun vcn _ => hv f rfl vcn _

variable {read : ℕ → Outcome VfsError (Option IndexBlock)}

theorem ensures_visitBlock (hr : ∀ vcn, Ensures (read vcn) fun o => ∀ b, o = some b → b.Ok)
    {parse : IndexBlock → Search → Outcome VfsError Search}
    (hp : ∀ b st, b.Ok → Ensures (parse b st) fun _ => True) (vcn : ℕ) (st : Search) :
    Ensures (visitBlock read parse vcn st) fun _ => True := by
  refine .ite (fun _ => .pure trivial) fun _ => ?_
  refine (hr vcn).bind fun o ho => ?_
  cases o with
  | none => exact .pure trivial
  | some b => exact hp b _ (ho b rfl)

theorem IndexBlock.Ok.ensures_parseFrom (h : b.Ok)
    {visit : Option (ℕ → Search → Outcome VfsError Search)}
    (hv : ∀ f, visit = some f → ∀ vcn st, Ensures (f vcn st) fun _ => True) (st : Search) :
    Ensures (parseFrom visit b.data b.stop (b.data.length + 1) b.start st) fun _ => True := by
  have := h.stop_le
  exact Ntfs.ensures_parseFrom hv h.length_lt h.stop_le (by omega) h.le

theorem ensures_parseEntries (o : Option (ℕ → Outcome VfsError (Option IndexBlock)))
    (hr : ∀ read, o = some read →
      ∀ vcn, Ensures (read vcn) fun o => ∀ b, o = some b → b.Ok) :
    ∀ (levels : ℕ) {b : IndexBlock} (st : Search), b.Ok →
      Ensures (parseEntries o levels b st) fun _ => True
  | 0, b, st, h => by
    refine h.ensures_parseFrom (fun f hf => ?_) st
    cases hf
  | levels + 1, b, st, h => by
    cases o with
    | none =>
      rw [parseEntries]
      refine h.ensures_parseFrom (fun f hf => ?_) st
      cases hf
      exact fun _ _ => .pure trivial
    | some read =>
      rw [parseEntries]
      refine h.ensures_parseFrom (fun f hf => ?_) st
      cases hf
      exact ensures_visitBlock (hr read rfl)
        fun b st hb => ensures_parseEntries (some read) hr levels st hb

theorem ensures_sweep (a : Allocation)
    (hr : ∀ vcn, Ensures (a.read vcn) fun o => ∀ b, o = some b → b.Ok) :
    ∀ (vcns : List ℕ) (st : Search), Ensures (sweep a vcns st) fun _ => True
  | [], _ => .pure trivial
  | vcn :: vcns, st => by
    refine .bind (R := fun _ => True) ?_ fun st _ => ensures_sweep a hr vcns st
    refine .ite (fun _ => ?_) fun _ => .pure trivial
    refine ensures_visitBlock hr (fun b st hb => ?_) vcn st
    exact ensures_parseEntries _ (fun _ h => some.inj h ▸ hr) _ st hb

theorem ensures_listEntries {root : List UInt8} (hroot : root.length < 2 ^ 32)
    (alloc : Option Allocation) (hr : ∀ a, alloc = some a →
      ∀ vcn, Ensures (a.read vcn) fun o => ∀ b, o = some b → b.Ok) :
    Ensures (listEntries root alloc) fun _ => True := by
  refine (ensures_indexHeaderRegion (by decide)).bind fun region hregion => ?_
  refine (ensures_parseEntries _ (fun read h => ?_) _ _ ⟨hregion.1, hregion.2, hroot⟩).bind
    fun st _ => ?_
  · obtain ⟨a, ha, rfl⟩ := map_eq_some_iff.mp h
    exact hr a ha
  refine .bind (R := fun _ => True) ?_ fun st _ => .pure trivial
  cases alloc with
  | none => exact .pure trivial
  | some a => exact ensures_sweep a (hr a rfl) _ st

variable {sb : SuperBlock}

theorem ensures_readIndexBlock (h : sb.boot.Ok) (runs : RunList) (vcn : ℕ) :
    Ensures (readIndexBlock sb runs vcn) fun o => ∀ b, o = some b → b.Ok := by
  have hle := h.index_le
  rw [readIndexBlock, h.bytes]
  refine .guard fun _ => ?_
  refine (h.ensures_readFileAt _ _).bind fun buf hbuf => ?_
  refine .ite (fun _ => .pure fun _ h => nomatch h) fun _ => ?_
  refine (ensures_usaFixup (by decide) (by omega)).bind fun buf' hbuf' => ?_
  refine (ensures_fieldAt (by decide)).bind fun magic _ => ?_
  refine .ite (fun _ => .pure fun _ h => nomatch h) fun _ => ?_
  refine (ensures_indexHeaderRegion (by decide)).bind fun region hregion => .pure ?_
  rintro _ ⟨⟩
  exact ⟨hregion.1, hregion.2, by rw [hbuf'.1]; omega⟩

/-- **Any record is listed, or refused, without a panic.** -/
theorem ensures_readDirEntries (h : sb.boot.Ok) {record : List UInt8}
    (hrec : record.length < 2 ^ 32) : Ensures (readDirEntries sb record) fun _ => True := by
  refine (ensures_iterAttrs hrec).bind fun attrs hattrs => ?_
  refine (Ensures.ofOption _ _).bind fun root hroot => ?_
  have hvalue : root.value.length < 2 ^ 32 :=
    lt_of_le_of_lt (hattrs root (List.mem_of_find?_eq_some hroot)).value_le hrec
  split
  · exact ensures_listEntries hvalue none fun _ h => nomatch h
  · refine .guard fun _ => ?_
    refine (ensures_runs hrec _).bind fun runs _ => ?_
    refine .bind (R := fun _ => True) ?_ fun bitmap _ => ?_
    · split
      · exact (h.ensures_readAttrValue sb.device hrec _ _).mono fun _ _ => trivial
      · exact .pure trivial
    have hpos : sb.boot.indexSize ≠ 0 := by
      have := h.index_ge
      rw [BYTES_PER_SECTOR] at this
      omega
    refine (Ensures.div hpos).bind fun blocks _ => ?_
    refine ensures_listEntries hvalue _ ?_
    rintro _ ⟨⟩
    exact ensures_readIndexBlock h runs

end Safe

end Bedrock.Ntfs
