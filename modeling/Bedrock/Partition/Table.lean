import Bedrock.Block.Device
import Bedrock.Block.Sectors
import Bedrock.Caps.Cap
import Bedrock.Lib.Bytes
import Bedrock.Lib.Outcome

/-!
# Partition/Table — partitions of a device

The first sector has four primary partitions.  One of them may be an extended one, in which a chain
of boot records has the logical partitions; each link is counted from the start of the extended
partition, each logical partition from its own boot record.

    MBR --▸ 1, 2, 3, 4        EBR --▸ 5, EBR --▸ 6, EBR --▸ …        GPT --▸ 1, 2, 3, …

A GPT has a table of its own, with a copy at the end of the device.  What is read is checked against
the size of the device, logical partitions against the extended one, and all that are no containers
against each other.
-/

namespace Bedrock.Partition

open Outcome Block List Nat

def SECTOR_SIZE : ℕ := 512
def MAX_EBR_CHAIN : ℕ := 100

structure PartitionInfo where
  number : ℕ
  startLba : ℕ
  endLba : ℕ
  sizeSectors : ℕ
  partitionType : Option UInt8
  guidType : Option (List UInt8)
  guidUnique : Option (List UInt8)
  name : Option Str
  isExtended : Bool
  deriving DecidableEq

inductive PartitionTable
  | mbr (partitions : List PartitionInfo)
  | gpt (partitions : List PartitionInfo)
  deriving DecidableEq

def PartitionTable.partitions : PartitionTable → List PartitionInfo
  | mbr p => p
  | gpt p => p

/-- `read_sector` and `read_sectors`; the text tells the two apart. -/
def readSectors (dev : SectorDevice) (lba count : ℕ) (text : String) :
    Outcome String (List UInt8) :=
  ofOption text (dev.read lba count)

/-- `checked_add`. -/
def checkedAdd (a b : ℕ) (text : String) : Outcome String ℕ := do
  failIf (2 ^ 64 ≤ a + b) text
  pure (a + b)

/-! ## MBR -/

/-- The fields of an `MbrEntry` that are read. -/
structure MbrEntry where
  partitionType : UInt8
  lbaStart : ℕ
  sectorCount : ℕ

def mbrEntryAt (sector : List UInt8) (offset : ℕ) : MbrEntry :=
  ⟨sector.getD (offset + 4) 0, natAt 4 sector (offset + 8), natAt 4 sector (offset + 12)⟩

/-- The signature at the end of a boot record. -/
def hasSignature (sector : List UInt8) : Bool :=
  sector.getD 510 0 = 0x55 ∧ sector.getD 511 0 = 0xAA

/-- A partition of an MBR, from its first sector to the one behind its last. -/
def mbrPartition (number start size : ℕ) (typ : UInt8) (isExtended : Bool) : PartitionInfo :=
  ⟨number, start, start + size - 1, size, some typ, none, none, none, isExtended⟩

/-- What the loop over the primary partitions carries along: the partitions, and the extent of the
extended one, if there is one. -/
abbrev Primaries := List PartitionInfo × Option (ℕ × ℕ)

/-- One round of the loop over the primary partitions. -/
def addPrimary (devSectors : ℕ) (sector : List UInt8) (acc : Primaries) (i : ℕ) :
    Outcome String Primaries :=
  let entry := mbrEntryAt sector (0x1BE + i * 16)
  let typ := entry.partitionType
  if typ = 0 ∨ typ = 0xEE ∨ entry.sectorCount = 0 then pure acc
  else do
    let endExcl ← checkedAdd entry.lbaStart entry.sectorCount "partition range overflow"
    failIf (devSectors < endExcl) "partition extends beyond device"
    let isExt : Bool := typ = 0x05 ∨ typ = 0x0F
    pure (acc.1 ++ [mbrPartition (i + 1) entry.lbaStart entry.sectorCount typ isExt],
      if isExt then some (entry.lbaStart, endExcl) else acc.2)

/-- The logical partition of a boot record, if it has one. -/
def logicalAt (devSectors extLimit ebrLba number : ℕ) (ebr : List UInt8) :
    Outcome String (List PartitionInfo) :=
  let entry := mbrEntryAt ebr 0x1BE
  if entry.partitionType = 0 ∨ entry.sectorCount = 0 then pure []
  else do
    let absLba ← checkedAdd ebrLba entry.lbaStart "EBR chain overflow"
    let endExcl ← checkedAdd absLba entry.sectorCount "partition range overflow"
    failIf (devSectors < endExcl) "logical partition extends beyond device"
    failIf (extLimit < endExcl) "logical partition outside extended extent"
    pure [mbrPartition number absLba entry.sectorCount entry.partitionType false]

/-- The chain of boot records, with so many links at most. -/
def ebrChain (dev : SectorDevice) (extBase extLimit : ℕ) :
    ℕ → ℕ → ℕ → Outcome String (List PartitionInfo)
  | 0, _, _ => pure []
  | links + 1, ebrLba, number => do
    let ebr ← readSectors dev ebrLba 1 "sector read error"
    if hasSignature ebr = false then pure []
    else do
      let logical ← logicalAt dev.sectorCount extLimit ebrLba number ebr
      let next := mbrEntryAt ebr 0x1CE
      if next.partitionType = 0 ∨ next.lbaStart = 0 then pure logical
      else do
        let nextLba ← checkedAdd extBase next.lbaStart "EBR chain overflow"
        let rest ← ebrChain dev extBase extLimit links nextLba (number + logical.length)
        pure (logical ++ rest)

/-- `mbr::parse`. -/
def mbrParse (dev : SectorDevice) (sector : List UInt8) : Outcome String (List PartitionInfo) := do
  let primaries ← [0, 1, 2, 3].foldlM (addPrimary dev.sectorCount sector) ([], none)
  match primaries.2 with
  | none => pure primaries.1
  | some (extBase, extLimit) => do
    let logicals ← ebrChain dev extBase extLimit MAX_EBR_CHAIN extBase 5
    pure (primaries.1 ++ logicals)

/-! ## GPT -/

/-- `crc32`, one byte. -/
def crcByte (crc : BitVec 32) (byte : UInt8) : BitVec 32 :=
  (List.range 8).foldl (fun crc _ =>
    if crc &&& 1 ≠ 0 then (crc >>> 1) ^^^ 0xEDB88320#32 else crc >>> 1)
    (crc ^^^ byte.toBitVec.setWidth 32)

/-- `crc32`. -/
def crc32 (buf : List UInt8) : ℕ := (~~~ buf.foldl crcByte 0xFFFFFFFF#32).toNat

/-- `decode_utf16_le`. -/
def decodeUtf16Le : List ℕ → Str
  | [] => []
  | u :: us =>
    if u = 0 then []
    else if 0xD800 ≤ u ∧ u ≤ 0xDBFF then
      match us with
      | w :: ws =>
        if 0xDC00 ≤ w ∧ w ≤ 0xDFFF then
          Char.ofNat (((u - 0xD800) <<< 10) ||| (w - 0xDC00) ||| 0x10000) :: decodeUtf16Le ws
        else '�' :: decodeUtf16Le (w :: ws)
      | [] => ['�']
    else if 0xDC00 ≤ u ∧ u ≤ 0xDFFF then '�' :: decodeUtf16Le us
    else Char.ofNat u :: decodeUtf16Le us

/-- The bytes from a place on. -/
def bytesAt (buf : List UInt8) (offset n : ℕ) : List UInt8 := (buf.drop offset).take n

/-- The partition of an entry at `offset`; an entry without a type is none. -/
def gptEntryAt (devSectors : ℕ) (entries : List UInt8) (offset number : ℕ) :
    Outcome String (List PartitionInfo) :=
  let guidType := bytesAt entries offset 16
  if guidType = List.replicate 16 0 then pure []
  else do
    let startLba := natAt 8 entries (offset + 32)
    let endLba := natAt 8 entries (offset + 40)
    failIf (endLba < startLba) "GPT entry range invalid"
    let sizeSectors ← word (endLba - startLba + 1)
    failIf (devSectors ≤ endLba) "GPT partition extends beyond device"
    let name := decodeUtf16Le ((List.range 36).map fun i => natAt 2 entries (offset + 56 + 2 * i))
    pure [⟨number, startLba, endLba, sizeSectors, none, some guidType,
      some (bytesAt entries (offset + 16) 16), if name = [] then none else some name, false⟩]

/-- The loop over the entries, from number `i` on, so many. -/
def gptEntries (devSectors : ℕ) (entries : List UInt8) (entrySize : ℕ) :
    ℕ → ℕ → Outcome String (List PartitionInfo)
  | 0, _ => pure []
  | n + 1, i =>
    if entries.length < i * entrySize + 128 then pure []
    else do
      let part ← gptEntryAt devSectors entries (i * entrySize) (i + 1)
      let rest ← gptEntries devSectors entries entrySize n (i + 1)
      pure (part ++ rest)

/-- `gpt::parse_at`. -/
def gptParseAt (dev : SectorDevice) (hdrLba : ℕ) : Outcome String (List PartitionInfo) := do
  let buf ← readSectors dev hdrLba 1 "sector read error"
  failIf (bytesAt buf 0 8 ≠ [69, 70, 73, 32, 80, 65, 82, 84]) "GPT signature not found"
  let headerSize := natAt 4 buf 12
  failIf (headerSize < 92 ∨ 512 < headerSize) "GPT header size out of range"
  failIf (natAt 8 buf 24 ≠ hdrLba) "GPT header LBA mismatch"
  let crcBuf := buf.take 16 ++ [0, 0, 0, 0] ++ buf.drop 20
  failIf (crc32 (crcBuf.take headerSize) ≠ natAt 4 buf 16) "GPT header CRC mismatch"
  let entryLba := natAt 8 buf 72
  let numEntries := natAt 4 buf 80
  let entrySize := natAt 4 buf 84
  failIf (entrySize < 128 ∨ 4096 < entrySize) "GPT entry size out of range"
  failIf (numEntries = 0 ∨ 4096 < numEntries) "GPT too many partition entries"
  let totalBytes := numEntries * entrySize
  let sectorCount := (totalBytes + SECTOR_SIZE - 1) / SECTOR_SIZE
  failIf (2 ^ 64 ≤ entryLba + sectorCount ∨ dev.sectorCount < entryLba + sectorCount)
    "GPT entry table out of device range"
  let entries ← readSectors dev entryLba sectorCount "multi-sector read error"
  failIf (crc32 (entries.take totalBytes) ≠ natAt 4 buf 88) "GPT partition entries CRC mismatch"
  gptEntries dev.sectorCount entries entrySize numEntries 0

/-- `gpt::parse`: on an error the copy in the last sector is tried. -/
def gptParse (dev : SectorDevice) : Outcome String (List PartitionInfo) :=
  match gptParseAt dev 1 with
  | .ok parts => pure parts
  | .panic => panic
  | .err primaryErr => do
    failIf (dev.sectorCount = 0) primaryErr
    match gptParseAt dev (dev.sectorCount - 1) with
    | .ok parts => pure parts
    | .panic => panic
    | .err _ => err primaryErr

/-! ## Probing -/

/-- Each of them ends before the next one starts. -/
def checkAdjacent : List PartitionInfo → Outcome String Unit
  | a :: b :: rest => do
    let aEnd ← checkedAdd a.startLba a.sizeSectors "partition range overflow"
    failIf (b.startLba < aEnd) "overlapping partitions"
    checkAdjacent (b :: rest)
  | _ => pure ()

/-- `check_overlaps`. -/
def checkOverlaps (parts : List PartitionInfo) : Outcome String Unit :=
  checkAdjacent ((parts.filter fun p => p.isExtended = false ∧ 0 < p.sizeSectors).insertionSort
    fun p q => p.startLba ≤ q.startLba)

/-- `probe`. -/
def probe (dev : SectorDevice) : Outcome String PartitionTable := do
  let mbr ← readSectors dev 0 1 "sector read error"
  failIf (hasSignature mbr = false) "no valid MBR or GPT signature"
  let hasProtective := [0, 1, 2, 3].any fun i => mbr.getD (0x1BE + i * 16 + 4) 0 = 0xEE
  if hasProtective then
    match gptParse dev with
    | .ok parts => do
      checkOverlaps parts
      pure (.gpt parts)
    | .panic => panic
    | .err gptErr =>
      match mbrParse dev mbr with
      | .ok parts => do
        checkOverlaps parts
        pure (.mbr parts)
      | .panic => panic
      | .err _ => err gptErr
  else do
    let parts ← mbrParse dev mbr
    checkOverlaps parts
    pure (.mbr parts)

/-! ## Requests -/

structure PartitionDevice where
  startLba : ℕ
  sectorCount : ℕ

/-- `PartitionDevice::new`. -/
def PartitionDevice.new (info : PartitionInfo) : PartitionDevice :=
  ⟨info.startLba, info.sizeSectors⟩

/-- A request, moved to the place of the partition. -/
def PartitionDevice.adjust (d : PartitionDevice) (r : IoRequest) : Outcome String IoRequest := do
  let partitionEnd ← checkedAdd d.startLba d.sectorCount "partition range overflow"
  let requestEnd ← checkedAdd r.lba r.count "partition request range overflow"
  failIf (d.sectorCount < requestEnd) "partition LBA out of range"
  let lba ← checkedAdd d.startLba r.lba "partition LBA overflow"
  failIf (partitionEnd ≤ lba ∧ r.count ≠ 0) "partition LBA out of range"
  pure { r with lba }

/-- `submit`: the requests that go to the device under the partition. -/
def PartitionDevice.submit (d : PartitionDevice) : List IoRequest → Outcome String (List IoRequest)
  | [] => pure []
  | r :: reqs => do
    let r ← d.adjust r
    let rest ← d.submit reqs
    pure (r :: rest)

/-! ## What is reported -/

/-- Not empty, and on a device of so many sectors. -/
structure PartitionInfo.Valid (devSectors : ℕ) (p : PartitionInfo) : Prop where
  pos : 0 < p.sizeSectors
  inside : p.startLba + p.sizeSectors ≤ devSectors
  last : p.endLba + 1 = p.startLba + p.sizeSectors

/-- The sector is one of the partition. -/
def PartitionInfo.Has (p : PartitionInfo) (s : ℕ) : Prop :=
  p.startLba ≤ s ∧ s < p.startLba + p.sizeSectors

/-- No sector is in both. -/
def PartitionInfo.Apart (p q : PartitionInfo) : Prop :=
  p.startLba + p.sizeSectors ≤ q.startLba ∨ q.startLba + q.sizeSectors ≤ p.startLba

/-- All sectors of `p` are sectors of `q`. -/
def PartitionInfo.Within (p q : PartitionInfo) : Prop :=
  q.startLba ≤ p.startLba ∧ p.startLba + p.sizeSectors ≤ q.startLba + q.sizeSectors

/-- The partitions of an MBR from number 5 on are the logical ones. -/
def PartitionTable.Logical : PartitionTable → PartitionInfo → Prop
  | mbr _, p => 5 ≤ p.number
  | gpt _, _ => False

/-- **The reported partitions, containers apart, are on the device and apart from each other, and
the logical ones are inside an extended one.** -/
structure PartitionTable.Isolated (t : PartitionTable) (devSectors : ℕ) : Prop where
  valid : ∀ p ∈ t.partitions, p.isExtended = false → p.Valid devSectors
  apart : t.partitions.Pairwise fun p q =>
    p.isExtended = false → q.isExtended = false → p.Apart q
  logical : (∀ p ∈ t.partitions, ¬ t.Logical p) ∨
    ∃ e ∈ t.partitions, e.isExtended = true ∧ ∀ p ∈ t.partitions, t.Logical p → p.Within e

section Parse

variable {dev : SectorDevice} {n : ℕ}

theorem yields_checkedAdd (a b : ℕ) (text : String) : Yields (checkedAdd a b text) (· = a + b) :=
  (Yields.failIf _).bind fun _ _ => Yields.pure rfl

theorem valid_mbrPartition {number start size : ℕ} {typ : UInt8} {ext : Bool} (h : size ≠ 0)
    (hend : start + size ≤ n) : (mbrPartition number start size typ ext).Valid n where
  pos := pos_of_ne_zero h
  inside := hend
  last := by
    change start + size - 1 + 1 = start + size
    omega

/-- The primary partitions, and the extended one among them. -/
structure Primaries.Ok (n : ℕ) (acc : Primaries) : Prop where
  valid : ∀ p ∈ acc.1, p.Valid n ∧ p.number ≤ 4
  extended : ∀ base limit, acc.2 = some (base, limit) →
    ∃ e ∈ acc.1, e.isExtended = true ∧ e.startLba = base ∧ e.startLba + e.sizeSectors = limit

theorem yields_addPrimary (sector : List UInt8) {acc : Primaries} (h : acc.Ok n) {i : ℕ}
    (hi : i < 4) : Yields (addPrimary n sector acc i) (Primaries.Ok n) := by
  refine .ite (fun _ => .pure h) fun hentry => ?_
  simp only [not_or] at hentry
  refine (yields_checkedAdd _ _ _).bind ?_
  rintro _ rfl
  refine (Yields.failIf _).bind fun _ hend => Yields.pure ⟨?_, ?_⟩
  · intro p hp
    obtain hp | hp := mem_append.mp hp
    · exact h.valid p hp
    · obtain rfl := mem_singleton.mp hp
      exact ⟨valid_mbrPartition hentry.2.2 (not_lt.mp hend), hi⟩
  · intro base limit hext
    split at hext
    · rename_i htyp
      cases hext
      exact ⟨_, mem_append_right _ (mem_singleton_self _), htyp, rfl, rfl⟩
    · obtain ⟨e, he, hrest⟩ := h.extended base limit hext
      exact ⟨e, mem_append_left _ he, hrest⟩

/-- A logical partition inside the extent of the extended one. -/
def LogicalIn (n base limit : ℕ) (p : PartitionInfo) : Prop :=
  p.Valid n ∧ p.isExtended = false ∧ base ≤ p.startLba ∧ p.startLba + p.sizeSectors ≤ limit

theorem yields_logicalAt {base limit ebrLba : ℕ} (h : base ≤ ebrLba) (number : ℕ)
    (ebr : List UInt8) :
    Yields (logicalAt n limit ebrLba number ebr) fun ps => ∀ p ∈ ps, LogicalIn n base limit p := by
  refine .ite (fun _ => .pure fun _ h => absurd h not_mem_nil) fun hentry => ?_
  refine (yields_checkedAdd _ _ _).bind ?_
  rintro _ rfl
  refine (yields_checkedAdd _ _ _).bind ?_
  rintro _ rfl
  refine (Yields.failIf _).bind fun _ hdev => (Yields.failIf _).bind fun _ hext => Yields.pure ?_
  intro p hp
  obtain rfl := mem_singleton.mp hp
  exact ⟨valid_mbrPartition (fun h => hentry (.inr h)) (not_lt.mp hdev), rfl,
    le_trans h (le_add_right _ _), not_lt.mp hext⟩

/-- The links are counted from the start of the extended partition, so none leads before it. -/
theorem yields_ebrChain {base limit : ℕ} : ∀ {links ebrLba : ℕ} (number : ℕ), base ≤ ebrLba →
    Yields (ebrChain dev base limit links ebrLba number)
      fun ps => ∀ p ∈ ps, LogicalIn dev.sectorCount base limit p
  | 0, _, _, _ => .pure fun _ h => absurd h not_mem_nil
  | links + 1, ebrLba, number, h => by
    refine (Yields.of_true _).bind fun ebr _ => ?_
    refine Yields.ite (fun _ => Yields.pure fun _ h => absurd h not_mem_nil) fun _ => ?_
    refine (yields_logicalAt h number ebr).bind fun logical hlogical => ?_
    refine .ite (fun _ => .pure hlogical) fun _ => ?_
    refine (yields_checkedAdd _ _ _).bind ?_
    rintro _ rfl
    refine (yields_ebrChain _ (le_add_right _ _)).bind fun rest hrest => .pure ?_
    exact fun p hp => (mem_append.mp hp).elim (hlogical p) (hrest p)

/-- The partitions of an MBR: the primary ones, and logical ones inside one of them. -/
structure MbrOk (n : ℕ) (parts : List PartitionInfo) : Prop where
  valid : ∀ p ∈ parts, p.Valid n
  logical : (∀ p ∈ parts, p.number ≤ 4) ∨
    ∃ e ∈ parts, e.isExtended = true ∧ ∀ p ∈ parts, p.number ≤ 4 ∨ p.Within e

theorem yields_mbrParse (sector : List UInt8) :
    Yields (mbrParse dev sector) (MbrOk dev.sectorCount) := by
  have hstart : Primaries.Ok dev.sectorCount ([], none) :=
    ⟨fun _ h => absurd h not_mem_nil, fun _ _ h => nomatch h⟩
  refine (Yields.foldlM (fun acc i hi hacc => yields_addPrimary sector hacc ?_) hstart).bind
    fun primaries hprim => ?_
  · have hall : ∀ i ∈ [0, 1, 2, 3], i < 4 := by decide
    exact hall i hi
  split
  · exact .pure ⟨fun p hp => (hprim.valid p hp).1, .inl fun p hp => (hprim.valid p hp).2⟩
  · rename_i base limit hext
    obtain ⟨e, he, hee, rfl, rfl⟩ := hprim.extended base limit hext
    refine (yields_ebrChain 5 le_rfl).bind fun logicals hlog => .pure ⟨?_, .inr ?_⟩
    · exact fun p hp => (mem_append.mp hp).elim (fun hp => (hprim.valid p hp).1)
        fun hp => (hlog p hp).1
    · refine ⟨e, mem_append_left _ he, hee, fun p hp => ?_⟩
      exact (mem_append.mp hp).imp (fun hp => (hprim.valid p hp).2)
        fun hp => (hlog p hp).2.2

theorem yields_gptEntries (entries : List UInt8) (entrySize : ℕ) : ∀ (m i : ℕ),
    Yields (gptEntries n entries entrySize m i)
      fun ps => ∀ p ∈ ps, p.Valid n ∧ p.isExtended = false
  | 0, _ => .pure fun _ h => absurd h not_mem_nil
  | m + 1, i => by
    refine .ite (fun _ => .pure fun _ h => absurd h not_mem_nil) fun _ => ?_
    refine .bind (R := fun ps => ∀ p ∈ ps, p.Valid n ∧ p.isExtended = false) ?_
      fun part hpart => ?_
    · refine Yields.ite (fun _ => Yields.pure fun _ h => absurd h not_mem_nil) fun _ => ?_
      refine (Yields.failIf _).bind fun _ hle => ?_
      refine (Yields.word _).bind ?_
      rintro _ rfl
      refine (Yields.failIf _).bind fun _ hdev => Yields.pure fun p hp => ?_
      obtain rfl := mem_singleton.mp hp
      exact ⟨⟨succ_pos _, by dsimp only; omega, by dsimp only; omega⟩, rfl⟩
    · refine (yields_gptEntries entries entrySize m (i + 1)).bind fun rest hrest =>
        Yields.pure fun p hp => ?_
      exact (mem_append.mp hp).elim (hpart p) (hrest p)

theorem yields_gptParseAt (lba : ℕ) : Yields (gptParseAt dev lba)
    fun ps => ∀ p ∈ ps, p.Valid dev.sectorCount ∧ p.isExtended = false := by
  refine (Yields.of_true _).bind fun buf _ => ?_
  iterate 6 refine (Yields.of_true _).bind fun _ _ => ?_
  refine (Yields.of_true _).bind fun _ _ => (Yields.of_true _).bind fun entries _ => ?_
  exact (Yields.of_true _).bind fun _ _ => yields_gptEntries entries _ _ 0

theorem yields_gptParse : Yields (gptParse dev)
    fun ps => ∀ p ∈ ps, p.Valid dev.sectorCount ∧ p.isExtended = false := by
  rw [gptParse]
  split
  · rename_i parts h
    exact .pure (yields_gptParseAt 1 parts h)
  · exact fun _ h => nomatch h
  · refine (Yields.of_true _).bind fun _ _ => ?_
    split
    · rename_i parts h
      exact .pure (yields_gptParseAt _ parts h)
    · exact fun _ h => nomatch h
    · exact .err _

end Parse

/-! ## No two partitions share a sector -/

theorem pairwise_of_checkAdjacent : ∀ {ps : List PartitionInfo}, checkAdjacent ps = ok () →
    ps.Pairwise fun p q => p.startLba + p.sizeSectors ≤ q.startLba
  | [], _ => .nil
  | [_], _ => pairwise_singleton _ _
  | a :: b :: ps, h => by
    have hyield : Yields (checkAdjacent (a :: b :: ps)) fun _ =>
        a.startLba + a.sizeSectors ≤ b.startLba ∧ checkAdjacent (b :: ps) = ok () := by
      refine (yields_checkedAdd _ _ _).bind ?_
      rintro _ rfl
      exact (Yields.failIf _).bind fun _ hle => fun _ hrest => ⟨not_lt.mp hle, hrest⟩
    obtain ⟨hab, hrest⟩ := hyield () h
    have hpair := pairwise_of_checkAdjacent hrest
    refine pairwise_cons.mpr ⟨fun q hq => ?_, hpair⟩
    obtain rfl | hq := mem_cons.mp hq
    · exact hab
    · have := (pairwise_cons.mp hpair).1 q hq
      omega

/-- **What passes the check is pairwise apart**: the order by first sectors makes neighbours speak
for all. -/
theorem apart_of_checkOverlaps {ps : List PartitionInfo} (h : checkOverlaps ps = ok ()) :
    ps.Pairwise fun p q => p.isExtended = false ∧ 0 < p.sizeSectors →
      q.isExtended = false ∧ 0 < q.sizeSectors → p.Apart q := by
  have hsorted := (pairwise_of_checkAdjacent h).imp fun {p q} hpq => (.inl hpq : p.Apart q)
  have hsymm : ∀ {p q : PartitionInfo}, p.Apart q → q.Apart p := fun h => h.symm
  have hfilter := ((perm_insertionSort _ _).pairwise_iff hsymm).mp hsorted
  refine (pairwise_filter.mp hfilter).imp fun {p q} hpq hp hq => ?_
  exact hpq (by simpa using hp) (by simpa using hq)

theorem isolated_mbr {n : ℕ} {parts : List PartitionInfo} (h : MbrOk n parts)
    (ho : checkOverlaps parts = ok ()) : (PartitionTable.mbr parts).Isolated n where
  valid p hp _ := h.valid p hp
  apart := (apart_of_checkOverlaps ho).imp_of_mem fun hp hq hpq hpe hqe =>
    hpq ⟨hpe, (h.valid _ hp).pos⟩ ⟨hqe, (h.valid _ hq).pos⟩
  logical := by
    refine h.logical.imp (fun hall p hp hlog => ?_) ?_
    · have := hall p hp
      have : 5 ≤ p.number := hlog
      omega
    · rintro ⟨e, he, hee, hall⟩
      refine ⟨e, he, hee, fun p hp hlog => (hall p hp).resolve_left ?_⟩
      have : 5 ≤ p.number := hlog
      omega

theorem isolated_gpt {n : ℕ} {parts : List PartitionInfo}
    (h : ∀ p ∈ parts, p.Valid n ∧ p.isExtended = false) (ho : checkOverlaps parts = ok ()) :
    (PartitionTable.gpt parts).Isolated n where
  valid p hp _ := (h p hp).1
  apart := (apart_of_checkOverlaps ho).imp_of_mem fun hp hq hpq hpe hqe =>
    hpq ⟨hpe, (h _ hp).1.pos⟩ ⟨hqe, (h _ hq).1.pos⟩
  logical := .inl fun _ _ h => h

theorem yields_probe (dev : SectorDevice) :
    Yields (probe dev) fun t => t.Isolated dev.sectorCount := by
  have hmbr : ∀ parts, MbrOk dev.sectorCount parts →
      Yields (checkOverlaps parts >>= fun _ => pure (PartitionTable.mbr parts))
        fun t => t.Isolated dev.sectorCount := fun parts hparts =>
    Yields.bind (R := fun _ => checkOverlaps parts = ok ()) (fun _ h => h)
      fun _ ho => .pure (isolated_mbr hparts ho)
  refine (Yields.of_true _).bind fun mbr _ => (Yields.of_true _).bind fun _ _ => ?_
  refine Yields.ite (fun _ => ?_) fun _ => ?_
  · split
    · rename_i parts hparts
      exact .bind (R := fun _ => checkOverlaps parts = ok ()) (fun _ h => h)
        fun _ ho => .pure (isolated_gpt (yields_gptParse parts hparts) ho)
    · exact fun _ h => nomatch h
    · split
      · rename_i parts hparts
        exact hmbr parts (yields_mbrParse mbr parts hparts)
      · exact fun _ h => nomatch h
      · exact .err _
  · exact (yields_mbrParse mbr).bind hmbr

/-! ## Requests stay inside -/

/-- The sector is one that a request moves, in either direction. -/
def Reaches (r : IoRequest) (s : ℕ) : Prop := r.lba ≤ s ∧ s < r.lba + r.count

theorem yields_adjust (d : PartitionDevice) (r : IoRequest) :
    Yields (d.adjust r) fun r' => ∀ s, Reaches r' s →
      d.startLba ≤ s ∧ s < d.startLba + d.sectorCount := by
  refine (Yields.of_true _).bind fun _ _ => ?_
  refine (yields_checkedAdd _ _ _).bind ?_
  rintro _ rfl
  refine (Yields.failIf _).bind fun _ hend => ?_
  refine (yields_checkedAdd _ _ _).bind ?_
  rintro _ rfl
  refine (Yields.failIf _).bind fun _ _ => Yields.pure fun s hs => ?_
  obtain ⟨hlo, hhi⟩ : d.startLba + r.lba ≤ s ∧ s < d.startLba + r.lba + r.count := hs
  omega

theorem yields_submit (d : PartitionDevice) : ∀ reqs : List IoRequest,
    Yields (d.submit reqs) fun fwd => ∀ r ∈ fwd, ∀ s, Reaches r s →
      d.startLba ≤ s ∧ s < d.startLba + d.sectorCount
  | [] => .pure fun _ h => absurd h not_mem_nil
  | r :: reqs => by
    refine (yields_adjust d r).bind fun r' hr' => ?_
    refine (yields_submit d reqs).bind fun rest hrest => .pure ?_
    exact forall_mem_cons.mpr ⟨hr', hrest⟩

/-- Some list of requests to the partition, as it is passed on, reaches the sector. -/
def PartitionInfo.Touches (p : PartitionInfo) (s : ℕ) : Prop :=
  ∃ reqs fwd, (PartitionDevice.new p).submit reqs = ok fwd ∧ ∃ r ∈ fwd, Reaches r s

/-- **Requests to a partition reach its own sectors only; the partitions that probing reports are
isolated; and so no two of them, containers apart, reach the same sector.** -/
theorem probe_isolates (dev : SectorDevice) :
    (∀ (p : PartitionInfo) (s : ℕ), p.Touches s → p.Has s) ∧
    ∀ t, probe dev = ok t → t.Isolated dev.sectorCount ∧
      t.partitions.Pairwise fun p q => p.isExtended = false → q.isExtended = false →
        ∀ s, ¬ (p.Touches s ∧ q.Touches s) := by
  have hhas : ∀ (p : PartitionInfo) (s : ℕ), p.Touches s → p.Has s := by
    rintro p s ⟨reqs, fwd, hfwd, r, hr, hs⟩
    exact yields_submit _ reqs fwd hfwd r hr s hs
  refine ⟨hhas, fun t ht => ?_⟩
  have hiso := yields_probe dev t ht
  refine ⟨hiso, hiso.apart.imp fun hpq hp hq s => ?_⟩
  rintro ⟨hps, hqs⟩
  obtain ⟨hp₁, hp₂⟩ := hhas _ s hps
  obtain ⟨hq₁, hq₂⟩ := hhas _ s hqs
  obtain h | h := hpq hp hq
  · omega
  · omega

/-- An entry of a boot record, for small numbers. -/
def entryOf (typ start size : UInt8) : List UInt8 :=
  [0, 0, 0, 0, typ, 0, 0, 0, start, 0, 0, 0, size, 0, 0, 0]

/-- One primary partition, and an extended one with two logical partitions. -/
def fourPartitions : SectorDevice :=
  deviceOf
    [[(0x1BE, entryOf 0x0C 4 3 ++ entryOf 0x05 8 8), (510, [0x55, 0xAA])],
     [], [], [], [], [], [], [],
     [(0x1BE, entryOf 0x83 1 2 ++ entryOf 0x05 4 4), (510, [0x55, 0xAA])], [], [], [],
     [(0x1BE, entryOf 0x83 1 3), (510, [0x55, 0xAA])], [], [], []]

theorem probe_isolates_four :
    (PartitionTable.mbr [mbrPartition 1 4 3 0x0C false, mbrPartition 2 8 8 0x05 true,
      mbrPartition 5 9 2 0x83 false, mbrPartition 6 13 3 0x83 false]).Isolated 16 :=
  ((probe_isolates fourPartitions).2 _ (by decide +kernel)).1

end Bedrock.Partition
