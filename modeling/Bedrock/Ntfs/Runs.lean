import Bedrock.Block.Sectors
import Bedrock.Ntfs.Record

/-!
# Ntfs/Runs — the boot sector and the clusters of a file

The bytes of a file are found by the runs of its attribute: so many clusters of the file, from one
on, are so many clusters of the volume, or a hole.

    boot sector --▸ sizes          mapping pairs --▸ runs          offset --find--▸ run --▸ sectors
-/

namespace Bedrock.Ntfs

open Outcome Wire

/-- At most so many bytes in one transfer. -/
def MAX_READ_BYTES : ℕ := 252 * 1024
def MAX_RUNS : ℕ := 1000000

/-- `read_sectors`. -/
def readSectors (dev : SectorDevice) (lba count : ℕ) : Outcome VfsError (List UInt8) :=
  ofOption .ioError (dev.read lba count)

/-! ## The boot sector -/

structure BootSector where
  totalSectors : ℕ
  mftLcn : ℕ
  sectorsPerCluster : ℕ
  bytesPerSector : ℕ
  recordSize : ℕ
  indexSize : ℕ
  maxRecords : ℕ
  deriving DecidableEq

/-- `is_power_of_two`. -/
def isPowerOfTwo (n : ℕ) : Bool := n ≠ 0 ∧ n &&& (n - 1) = 0

/-- `as i8`. -/
def asI8 (b : UInt8) : ℤ := if b.toNat < 128 then b.toNat else b.toNat - 256

/-- `unit_size`. -/
def unitSize (value : ℤ) (clusterSize : ℕ) : Outcome VfsError ℕ :=
  if 0 < value then do
    failIf (2 ^ 64 ≤ clusterSize * value.toNat) .invalidInput
    pure (clusterSize * value.toNat)
  else if value < 0 then do
    failIf (16 < (-value).toNat) .invalidInput
    pure (2 ^ (-value).toNat)
  else err .invalidInput

/-- The checks on the size of a record or of an index block. -/
def checkUnit (size bytesPerSector : ℕ) : Outcome VfsError Unit :=
  failIf (size < BYTES_PER_SECTOR ∨ 65536 < size ∨ isPowerOfTwo size = false ∨
    size % bytesPerSector ≠ 0) .invalidInput

/-- `BootSector::parse`. -/
def BootSector.parse (dev : SectorDevice) : Outcome VfsError BootSector := do
  let sector ← readSectors dev 0 1
  let oem ← slice sector 0x03 0x0B
  failIf (oem ≠ [78, 84, 70, 83, 32, 32, 32, 32]) .invalidDevice
  let bytesPerSector := natAt 2 sector 0x0B
  failIf (bytesPerSector ≠ BYTES_PER_SECTOR) .invalidInput
  let sectorsPerCluster := natAt 1 sector 0x0D
  failIf (sectorsPerCluster = 0 ∨ isPowerOfTwo sectorsPerCluster = false ∨
    128 < sectorsPerCluster) .invalidInput
  let totalSectors := natAt 8 sector 0x28
  failIf (totalSectors = 0 ∨ dev.sectorCount < totalSectors) .invalidInput
  let mftLcn := natAt 8 sector 0x30
  failIf (2 ^ 64 ≤ mftLcn * sectorsPerCluster ∨ totalSectors ≤ mftLcn * sectorsPerCluster)
    .invalidInput
  let clusterSize ← word (bytesPerSector * sectorsPerCluster)
  let perRecord ← Outcome.index sector 0x40
  let recordSize ← unitSize (asI8 perRecord) clusterSize
  checkUnit recordSize bytesPerSector
  let perIndex ← Outcome.index sector 0x44
  let indexSize ← unitSize (asI8 perIndex) clusterSize
  checkUnit indexSize bytesPerSector
  let maxRecords := min (totalSectors * bytesPerSector) (2 ^ 64 - 1) / recordSize
  failIf (maxRecords = 0) .invalidInput
  pure ⟨totalSectors, mftLcn, sectorsPerCluster, bytesPerSector, recordSize, indexSize, maxRecords⟩

/-- `BootSector::cluster_size`. -/
def BootSector.clusterSize (boot : BootSector) : Outcome VfsError ℕ :=
  word (boot.bytesPerSector * boot.sectorsPerCluster)

/-! ## Runs -/

/-- So many clusters of a file from `vcn` on are those of the volume from `lcn` on; a negative `lcn`
is a hole. -/
structure Run where
  vcn : ℕ
  lcn : ℤ
  len : ℕ
  deriving DecidableEq

/-- `RunList`, in the order of the clusters of the file. -/
abbrev RunList := List Run

/-- `RunList::find`. -/
def RunList.find (runs : RunList) (offset clusterSize : ℕ) : Outcome VfsError (Option Run) := do
  let vcn ← div offset clusterSize
  -- `partition_point` on runs in order
  let idx := (runs.takeWhile (·.vcn ≤ vcn)).length
  if idx = 0 then pure none
  else do
    let r ← Outcome.index runs (idx - 1)
    pure (if vcn < min (r.vcn + r.len) (2 ^ 64 - 1) then some r else none)

/-- The number of bytes, read as a signed one. -/
def signedOf (bytes : List UInt8) : ℤ :=
  if 2 * leNat bytes < 256 ^ bytes.length then leNat bytes
  else (leNat bytes : ℤ) - 256 ^ bytes.length

/-- `checked_add` on `i64`. -/
def addI64 (a b : ℤ) : Outcome VfsError ℤ := do
  failIf (a + b < -2 ^ 63 ∨ 2 ^ 63 ≤ a + b) .ioError
  pure (a + b)

/-- The loop of `decode_mapping_pairs` from `pos` on, with so many runs behind it.  Each pair takes
two bytes at least, so the loop has ended before the fuel has. -/
def decodeFrom (data : List UInt8) (baseVcn : ℕ) : ℕ → ℕ → ℕ → ℤ → ℤ → Outcome VfsError RunList
  | 0, _, _, _, _ => panic
  | fuel + 1, pos, count, vcn, lcn => do
    failIf (MAX_RUNS ≤ count) .ioError
    let hdr ← ofOption .ioError data[pos]?
    if hdr = 0 then pure []
    else do
      let pos := pos + 1
      let lenLen := hdr.toNat % 16
      let offLen := hdr.toNat / 16
      failIf (lenLen = 0 ∨ 8 < lenLen ∨ 8 < offLen) .ioError
      let next ← word (pos + lenLen + offLen)
      failIf (data.length < next) .ioError
      let lenBytes ← slice data pos (pos + lenLen)
      let length := leNat lenBytes
      failIf (length = 0 ∨ 2 ^ 63 ≤ length) .ioError
      let offBytes ← slice data (pos + lenLen) next
      let lcn ← (if offLen = 0 then pure lcn else addI64 lcn (signedOf offBytes))
      failIf (2 ^ 64 ≤ baseVcn + vcn.toNat) .ioError
      let run : Run := ⟨baseVcn + vcn.toNat, if offLen = 0 then -1 else lcn, length⟩
      let vcn ← addI64 vcn length
      let rest ← decodeFrom data baseVcn fuel next (count + 1) vcn lcn
      pure (run :: rest)

/-- `decode_mapping_pairs`. -/
def decodeMappingPairs (data : List UInt8) (baseVcn : ℕ) : Outcome VfsError RunList :=
  decodeFrom data baseVcn (data.length + 1) 0 0 0 0

/-! ## Reading -/

/-- The bytes of a run, from one on: zeros in a hole, and otherwise those of the device. -/
def readRun (dev : SectorDevice) (boot : BootSector) (run : Run) (inRun want : ℕ) :
    Outcome VfsError (List UInt8) :=
  if run.lcn < 0 then pure (List.replicate want 0)
  else do
    let skip ← div inRun boot.bytesPerSector
    let first := run.lcn.toNat * boot.sectorsPerCluster
    failIf (2 ^ 63 ≤ first ∨ 2 ^ 63 ≤ first + skip) .ioError
    let lba := first + skip
    let sectorOff := inRun % boot.bytesPerSector
    let total ← word (sectorOff + want)
    let secs := (total + boot.bytesPerSector - 1) / boot.bytesPerSector
    failIf (boot.totalSectors ≤ lba ∨ boot.totalSectors - lba < secs) .ioError
    let _ ← word (secs * boot.bytesPerSector)
    let tmp ← readSectors dev lba secs
    slice tmp sectorOff total

/-- The loop of `read_file_at`: so many bytes are wanted from `pos` on.  Each round reads one at
least, so the loop has ended before the fuel has. -/
def readFileFrom (dev : SectorDevice) (boot : BootSector) (runs : RunList) (clusterSize : ℕ) :
    ℕ → ℕ → ℕ → Outcome VfsError (List UInt8)
  | 0, _, left => if left = 0 then pure [] else panic
  | fuel + 1, pos, left =>
    if left = 0 then pure []
    else do
      let found ← runs.find pos clusterSize
      match found with
      | none => pure []
      | some run => do
        let runStart := run.vcn * clusterSize
        failIf (2 ^ 64 ≤ runStart) .ioError
        failIf (pos < runStart) .ioError
        let inRun := pos - runStart
        failIf (2 ^ 64 ≤ run.len * clusterSize) .ioError
        let avail := run.len * clusterSize - inRun
        let want := min (min avail left) MAX_READ_BYTES
        let bytes ← readRun dev boot run inRun want
        failIf (2 ^ 64 ≤ pos + want) .ioError
        let left ← sub left want
        let rest ← readFileFrom dev boot runs clusterSize fuel (pos + want) left
        pure (bytes ++ rest)

/-- `read_file_at`: the bytes that were read, as many as were wanted or fewer. -/
def readFileAt (dev : SectorDevice) (boot : BootSector) (runs : RunList) (offset want : ℕ) :
    Outcome VfsError (List UInt8) := do
  let clusterSize ← boot.clusterSize
  readFileFrom dev boot runs clusterSize want offset want

/-! ## No panic -/

/-- What the checks on the boot sector leave. -/
structure BootSector.Ok (boot : BootSector) : Prop where
  bytes : boot.bytesPerSector = BYTES_PER_SECTOR
  cluster_pos : 0 < boot.sectorsPerCluster
  cluster_le : boot.sectorsPerCluster ≤ 128
  record_ge : BYTES_PER_SECTOR ≤ boot.recordSize
  record_le : boot.recordSize ≤ 65536
  record_mod : boot.recordSize % BYTES_PER_SECTOR = 0
  index_ge : BYTES_PER_SECTOR ≤ boot.indexSize
  index_le : boot.indexSize ≤ 65536
  mft_lt : boot.mftLcn * boot.sectorsPerCluster < 2 ^ 64

theorem ensures_readSectors (dev : SectorDevice) (lba count : ℕ) :
    Ensures (readSectors dev lba count) fun bs => bs.length = count * BYTES_PER_SECTOR :=
  (Ensures.ofOption _ _).mono fun _ h => dev.length_read h

theorem ensures_unitSize (value : ℤ) (clusterSize : ℕ) :
    Ensures (unitSize value clusterSize) fun _ => True := by
  refine .ite (fun _ => ?_) fun _ => .ite (fun _ => ?_) fun _ => .err _
  · exact .guard fun _ => .pure trivial
  · exact .guard fun _ => .pure trivial

theorem ensures_checkUnit (size : ℕ) :
    Ensures (checkUnit size BYTES_PER_SECTOR) fun _ => BYTES_PER_SECTOR ≤ size ∧ size ≤ 65536 ∧
      size % BYTES_PER_SECTOR = 0 :=
  (Ensures.failIf _).mono fun _ h => by
    simp only [not_or, not_lt, not_not] at h
    exact ⟨h.1, h.2.1, h.2.2.2⟩

theorem ensures_parse (dev : SectorDevice) : Ensures (BootSector.parse dev) BootSector.Ok := by
  refine (ensures_readSectors dev 0 1).bind fun sector hlen => ?_
  refine (Ensures.slice (by decide) (by rw [hlen]; decide)).bind fun _ _ => ?_
  refine .guard fun _ => ?_
  refine .guard fun hbytes => ?_
  have hbytes := not_not.mp hbytes
  refine .guard fun hcluster => ?_
  refine .guard fun _ => ?_
  refine .guard fun hmft => ?_
  have hcs : natAt 2 sector 0x0B * natAt 1 sector 0x0D < 2 ^ 64 :=
    lt_of_lt_of_le (Nat.mul_lt_mul'' (natAt_lt 2 sector _) (natAt_lt 1 sector _)) (by decide)
  refine (Ensures.word hcs).bind fun clusterSize _ => ?_
  refine (Ensures.index (by rw [hlen]; decide)).bind fun _ _ => ?_
  refine (ensures_unitSize _ _).bind fun recordSize _ => ?_
  rw [hbytes]
  refine (ensures_checkUnit recordSize).bind fun _ hrecord => ?_
  refine (Ensures.index (by rw [hlen]; decide)).bind fun _ _ => ?_
  refine (ensures_unitSize _ _).bind fun indexSize _ => ?_
  refine (ensures_checkUnit indexSize).bind fun _ hindex => ?_
  refine .guard fun _ => ?_
  simp only [not_or, not_lt, not_le] at hcluster hmft
  exact .pure
    { bytes := rfl
      cluster_pos := Nat.pos_of_ne_zero hcluster.1
      cluster_le := hcluster.2.2
      record_ge := hrecord.1
      record_le := hrecord.2.1
      record_mod := hrecord.2.2
      index_ge := hindex.1
      index_le := hindex.2.1
      mft_lt := hmft.1 }

variable {dev : SectorDevice} {boot : BootSector} {runs : RunList} {data : List UInt8}

theorem BootSector.Ok.ensures_clusterSize (h : boot.Ok) :
    Ensures boot.clusterSize fun c => 0 < c := by
  have hpos := h.cluster_pos
  have hle := h.cluster_le
  rw [BootSector.clusterSize, h.bytes, BYTES_PER_SECTOR]
  refine (Ensures.word (by omega)).mono ?_
  omega

/-- A run that is found reaches behind the byte that is looked for. -/
theorem ensures_find (runs : RunList) (offset : ℕ) {clusterSize : ℕ} (h : 0 < clusterSize) :
    Ensures (runs.find offset clusterSize) fun found =>
      ∀ r, found = some r → offset < (r.vcn + r.len) * clusterSize := by
  refine (Ensures.div h.ne').bind ?_
  rintro _ rfl
  refine Ensures.ite (fun _ => Ensures.pure fun _ h => nomatch h) fun hidx => ?_
  have hlen := List.Sublist.length_le (List.takeWhile_sublist (l := runs)
    fun r => decide (r.vcn ≤ offset / clusterSize))
  refine (Ensures.index (by omega)).bind fun r _ => Ensures.pure fun r' hr' => ?_
  split at hr'
  · cases hr'
    exact (Nat.div_lt_iff_lt_mul h).mp (by omega)
  · exact nomatch hr'

theorem ensures_addI64 (a b : ℤ) : Ensures (addI64 a b) fun _ => True :=
  Ensures.guard fun _ => .pure trivial

theorem ensures_decodeFrom (hd : data.length < 2 ^ 63) (base : ℕ) :
    ∀ {fuel pos count : ℕ} {vcn lcn : ℤ}, data.length < fuel + pos → pos ≤ data.length →
      Ensures (decodeFrom data base fuel pos count vcn lcn) fun _ => True
  | 0, pos, _, _, _, hf, hp => by omega
  | fuel + 1, pos, count, vcn, lcn, hf, hp => by
    refine Ensures.guard fun _ => ?_
    refine (Ensures.ofOption _ _).bind fun hdr _ => ?_
    refine Ensures.ite (fun _ => Ensures.pure trivial) fun _ => ?_
    refine Ensures.guard fun hlens => ?_
    refine (Ensures.word (by omega)).bind ?_
    rintro _ rfl
    refine Ensures.guard fun hnext => ?_
    refine (Ensures.slice (by omega) (by omega)).bind fun _ _ => ?_
    refine Ensures.guard fun _ => ?_
    refine (Ensures.slice (by omega) (by omega)).bind fun _ _ => ?_
    refine .bind (R := fun _ => True) ?_ fun _ _ => ?_
    · exact .ite (fun _ => .pure trivial) fun _ => ensures_addI64 _ _
    refine .guard fun _ => ?_
    refine (ensures_addI64 _ _).bind fun _ _ => ?_
    exact (ensures_decodeFrom hd base (by omega) (by omega)).bind
      fun _ _ => .pure trivial

theorem ensures_decodeMappingPairs (hd : data.length < 2 ^ 63) (base : ℕ) :
    Ensures (decodeMappingPairs data base) fun _ => True :=
  ensures_decodeFrom hd base (by omega) (Nat.zero_le _)

theorem BootSector.Ok.ensures_readRun (h : boot.Ok) (run : Run) (inRun : ℕ) {want : ℕ}
    (hw : want ≤ MAX_READ_BYTES) :
    Ensures (readRun dev boot run inRun want) fun bs => bs.length = want := by
  rw [MAX_READ_BYTES] at hw
  rw [readRun, h.bytes, BYTES_PER_SECTOR]
  refine Ensures.ite (fun _ => Ensures.pure List.length_replicate) fun _ => ?_
  refine (Ensures.div (by decide)).bind ?_
  rintro _ rfl
  refine Ensures.guard fun _ => ?_
  refine (Ensures.word (by omega)).bind ?_
  rintro _ rfl
  refine Ensures.guard fun _ => ?_
  refine (Ensures.word (by omega)).bind fun _ _ => ?_
  refine (ensures_readSectors dev _ _).bind fun tmp htmp => ?_
  rw [BYTES_PER_SECTOR] at htmp
  refine (Ensures.slice (by omega) (by omega)).mono fun _ hs => ?_
  rw [hs.2, Nat.add_sub_cancel_left]

theorem BootSector.Ok.ensures_readFileFrom (h : boot.Ok) {clusterSize : ℕ} (hc : 0 < clusterSize) :
    ∀ {fuel pos left : ℕ}, left ≤ fuel →
      Ensures (readFileFrom dev boot runs clusterSize fuel pos left) fun bs => bs.length ≤ left
  | 0, _, left, hl => by
    rw [readFileFrom, if_pos (Nat.le_zero.mp hl)]
    exact .pure (Nat.zero_le _)
  | fuel + 1, pos, left, hl => by
    refine .ite (fun _ => .pure (Nat.zero_le _)) fun hleft => ?_
    refine (ensures_find runs pos hc).bind fun found hfound => ?_
    cases found with
    | none => exact .pure (Nat.zero_le _)
    | some run =>
      have hend := hfound run rfl
      rw [Nat.add_mul] at hend
      refine .guard fun _ => ?_
      refine .guard fun _ => ?_
      refine .guard fun _ => ?_
      refine (h.ensures_readRun run _ (min_le_right _ _)).bind fun bytes hbytes => ?_
      refine Ensures.guard fun _ => ?_
      refine (Ensures.sub (by omega)).bind ?_
      rintro _ rfl
      -- the run reaches behind `pos`, so that the round reads something
      have hwant : 0 < min (min (run.len * clusterSize - (pos - run.vcn * clusterSize)) left)
          MAX_READ_BYTES := by
        rw [MAX_READ_BYTES]
        omega
      refine (h.ensures_readFileFrom hc (by omega)).bind fun rest hrest => .pure ?_
      rw [List.length_append]
      omega

/-- **Reading a file does not panic, and gives no more than is wanted.** -/
theorem BootSector.Ok.ensures_readFileAt (h : boot.Ok) (offset want : ℕ) :
    Ensures (readFileAt dev boot runs offset want) fun bs => bs.length ≤ want :=
  h.ensures_clusterSize.bind fun _ hc => h.ensures_readFileFrom hc le_rfl

end Bedrock.Ntfs
