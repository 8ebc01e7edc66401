import Bedrock.Caps.Cap
import Bedrock.Lib.Wire
import Bedrock.Mm.PhysAlloc

/-!
# Fat32/Bpb — the boot sector and the geometry it describes

`parseBpb` reads the fields of the first sector and refuses a volume that does not fit its device.
What it accepts is laid out as

    0 ┄┄ rsvd --- FAT 0 --- FAT 1 --- ⋯ ---┃ cluster 2 -- cluster 3 -- ⋯      ┄ sectorCount
                  └fatSz32┘                 firstDataSec

Two things about it are never checked: that a copy of the FAT has room for the entries of all the
clusters, and that the copy named active exists.  On the accepted volumes where both hold, and on
no others, every address computed from a cluster stays where it belongs (`parseBpb_safe_iff`).
-/

namespace Bedrock.Fat32

open Wire (leNat leNat_lt)
open BitmapAllocator (isPowerOfTwo)

def SECTOR_SIZE : ℕ := 512

/-- The number in the `k` bytes at `o`, the lowest first. -/
def leAt (b : ℕ → UInt8) (o k : ℕ) : ℕ := leNat ((List.range k).map fun i => b (o + i))

theorem leAt_lt (b : ℕ → UInt8) (o k : ℕ) : leAt b o k < 256 ^ k := by
  simpa [leAt] using leNat_lt ((List.range k).map fun i => b (o + i))

structure Bpb where
  bytesPerSec : ℕ
  secPerClus : ℕ
  rsvdSecCnt : ℕ
  numFats : ℕ
  fatSz32 : ℕ
  rootClus : ℕ
  fsinfoSec : ℕ
  bytsPerClus : ℕ
  firstDataSec : ℕ
  totalClus : ℕ
  extFlags : ℕ
  deriving DecidableEq, Repr

/-! ## Parsing -/

/-- The sectors of the volume: the 16-bit field, or the 32-bit one where that is zero. -/
def totalSectors (sector : ℕ → UInt8) : ℕ :=
  if leAt sector 0x13 2 ≠ 0 then leAt sector 0x13 2 else leAt sector 0x20 4

/-- `parse_bpb`, on the bytes of sector 0 of a device with `sectorCount` sectors. -/
def parseBpb (sector : ℕ → UInt8) (sectorCount : ℕ) : Except VfsError Bpb :=
  if sector 510 ≠ 0x55 ∨ sector 511 ≠ 0xAA then .error .invalidDevice
  else
    let bytesPerSec := leAt sector 0x0B 2
    let secPerClus := leAt sector 0x0D 1
    let rsvdSecCnt := leAt sector 0x0E 2
    let numFats := leAt sector 0x10 1
    let rootEntCnt := leAt sector 0x11 2
    let fatSz16 := leAt sector 0x16 2
    let fatSz32 := leAt sector 0x24 4
    let rootClus := leAt sector 0x2C 4
    let fsinfoSec := leAt sector 0x30 2
    if rootEntCnt ≠ 0 ∨ fatSz16 ≠ 0 ∨ fatSz32 = 0 then .error .invalidDevice
    else if bytesPerSec ≠ SECTOR_SIZE then .error .invalidInput
    else if secPerClus = 0 ∨ isPowerOfTwo secPerClus = false ∨ 128 < secPerClus then
      .error .invalidInput
    else if rsvdSecCnt = 0 then .error .invalidInput
    else if numFats = 0 then .error .invalidInput
    else if rootClus < 2 then .error .invalidInput
    else
      let firstDataSec := rsvdSecCnt + numFats * fatSz32
      if totalSectors sector ≤ firstDataSec then .error .invalidInput
      else if sectorCount < totalSectors sector then .error .invalidInput
      else
        let totalClus := (totalSectors sector - firstDataSec) / secPerClus % 2 ^ 32
        if 2 + totalClus ≤ rootClus then .error .invalidInput
        else .ok { bytesPerSec, secPerClus, rsvdSecCnt, numFats, fatSz32, rootClus, fsinfoSec,
                   bytsPerClus := bytesPerSec * secPerClus, firstDataSec, totalClus,
                   extFlags := leAt sector 0x28 2 }

namespace Bpb

variable (b : Bpb)

/-! ## Addresses -/

def clusterToLba (cluster : ℕ) : ℕ := b.firstDataSec + (cluster - 2) * b.secPerClus

/-- The FAT is mirrored unless bit 7 of the flags is set… -/
def mirrored : Bool := b.extFlags &&& 0x80 = 0

/-- …in which case the low bits name the copy in use. -/
def activeFatIdx : ℕ := if b.extFlags &&& 0x80 ≠ 0 then b.extFlags &&& 0x0F else 0

def fatSectorLba (fatNum sectorIdx : ℕ) : ℕ := b.rsvdSecCnt + fatNum * b.fatSz32 + sectorIdx

/-- The sector of the FAT that has the entry of a cluster, and the entry's place in it. -/
def fatEntryPosition (cluster : ℕ) : Except VfsError (ℕ × ℕ) :=
  if cluster < 2 ∨ 2 + b.totalClus ≤ cluster then .error .invalidInput
  else .ok (cluster * 4 / b.bytesPerSec % 2 ^ 32, cluster * 4 % b.bytesPerSec)

/-- Where a flush puts the first sector of a chunk of dirty sectors in the copy `fatNum`. -/
def mirrorStart (fatNum chunkStart : ℕ) : ℕ :=
  b.fatSectorLba 0 0 + fatNum * b.fatSz32 + (chunkStart - b.fatSectorLba 0 0) % b.fatSz32

end Bpb

/-! ## What an accepted volume looks like -/

/-- The volume starts with the reserved sectors and the copies of the FAT, and the rest of it, up to
the end of the device at most, is clusters. -/
structure Accepted (sector : ℕ → UInt8) (sectorCount : ℕ) (b : Bpb) : Prop where
  bytesPerSec : b.bytesPerSec = 512
  secPerClus : b.secPerClus = leAt sector 0x0D 1
  secPerClus_pos : 0 < b.secPerClus
  rsvdSecCnt : b.rsvdSecCnt = leAt sector 0x0E 2
  numFats : b.numFats = leAt sector 0x10 1
  numFats_pos : 0 < b.numFats
  fatSz32 : b.fatSz32 = leAt sector 0x24 4
  fatSz32_pos : 0 < b.fatSz32
  extFlags : b.extFlags = leAt sector 0x28 2
  firstDataSec : b.firstDataSec = b.rsvdSecCnt + b.numFats * b.fatSz32
  totalClus : b.totalClus = (totalSectors sector - b.firstDataSec) / b.secPerClus
  totalClus_pos : 0 < b.totalClus
  fits : b.firstDataSec + b.totalClus * b.secPerClus ≤ sectorCount
  totalClus_lt : b.totalClus + 2 < 2 ^ 32

theorem totalSectors_lt (sector : ℕ → UInt8) : totalSectors sector < 2 ^ 32 := by
  rw [totalSectors]
  split
  · exact (leAt_lt sector 0x13 2).trans (by decide)
  · exact leAt_lt sector 0x20 4

theorem of_guard_ok {ε α : Type*} {p : Prop} [Decidable p] {e : ε} {x : Except ε α} {a : α}
    (h : (if p then .error e else x) = .ok a) : ¬ p ∧ x = .ok a := by
  split_ifs at h
  · exact ⟨‹_›, h⟩

theorem parseBpb_ok {sector : ℕ → UInt8} {sectorCount : ℕ} {b : Bpb}
    (h : parseBpb sector sectorCount = .ok b) : Accepted sector sectorCount b := by
  obtain ⟨-, h⟩ := of_guard_ok h
  obtain ⟨hkind, h⟩ := of_guard_ok h
  obtain ⟨hbytes, h⟩ := of_guard_ok h
  obtain ⟨hspc, h⟩ := of_guard_ok h
  obtain ⟨hrsvd, h⟩ := of_guard_ok h
  obtain ⟨hfats, h⟩ := of_guard_ok h
  obtain ⟨hroot, h⟩ := of_guard_ok h
  obtain ⟨hdata, h⟩ := of_guard_ok h
  obtain ⟨hdev, h⟩ := of_guard_ok h
  obtain ⟨hclus, h⟩ := of_guard_ok h
  have hlt := totalSectors_lt sector
  cases h
  have hfat : 0 < leAt sector 0x24 4 := Nat.pos_of_ne_zero fun h0 => hkind (.inr (.inr h0))
  have hprod := Nat.mul_pos (Nat.pos_of_ne_zero hfats) hfat
  generalize hfirst : leAt sector 0x0E 2 + leAt sector 0x10 1 * leAt sector 0x24 4 = firstDataSec
  rw [hfirst] at hdata hclus
  have hq := Nat.div_le_self (totalSectors sector - firstDataSec) (leAt sector 0x0D 1)
  have hmul := Nat.div_mul_le_self (totalSectors sector - firstDataSec) (leAt sector 0x0D 1)
  have hmod := Nat.mod_eq_of_lt (show (totalSectors sector - firstDataSec) / leAt sector 0x0D 1
    < 2 ^ 32 by omega)
  rw [hmod] at hclus ⊢
  exact {
    bytesPerSec := not_not.mp hbytes
    secPerClus := rfl
    secPerClus_pos := Nat.pos_of_ne_zero fun h0 => hspc (.inl h0)
    rsvdSecCnt := rfl
    numFats := rfl
    numFats_pos := Nat.pos_of_ne_zero hfats
    fatSz32 := rfl
    fatSz32_pos := hfat
    extFlags := rfl
    firstDataSec := hfirst.symm
    totalClus := rfl
    totalClus_pos := by dsimp only; omega
    fits := by dsimp only; omega
    totalClus_lt := by dsimp only; omega }

/-! ## Safe addresses -/

namespace Bpb

variable (b : Bpb)

/-- A sector of the copy `fatNum` of the FAT, and no sector of a cluster. -/
def InCopy (fatNum lba : ℕ) : Prop :=
  b.fatSectorLba fatNum 0 ≤ lba ∧ lba < b.fatSectorLba fatNum b.fatSz32 ∧ lba < b.firstDataSec

/-- The most sectors that a flush writes at once. -/
def PRDT_MAX_SECTORS : ℕ := 504

/-- The sector of the entry of `cluster` in the active copy, and its image in every other copy in
whichever chunk of sectors of entries a flush writes it, lie in the copy meant. -/
def EntrySafe (cluster : ℕ) : Prop :=
  ∃ idx off, b.fatEntryPosition cluster = .ok (idx, off) ∧ off + 4 ≤ b.bytesPerSec ∧
    b.InCopy b.activeFatIdx (b.fatSectorLba b.activeFatIdx idx) ∧
    (b.mirrored → ∀ fatNum, 1 ≤ fatNum → fatNum < b.numFats →
      ∀ cluster' idx' off', b.fatEntryPosition cluster' = .ok (idx', off') → idx' ≤ idx →
        idx < idx' + PRDT_MAX_SECTORS →
        b.InCopy fatNum
          (b.mirrorStart fatNum (b.fatSectorLba b.activeFatIdx idx') + (idx - idx')))

/-- The sectors of a cluster lie behind the FAT and on the device. -/
def DataSafe (sectorCount cluster : ℕ) : Prop :=
  b.firstDataSec ≤ b.clusterToLba cluster ∧ b.clusterToLba cluster + b.secPerClus ≤ sectorCount

/-- All addresses computed from the clusters of the volume are where they belong. -/
def Safe (sectorCount : ℕ) : Prop :=
  ∀ cluster, 2 ≤ cluster → cluster < 2 + b.totalClus →
    b.EntrySafe cluster ∧ b.DataSafe sectorCount cluster

end Bpb

/-- The copy of the FAT that the flags name exists, and one copy has an entry of four bytes for each
of the clusters that the sectors make up. -/
def Covered (sector : ℕ → UInt8) : Prop :=
  (leAt sector 0x28 2 &&& 0x80 ≠ 0 → leAt sector 0x28 2 &&& 0x0F < leAt sector 0x10 1) ∧
  ((totalSectors sector - (leAt sector 0x0E 2 + leAt sector 0x10 1 * leAt sector 0x24 4)) /
    leAt sector 0x0D 1 + 2) * 4 ≤ leAt sector 0x24 4 * 512

variable {sector : ℕ → UInt8} {sectorCount : ℕ} {b : Bpb}

variable (h : Accepted sector sectorCount b)
include h

theorem Accepted.covered_iff :
    Covered sector ↔ b.activeFatIdx < b.numFats ∧ (b.totalClus + 2) * 4 ≤ b.fatSz32 * 512 := by
  rw [Covered, ← h.extFlags, ← h.numFats, ← h.rsvdSecCnt, ← h.fatSz32, ← h.secPerClus,
    ← h.firstDataSec, ← h.totalClus, Bpb.activeFatIdx]
  have := h.numFats_pos
  split_ifs with hflag
  · simp [hflag]
  · simp [hflag, this]

theorem Accepted.dataSafe {cluster : ℕ} (h2 : 2 ≤ cluster)
    (hlt : cluster < 2 + b.totalClus) : b.DataSafe sectorCount cluster := by
  have hmul : (cluster - 2 + 1) * b.secPerClus ≤ b.totalClus * b.secPerClus :=
    Nat.mul_le_mul_right _ (by omega)
  rw [Nat.add_one_mul] at hmul
  have := h.fits
  exact ⟨Nat.le_add_right _ _, by rw [Bpb.clusterToLba]; omega⟩

theorem Accepted.fatEntryPosition_eq {cluster : ℕ}
    (h2 : 2 ≤ cluster) (hlt : cluster < 2 + b.totalClus) :
    b.fatEntryPosition cluster = .ok (cluster * 4 / 512, cluster * 4 % 512) := by
  have := h.totalClus_lt
  rw [Bpb.fatEntryPosition, if_neg (by omega), h.bytesPerSec, Nat.mod_eq_of_lt (b := 2 ^ 32)]
  omega

/-- A position is given for the clusters of the volume only. -/
theorem Accepted.of_fatEntryPosition {cluster idx off : ℕ}
    (hp : b.fatEntryPosition cluster = .ok (idx, off)) :
    cluster < 2 + b.totalClus ∧ idx = cluster * 4 / 512 ∧ off = cluster * 4 % 512 := by
  have hin : ¬(cluster < 2 ∨ 2 + b.totalClus ≤ cluster) := fun hout => by
    rw [Bpb.fatEntryPosition, if_pos hout] at hp
    cases hp
  rw [h.fatEntryPosition_eq (by omega) (by omega), Except.ok.injEq, Prod.mk.injEq] at hp
  exact ⟨by omega, hp.1.symm, hp.2.symm⟩

theorem Accepted.inCopy_iff (fatNum idx : ℕ) :
    b.InCopy fatNum (b.fatSectorLba fatNum idx) ↔ fatNum < b.numFats ∧ idx < b.fatSz32 := by
  rw [Bpb.InCopy, h.firstDataSec]
  simp only [Bpb.fatSectorLba]
  constructor
  · rintro ⟨-, hidx, hdata⟩
    refine ⟨?_, by omega⟩
    by_contra hge
    have := Nat.mul_le_mul_right b.fatSz32 (not_lt.mp hge)
    omega
  · rintro ⟨hnum, hidx⟩
    have := Nat.mul_le_mul_right b.fatSz32 (show fatNum + 1 ≤ b.numFats from hnum)
    rw [Nat.add_one_mul] at this
    omega

omit h in
/-- While the entries are within one copy, a chunk goes to the same place in each of the others. -/
theorem Bpb.mirrorStart_add (hmir : b.mirrored = true) (fatNum : ℕ) {idx idx' : ℕ}
    (hle : idx' ≤ idx) (hidx : idx < b.fatSz32) :
    b.mirrorStart fatNum (b.fatSectorLba b.activeFatIdx idx') + (idx - idx') =
      b.fatSectorLba fatNum idx := by
  have hact : b.activeFatIdx = 0 := by
    rw [Bpb.activeFatIdx, if_neg]
    simpa [Bpb.mirrored] using hmir
  have hloc : b.fatSectorLba 0 idx' - b.fatSectorLba 0 0 = idx' := by simp [Bpb.fatSectorLba]
  rw [Bpb.mirrorStart, hact, hloc, Nat.mod_eq_of_lt (by omega)]
  simp only [Bpb.fatSectorLba]
  omega

theorem Accepted.entrySafe
    (hact : b.activeFatIdx < b.numFats) (hroom : (b.totalClus + 2) * 4 ≤ b.fatSz32 * 512)
    {cluster : ℕ} (h2 : 2 ≤ cluster) (hlt : cluster < 2 + b.totalClus) : b.EntrySafe cluster := by
  have hidx : cluster * 4 / 512 < b.fatSz32 := by omega
  refine ⟨_, _, h.fatEntryPosition_eq h2 hlt, by rw [h.bytesPerSec]; omega,
    (h.inCopy_iff _ _).mpr ⟨hact, hidx⟩, ?_⟩
  intro hmir fatNum _ hnum cluster' idx' off' _ hle _
  rw [Bpb.mirrorStart_add hmir fatNum hle hidx]
  exact (h.inCopy_iff _ _).mpr ⟨hnum, hidx⟩

omit h

/-- **On an accepted volume every FAT entry, in every copy that is written, lies in its copy and
every cluster on the device exactly if the active copy exists and a copy has room for all
entries.** -/
theorem parseBpb_safe_iff (h : parseBpb sector sectorCount = .ok b) :
    b.Safe sectorCount ↔ Covered sector := by
  have ha := parseBpb_ok h
  have hpos := ha.totalClus_pos
  rw [ha.covered_iff]
  constructor
  · intro hsafe
    -- the last cluster has the entry that is furthest out
    obtain ⟨⟨idx, off, hp, -, hin, -⟩, -⟩ := hsafe (b.totalClus + 1) (by omega) (by omega)
    obtain ⟨hact, hidx⟩ := (ha.inCopy_iff _ _).mp hin
    obtain ⟨-, rfl, -⟩ := ha.of_fatEntryPosition hp
    exact ⟨hact, by omega⟩
  · rintro ⟨hact, hroom⟩ cluster h2 hlt
    exact ⟨ha.entrySafe hact hroom h2 hlt, ha.dataSafe h2 hlt⟩

/-- A boot sector with these bytes in the fields from 0x0B on. -/
def bootSector (fields : List UInt8) : ℕ → UInt8 := fun i =>
  if i = 510 then 0x55 else if i = 511 then 0xAA else (List.replicate 0x0B 0 ++ fields).getD i 0

/-- One reserved sector, two copies of one sector each, one-sector clusters, root cluster 2, and
`total` sectors; the flags are zero. -/
def smallVolume (total : UInt8) : ℕ → UInt8 :=
  bootSector ([0, 2, 1, 1, 0, 2, 0, 0, total, 0] ++ List.replicate 15 0 ++
    [1, 0, 0, 0, 0, 0, 0, 0] ++ [2, 0, 0, 0])

/-- Twenty sectors hold 17 clusters, whose entries fit the sector. -/
theorem parseBpb_safe_small : ∃ b, parseBpb (smallVolume 20) 20 = .ok b ∧ b.Safe 20 := by
  have hok : (parseBpb (smallVolume 20) 20).toOption.isSome = true := by decide +kernel
  cases h : parseBpb (smallVolume 20) 20 with
  | error e => simp [h, Except.toOption] at hok
  | ok b =>
    refine ⟨b, rfl, (parseBpb_safe_iff h).mpr ?_⟩
    unfold Covered
    decide +kernel

/-- With 200 sectors there are 197 clusters, and the entry of the last of them is in the other copy
of the FAT. -/
theorem parseBpb_accepts_short_fat : ∃ b, parseBpb (smallVolume 200) 200 = .ok b ∧
    ¬ b.Safe 200 := by
  refine ⟨⟨512, 1, 1, 2, 1, 2, 0, 512, 3, 197, 0⟩, by decide +kernel, fun hsafe => ?_⟩
  obtain ⟨⟨idx, off, hp, -, hin, -⟩, -⟩ := hsafe 198 (by decide) (by decide)
  obtain ⟨rfl, -⟩ : 1 = idx ∧ 280 = off := by simpa [Bpb.fatEntryPosition] using hp
  exact absurd hin.2.1 (by decide)

end Bedrock.Fat32
