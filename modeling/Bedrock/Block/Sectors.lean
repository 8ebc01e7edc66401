import Mathlib.Algebra.BigOperators.Group.List.Lemmas

/-!
# Block/Sectors — a device as its readers see it

A device gives what it holds, or fails; what it holds is anything at all.
-/

namespace Bedrock

open List

def BYTES_PER_SECTOR : ℕ := 512

/-- The size of a device, and what a read of so many sectors from one on gives, if it succeeds. -/
structure SectorDevice where
  sectorCount : ℕ
  read : ℕ → ℕ → Option (List UInt8)
  length_read : ∀ {lba count bs}, read lba count = some bs → bs.length = count * BYTES_PER_SECTOR

/-! ## Devices with given contents -/

/-- The bytes, cut or filled up with zeros. -/
def fit (n : ℕ) (bs : List UInt8) : List UInt8 := (bs ++ List.replicate n 0).take n

theorem length_fit (n : ℕ) (bs : List UInt8) : (fit n bs).length = n := by
  rw [fit, length_take, length_append, length_replicate]
  omega

/-- One sector, from its pieces in the order of their places. -/
def sectorOf (pieces : List (ℕ × List UInt8)) : List UInt8 :=
  fit BYTES_PER_SECTOR (pieces.foldl (fun bs p => fit p.1 bs ++ p.2) [])

/-- A device that holds these sectors. -/
def deviceOf (sectors : List (List (ℕ × List UInt8))) : SectorDevice where
  sectorCount := sectors.length
  read lba count := if lba + count ≤ sectors.length then
    some (((sectors.drop lba).take count).flatMap sectorOf) else none
  length_read := by
    intro lba count bs h
    split at h
    · cases h
      rw [length_flatMap]
      simp only [sectorOf, length_fit, map_const', sum_replicate_nat, length_take,
        length_drop]
      congr 1
      omega
    · exact nomatch h

end Bedrock
