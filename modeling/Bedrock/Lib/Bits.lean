import Mathlib.Tactic

/-!
# Lib/Bits — masks, single-bit tests and trailing zeros of a machine word

A word is a `BitVec w`; every fact is read off `getLsbD`, so a caller never opens the arithmetic
behind a mask.  `trailingZeros` is the scan the hardware instruction performs: the least set bit,
or the width of the word when there is none.
-/

namespace Bedrock

open List

variable {w : ℕ}

/-! ## Fields of a number -/

/-- Fields that do not overlap add up. -/
theorem or_shiftLeft_eq_add {a k : ℕ} (h : a < 2 ^ k) (b : ℕ) : a ||| b <<< k = a + 2 ^ k * b := by
  rw [Nat.or_comm, ← Nat.shiftLeft_add_eq_or_of_lt h, Nat.shiftLeft_eq, Nat.add_comm, Nat.mul_comm]

theorem and_ones {m k : ℕ} (hm : m = 2 ^ k - 1) (x : ℕ) : x &&& m = x % 2 ^ k := by
  rw [hm, Nat.and_two_pow_sub_one_eq_mod]

/-! ## Masks -/

/-- The mask of the low `k` bits, as code writes it: `(1 << k) - 1`. -/
def lowMask (w k : ℕ) : BitVec w := (1#w <<< k) - 1#w

theorem toNat_lowMask {k : ℕ} (hk : k < w) : (lowMask w k).toNat = 2 ^ k - 1 := by
  have hpos : 0 < 2 ^ k := Nat.two_pow_pos k
  have hlt : 2 ^ k < 2 ^ w := Nat.pow_lt_pow_right (by decide) hk
  have h1 : (1#w).toNat = 1 := by
    rw [BitVec.toNat_ofNat, Nat.mod_eq_of_lt (by omega)]
  rw [lowMask, BitVec.toNat_sub, BitVec.toNat_shiftLeft, h1, Nat.shiftLeft_eq, Nat.one_mul,
    Nat.mod_eq_of_lt hlt, show 2 ^ w - 1 + 2 ^ k = (2 ^ k - 1) + 2 ^ w by omega,
    Nat.add_mod_right, Nat.mod_eq_of_lt (by omega)]

/-- **The low mask selects the bits below `k`.** -/
theorem getLsbD_lowMask {k : ℕ} (hk : k < w) (i : ℕ) :
    (lowMask w k).getLsbD i = decide (i < k) := by
  rw [BitVec.getLsbD, toNat_lowMask hk, Nat.testBit_two_pow_sub_one]

theorem getLsbD_one_shiftLeft {i : ℕ} (hi : i < w) (j : ℕ) :
    (1#w <<< i).getLsbD j = decide (j = i) := by
  rw [← BitVec.twoPow_eq]
  obtain rfl | h := eq_or_ne j i
  · simp [hi]
  · simp [h, Ne.symm h]

/-- **Testing against a one-bit mask reads that bit.** -/
theorem and_one_shiftLeft_eq_zero {x : BitVec w} {i : ℕ} (hi : i < w) :
    x &&& (1#w <<< i) = 0#w ↔ x.getLsbD i = false := by
  constructor
  · intro h
    have hb := congrArg (fun y => y.getLsbD i) h
    simpa [getLsbD_one_shiftLeft hi] using hb
  · intro h
    refine BitVec.eq_of_getLsbD_eq fun j hj => ?_
    rw [BitVec.getLsbD_and, getLsbD_one_shiftLeft hi]
    obtain rfl | hji := eq_or_ne j i
    · simp [h]
    · simp [hji]

theorem exists_getLsbD_of_ne_zero {x : BitVec w} (h : x ≠ 0#w) :
    ∃ i, i < w ∧ x.getLsbD i = true := by
  by_contra hno
  refine h (BitVec.eq_of_getLsbD_eq fun i hi => ?_)
  by_contra hb
  exact hno ⟨i, hi, by simpa using hb⟩

/-! ## Trailing zeros -/

/-- The number of zero bits below the least set bit — the width of the word when it is zero. -/
def trailingZeros (x : BitVec w) : ℕ :=
  ((List.range w).find? fun i => x.getLsbD i).getD w

theorem trailingZeros_le (x : BitVec w) : trailingZeros x ≤ w := by
  unfold trailingZeros
  cases h : (List.range w).find? fun i => x.getLsbD i with
  | none => simp
  | some i => simpa using Nat.le_of_lt (mem_range.mp (mem_of_find?_eq_some h))

/-- Below the trailing-zero count every bit is clear. -/
theorem getLsbD_of_lt_trailingZeros {x : BitVec w} {i : ℕ} (h : i < trailingZeros x) :
    x.getLsbD i = false := by
  unfold trailingZeros at h
  cases hf : (List.range w).find? fun i => x.getLsbD i with
  | none =>
    rw [hf] at h
    have hi := find?_eq_none.mp hf i (mem_range.mpr (by simpa using h))
    simpa using hi
  | some j =>
    rw [hf] at h
    have hj := mem_range.mp (mem_of_find?_eq_some hf)
    obtain ⟨-, as, bs, hab, hbefore⟩ := find?_eq_some_iff_append.mp hf
    have hij : i < j := by simpa using h
    have hlen : as.length = j := by
      have hget : (List.range w)[as.length]? = some j := by rw [hab]; simp
      have hlt : as.length < w := by
        have := congrArg List.length hab
        simp at this
        omega
      rw [getElem?_range hlt] at hget
      exact Option.some.inj hget
    have hmem : i ∈ as := by
      have hget : as[i]? = some i := by
        have hr : (List.range w)[i]? = some i := getElem?_range (by omega)
        rwa [hab, getElem?_append_left (by omega)] at hr
      exact mem_of_getElem? hget
    simpa using hbefore i hmem

/-- **A nonzero word has its trailing-zero bit set.** -/
theorem getLsbD_trailingZeros {x : BitVec w} (h : x ≠ 0#w) :
    trailingZeros x < w ∧ x.getLsbD (trailingZeros x) = true := by
  obtain ⟨i, hi, hb⟩ := exists_getLsbD_of_ne_zero h
  unfold trailingZeros
  cases hf : (List.range w).find? fun i => x.getLsbD i with
  | none => exact absurd hb (by simpa using find?_eq_none.mp hf i (mem_range.mpr hi))
  | some j =>
    refine ⟨by simpa using mem_range.mp (mem_of_find?_eq_some hf), ?_⟩
    simpa using find?_some hf

end Bedrock
