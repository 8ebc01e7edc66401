import Bedrock.Lib.Wire

/-!
# Lib/Bytes — little-endian numbers at places of a byte string

    natAt k d o          the number in the `k` bytes from `o` on
    putWord d o w        `d` with a 16-bit number written at `o`

A number read depends on its own bytes only, and words written at places apart do not disturb each
other.
-/

namespace Bedrock

open Wire List

variable {d d' : List UInt8} {k o p w : ℕ}

/-- The number in the `k` bytes from a place on. -/
def natAt (k : ℕ) (d : List UInt8) (o : ℕ) : ℕ := leNat ((d.drop o).take k)

/-- A 16-bit number, written at a place. -/
def putWord (d : List UInt8) (o w : ℕ) : List UInt8 :=
  (d.set o (UInt8.ofNat w)).set (o + 1) (UInt8.ofNat (w / 256))

theorem natAt_lt (k : ℕ) (d : List UInt8) (o : ℕ) : natAt k d o < 256 ^ k :=
  lt_of_lt_of_le (leNat_lt _)
    (Nat.pow_le_pow_right (by decide) (by rw [length_take]; exact min_le_left _ _))

theorem natAt_congr (h : ∀ i < k, d[o + i]? = d'[o + i]?) : natAt k d o = natAt k d' o := by
  refine congrArg leNat (ext_getElem? fun i => ?_)
  by_cases hi : i < k
  · rw [getElem?_take_of_lt hi, getElem?_take_of_lt hi, getElem?_drop,
      getElem?_drop, h i hi]
  · rw [getElem?_take_eq_none (not_lt.mp hi), getElem?_take_eq_none (not_lt.mp hi)]

theorem natAt_two (h : o + 2 ≤ d.length) : natAt 2 d o = (d[o]).toNat + 256 * (d[o + 1]).toNat := by
  rw [natAt, drop_eq_getElem_cons (by omega), drop_eq_getElem_cons (by omega), take_succ_cons,
    take_succ_cons]
  simp [leNat]

@[simp] theorem length_putWord (d : List UInt8) (o w : ℕ) : (putWord d o w).length = d.length := by
  simp [putWord]

theorem getElem?_putWord_of_ne (h : p ≠ o) (h' : p ≠ o + 1) : (putWord d o w)[p]? = d[p]? := by
  rw [putWord, getElem?_set_ne (Ne.symm h'), getElem?_set_ne (Ne.symm h)]

theorem natAt_putWord (h : o + 2 ≤ d.length) (hw : w < 65536) : natAt 2 (putWord d o w) o = w := by
  rw [natAt_two (by simpa using h)]
  simp only [putWord]
  simp
  omega

theorem natAt_putWord_apart (h : p + k ≤ o ∨ o + 2 ≤ p) : natAt k (putWord d o w) p = natAt k d p :=
  natAt_congr fun _ _ => getElem?_putWord_of_ne (by omega) (by omega)

theorem putWord_natAt (h : o + 2 ≤ d.length) : putWord d o (natAt 2 d o) = d := by
  have hlo : UInt8.ofNat (natAt 2 d o) = d[o] := by
    rw [natAt_two h, ← UInt8.toNat_inj, UInt8.toNat_ofNat', Nat.add_mul_mod_self_left,
      Nat.mod_eq_of_lt (UInt8.toNat_lt _)]
  have hhi : UInt8.ofNat (natAt 2 d o / 256) = d[o + 1] := by
    have := UInt8.toNat_lt d[o]
    rw [natAt_two h, Nat.add_mul_div_left _ _ (by decide), Nat.div_eq_of_lt this, Nat.zero_add,
      UInt8.ofNat_toNat]
  rw [putWord, hlo, hhi, set_getElem_self, set_getElem_self]

/-! ## Several words -/

/-- The words `(place, word)` of the list, written one after the other. -/
def putWords (ws : List (ℕ × ℕ)) (d : List UInt8) : List UInt8 :=
  ws.foldl (fun d x => putWord d x.1 x.2) d

@[simp] theorem putWords_nil (d : List UInt8) : putWords [] d = d := rfl

@[simp] theorem putWords_cons (x : ℕ × ℕ) (ws : List (ℕ × ℕ)) (d : List UInt8) :
    putWords (x :: ws) d = putWords ws (putWord d x.1 x.2) := rfl

@[simp] theorem length_putWords : ∀ (ws : List (ℕ × ℕ)) (d : List UInt8),
    (putWords ws d).length = d.length
  | [], _ => rfl
  | x :: ws, d => by rw [putWords_cons, length_putWords ws, length_putWord]

theorem getElem?_putWords_of_ne : ∀ {ws : List (ℕ × ℕ)} {d : List UInt8},
    (∀ x ∈ ws, p ≠ x.1 ∧ p ≠ x.1 + 1) → (putWords ws d)[p]? = d[p]?
  | [], _, _ => rfl
  | x :: ws, d, h => by
    rw [putWords_cons, getElem?_putWords_of_ne fun y hy => h y (mem_cons_of_mem x hy)]
    exact getElem?_putWord_of_ne (h x mem_cons_self).1 (h x mem_cons_self).2

/-- A number apart from all words stays. -/
theorem natAt_putWords_apart {ws : List (ℕ × ℕ)}
    (h : ∀ x ∈ ws, p + k ≤ x.1 ∨ x.1 + 2 ≤ p) : natAt k (putWords ws d) p = natAt k d p :=
  natAt_congr fun _ _ => getElem?_putWords_of_ne fun x hx => by
    have := h x hx
    omega

/-- …and a word written is read back, if the others are apart from it. -/
theorem natAt_putWords : ∀ {ws : List (ℕ × ℕ)} {d : List UInt8},
    (ws.Pairwise fun x y => x.1 + 2 ≤ y.1 ∨ y.1 + 2 ≤ x.1) → (o, w) ∈ ws → o + 2 ≤ d.length →
    w < 65536 → natAt 2 (putWords ws d) o = w
  | [], _, _, hm, _, _ => absurd hm not_mem_nil
  | x :: ws, d, hp, hm, ho, hw => by
    obtain ⟨hx, hp⟩ := pairwise_cons.mp hp
    rw [putWords_cons]
    obtain rfl | hm := mem_cons.mp hm
    · rw [natAt_putWords_apart hx, natAt_putWord ho hw]
    · exact natAt_putWords hp hm (by simpa using ho) hw

theorem putWords_of_natAt : ∀ {ws : List (ℕ × ℕ)},
    (∀ x ∈ ws, x.1 + 2 ≤ d.length ∧ x.2 = natAt 2 d x.1) → putWords ws d = d
  | [], _ => rfl
  | x :: ws, h => by
    obtain ⟨hx, hw⟩ := h x mem_cons_self
    rw [putWords_cons, hw, putWord_natAt hx]
    exact putWords_of_natAt fun y hy => h y (mem_cons_of_mem x hy)

end Bedrock
