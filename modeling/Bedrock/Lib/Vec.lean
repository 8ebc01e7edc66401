import Mathlib.Tactic

/-!
# Lib/Vec — a row whose order does not matter

An entry is taken out of a row by moving the last one into its place:

    a b c d e   --swapRemove 1--▸   a e c d
-/

namespace Bedrock

open List

variable {α : Type} {l : List α} {i : ℕ} {e : α}

/-- `Vec::swap_remove`: the last entry takes the place of entry `i`. -/
def swapRemove (l : List α) (i : ℕ) : List α :=
  match l.getLast? with
  | none => l
  | some last => (l.set i last).dropLast

theorem swapRemove_perm (h : l[i]? = some e) : (e :: swapRemove l i).Perm l := by
  obtain rfl | ⟨l, last, rfl⟩ := eq_nil_or_concat' l
  · cases h
  · rw [swapRemove, getLast?_concat]
    dsimp only
    obtain hi | rfl | hi := Nat.lt_trichotomy i l.length
    · rw [getElem?_append_left hi] at h
      rw [set_append_left _ _ hi, dropLast_concat,
        set_eq_take_append_cons_drop, if_pos hi]
      have hl : l = l.take i ++ e :: l.drop (i + 1) := by
        obtain ⟨hi', rfl⟩ := List.getElem?_eq_some_iff.mp h
        rw [getElem_cons_drop, take_append_drop]
      calc (e :: (l.take i ++ last :: l.drop (i + 1))).Perm
            (e :: last :: (l.take i ++ l.drop (i + 1))) := perm_middle.cons e
        _ |>.Perm (last :: e :: (l.take i ++ l.drop (i + 1))) := List.Perm.swap _ _ _
        _ |>.Perm (last :: (l.take i ++ e :: l.drop (i + 1))) := perm_middle.symm.cons last
        _ |>.Perm (l ++ [last]) := by
            rw [← hl]
            exact perm_append_singleton last l |>.symm
    · obtain rfl : last = e := by simpa using h
      rw [set_append_right _ _ le_rfl, Nat.sub_self, set_cons_zero, dropLast_concat]
      exact (perm_append_singleton last l).symm
    · rw [getElem?_eq_none (by rw [length_append, length_singleton]; omega)] at h
      cases h

end Bedrock
