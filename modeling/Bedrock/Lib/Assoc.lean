import Mathlib.Data.List.Basic

/-!
# Lib/Assoc — finite maps as association lists

A map is a list of keys and values of which the first entry of a key counts; `insert` puts an entry
in front and `remove` filters the key out:

    insert k x m  =  (k, x) :: m          remove k m  =  m.filter (·.1 ≠ k)
-/

namespace Bedrock

variable {κ β : Type*} [BEq κ] [LawfulBEq κ] [DecidableEq κ] {m : List (κ × β)} {k n : κ} {x : β}

theorem lookup_cons_ite (n k : κ) (x : β) (m : List (κ × β)) :
    ((k, x) :: m).lookup n = if n = k then some x else m.lookup n := by
  rw [List.lookup_cons]
  by_cases hn : n = k
  · rw [if_pos hn, beq_iff_eq.mpr hn]
  · rw [if_neg hn, beq_false_of_ne hn]

theorem lookup_filter_ne (m : List (κ × β)) (k n : κ) :
    (m.filter fun e => e.1 ≠ k).lookup n = if n = k then none else m.lookup n := by
  induction m with
  | nil => simp
  | cons y m ih =>
    obtain ⟨b, z⟩ := y
    by_cases hb : b = k
    · rw [List.filter_cons_of_neg (by simp [hb]), ih, lookup_cons_ite, hb]
      by_cases hn : n = k <;> simp [hn]
    · rw [List.filter_cons_of_pos (by simp [hb]), lookup_cons_ite, lookup_cons_ite, ih]
      by_cases hn : n = b
      · rw [if_pos hn, if_pos hn, if_neg fun h => hb (hn.symm.trans h)]
      · rw [if_neg hn, if_neg hn]

theorem mem_of_lookup (h : m.lookup n = some x) : (n, x) ∈ m := by
  induction m with
  | nil => cases h
  | cons y m ih =>
    obtain ⟨b, z⟩ := y
    rw [lookup_cons_ite] at h
    split_ifs at h with hn
    · rw [hn, Option.some.inj h]
      exact List.mem_cons_self
    · exact List.mem_cons_of_mem _ (ih h)

theorem lookup_isSome_of_mem (h : (n, x) ∈ m) : (m.lookup n).isSome := by
  induction m with
  | nil => cases h
  | cons y m ih =>
    rw [lookup_cons_ite]
    split_ifs with hn
    · rfl
    · refine ih ((List.mem_cons.mp h).resolve_left fun he => hn ?_)
      exact (Prod.mk.inj he).1

end Bedrock
