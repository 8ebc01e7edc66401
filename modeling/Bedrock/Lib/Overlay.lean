import Mathlib.Tactic

/-!
# Lib/Overlay — writing a list over another one

`overlay z old o d` puts `d` over `old` from position `o`, with `z` in the gap if `old` ends before:

    old  --------------------        old  ------
    d          --------              d               --------
         ------dddddddd------             ------zzzzzdddddddd

Nothing is written if `d` is empty.  Overlays in a row are one overlay (`overlay_append`).
-/

namespace Bedrock

open List

variable {α : Type*} {z : α} {old d d₁ d₂ : List α} {o : ℕ}

def overlay (z : α) (old : List α) (o : ℕ) : List α → List α
  | [] => old
  | x :: d =>
    old.take o ++ List.replicate (o - old.length) z ++ (x :: d) ++ old.drop (o + (x :: d).length)

@[simp] theorem overlay_nil : overlay z old o [] = old := rfl

theorem overlay_of_ne (h : d ≠ []) : overlay z old o d =
    old.take o ++ List.replicate (o - old.length) z ++ d ++ old.drop (o + d.length) := by
  cases d with
  | nil => exact absurd rfl h
  | cons x d => rfl

/-- At the start, what is left of the old list follows the new one. -/
theorem overlay_zero : overlay z old 0 d = d ++ old.drop d.length := by
  cases d with
  | nil => rfl
  | cons x d => rw [overlay_of_ne (cons_ne_nil x d)]; simp

/-- What stands before `d`. -/
theorem length_gap : (old.take o ++ List.replicate (o - old.length) z).length = o := by
  rw [length_append, length_take, length_replicate]
  omega

/-- **Two overlays in a row are the overlay of both.** -/
theorem overlay_append :
    overlay z (overlay z old o d₁) (o + d₁.length) d₂ = overlay z old o (d₁ ++ d₂) := by
  obtain rfl | h2 := eq_or_ne d₂ []
  · rw [overlay_nil, append_nil]
  obtain rfl | h1 := eq_or_ne d₁ []
  · rw [overlay_nil, length_nil, Nat.add_zero, nil_append]
  rw [overlay_of_ne h2, overlay_of_ne h1, overlay_of_ne (append_ne_nil_of_left_ne_nil h1 d₂)]
  generalize hp : old.take o ++ List.replicate (o - old.length) z = before
  have hlen : (before ++ d₁).length = o + d₁.length := by
    rw [length_append, ← hp, length_gap]
  have htake : (before ++ d₁ ++ old.drop (o + d₁.length)).take (o + d₁.length) = before ++ d₁ := by
    rw [← hlen, take_left']
    rfl
  have hdrop : (before ++ d₁ ++ old.drop (o + d₁.length)).drop (o + d₁.length + d₂.length) =
      old.drop (o + (d₁ ++ d₂).length) := by
    rw [← hlen, drop_append, drop_eq_nil_of_le (by omega), nil_append,
      drop_drop, hlen, length_append]
    congr 1
    omega
  have hgap : o + d₁.length - (before ++ d₁ ++ old.drop (o + d₁.length)).length = 0 := by
    rw [length_append]
    omega
  rw [htake, hdrop, hgap, replicate_zero, append_nil, append_assoc before]

end Bedrock
