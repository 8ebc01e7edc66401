import Mathlib.Data.List.Basic

/-!
# Lib/PhaseRing — a ring whose entries say in which round they were written

Reader and writer of a ring share no counter.  The writer tags each entry with its *phase*, which
flips whenever the ring wraps, and the reader takes the entry at its head if the tag is its own
phase:

        head            tail
    ┄┄┄┄┄p┄┄┄┄p┄┄┄┄p┄┄┄┄┄¬p┄┄┄┄¬p┄┄┄        entries from head to tail have the reader's phase,
    and behind a wrap the other one; all the rest do not

So the ring is a queue (`Holds`): posting appends (`Holds.post`), polling looks at the front
(`Holds.poll_eq`) and advancing drops it (`Holds.advance`), as long as the writer leaves one cell
free.
-/

namespace Bedrock

open List

structure PhaseRing (α : Type*) where
  depth : ℕ
  cells : ℕ → Bool × Option α
  head : ℕ
  phase : Bool
  tail : ℕ
  tailPhase : Bool

namespace PhaseRing

variable {α : Type*}

/-- A ring of cells that were never written; the first round has the phase `true`. -/
def new (depth : ℕ) : PhaseRing α := ⟨depth, fun _ => (false, none), 0, true, 0, true⟩

variable (r : PhaseRing α)

/-- The cell after this one. -/
def next (i : ℕ) : ℕ := if r.depth ≤ i + 1 then 0 else i + 1

/-- The entry at the head, if it is of the reader's round. -/
def poll : Option α := if (r.cells r.head).1 = r.phase then (r.cells r.head).2 else none

/-- The reader is done with the entry at the head. -/
def advance : PhaseRing α :=
  { r with
    head := r.next r.head
    phase := if r.depth ≤ r.head + 1 then !r.phase else r.phase }

/-- The writer sees a free cell besides the one it writes. -/
def Room : Prop := r.next r.tail ≠ r.head

instance : Decidable r.Room := inferInstanceAs (Decidable (_ ≠ _))

/-- The writer adds an entry. -/
def post (x : α) : PhaseRing α :=
  { r with
    cells := fun i => if i = r.tail then (r.tailPhase, some x) else r.cells i
    tail := r.next r.tail
    tailPhase := if r.depth ≤ r.tail + 1 then !r.tailPhase else r.tailPhase }

/-- The cell `i` places behind the head… -/
def at_ (i : ℕ) : ℕ := if r.head + i < r.depth then r.head + i else r.head + i - r.depth

/-- …and the tag of the round it belongs to. -/
def round (i : ℕ) : Bool := if r.head + i < r.depth then r.phase else !r.phase

/-- The ring holds these entries, the oldest first. -/
structure Holds (l : List α) : Prop where
  room : l.length < r.depth
  head_lt : r.head < r.depth
  tail_eq : r.tail = r.at_ l.length
  tailPhase_eq : r.tailPhase = r.round l.length
  full : ∀ i x, l[i]? = some x → r.cells (r.at_ i) = (r.round i, some x)
  free : ∀ i, l.length ≤ i → i < r.depth → (r.cells (r.at_ i)).1 = !r.round i

variable {r} {l : List α} {x : α}

theorem at_injective {i j : ℕ} (hi : i < r.depth) (hj : j < r.depth) (h : r.at_ i = r.at_ j) :
    i = j := by
  simp only [at_] at h
  split_ifs at h <;> omega

theorem holds_new {depth : ℕ} (h : 0 < depth) : (new depth : PhaseRing α).Holds [] where
  room := h
  head_lt := h
  tail_eq := by simp [new, at_]
  tailPhase_eq := by simp [new, round, h]
  full := fun i x hx => by simp at hx
  free := fun i _ hi => by
    have hi' : i < depth := hi
    simp [new, round, hi']

/-- Polling looks at the front of the queue. -/
theorem Holds.poll_eq (h : r.Holds l) : r.poll = l.head? := by
  have h0 : r.at_ 0 = r.head := by simp [at_, h.head_lt]
  have hr0 : r.round 0 = r.phase := by simp [round, h.head_lt]
  cases l with
  | nil =>
    have hfree := h.free 0 (Nat.le_refl 0) (Nat.zero_lt_of_lt h.head_lt)
    rw [h0, hr0] at hfree
    rw [poll, hfree, if_neg (by cases r.phase <;> decide)]
    rfl
  | cons x l =>
    have hfull := h.full 0 x rfl
    rw [h0, hr0] at hfull
    rw [poll, hfull, if_pos rfl]
    rfl

theorem Holds.at_advance (h : r.Holds l) {i : ℕ} (hi : i + 1 < r.depth) :
    r.advance.at_ i = r.at_ (i + 1) ∧ r.advance.round i = r.round (i + 1) := by
  have := h.head_lt
  simp only [at_, round, advance, next]
  by_cases hw : r.depth ≤ r.head + 1
  · simp only [if_pos hw]
    rw [if_pos (by omega), if_neg (by omega), if_pos (by omega), if_neg (by omega)]
    exact ⟨by omega, rfl⟩
  · simp only [if_neg hw]
    by_cases hb : r.head + 1 + i < r.depth
    · rw [if_pos hb, if_pos (by omega), if_pos hb, if_pos (by omega)]
      exact ⟨by omega, rfl⟩
    · rw [if_neg hb, if_neg (by omega), if_neg hb, if_neg (by omega)]
      exact ⟨by omega, rfl⟩

/-- The cell that the head leaves becomes the last one, and is of the round before. -/
theorem Holds.at_last (h : r.Holds l) : r.advance.at_ (r.depth - 1) = r.head ∧
    (r.advance.round (r.depth - 1)) = !r.phase := by
  have := h.head_lt
  simp only [at_, round, PhaseRing.advance, next]
  by_cases hw : r.depth ≤ r.head + 1
  · simp only [if_pos hw]
    rw [if_pos (by omega), if_pos (by omega)]
    exact ⟨by omega, rfl⟩
  · simp only [if_neg hw]
    rw [if_neg (by omega), if_neg (by omega)]
    exact ⟨by omega, rfl⟩

theorem next_lt (r : PhaseRing α) {i : ℕ} (h : 0 < r.depth) : r.next i < r.depth := by
  rw [next]
  split_ifs <;> omega

theorem Holds.advance (h : r.Holds (x :: l)) : r.advance.Holds l := by
  have hlen : l.length + 1 < r.depth := h.room
  have hpos : 0 < r.depth := Nat.zero_lt_of_lt h.head_lt
  refine ⟨Nat.lt_of_succ_lt hlen, r.next_lt hpos, ?_, ?_, fun i y hy => ?_, fun i hi hlt => ?_⟩
  · exact h.tail_eq.trans (h.at_advance hlen).1.symm
  · exact h.tailPhase_eq.trans (h.at_advance hlen).2.symm
  · have hi := (List.getElem?_eq_some_iff.mp hy).1
    rw [(h.at_advance (by omega)).1, (h.at_advance (by omega)).2]
    exact h.full (i + 1) y hy
  · have hd : r.advance.depth = r.depth := rfl
    by_cases hlast : i + 1 < r.depth
    · rw [(h.at_advance hlast).1, (h.at_advance hlast).2]
      exact h.free (i + 1) (Nat.succ_le_succ hi) hlast
    · obtain rfl : i = r.depth - 1 := by omega
      have h0 : r.at_ 0 = r.head := by simp [at_, h.head_lt]
      have hr0 : r.round 0 = r.phase := by simp [round, h.head_lt]
      have hx := h.full 0 x rfl
      rw [h0, hr0] at hx
      rw [h.at_last.1, h.at_last.2, Bool.not_not]
      exact congrArg Prod.fst hx

theorem Holds.next_tail (h : r.Holds l) : r.next r.tail =
    if l.length + 1 = r.depth then r.head else r.at_ (l.length + 1) := by
  have := h.head_lt
  have := h.room
  rw [h.tail_eq]
  simp only [next, at_]
  split_ifs <;> omega

/-- The writer finds room exactly while a second cell is free. -/
theorem Holds.room_iff (h : r.Holds l) : r.Room ↔ l.length + 1 < r.depth := by
  have hroom := h.room
  rw [Room, h.next_tail]
  constructor
  · intro hne
    by_contra hge
    exact hne (if_pos (by omega))
  · intro hlt heq
    rw [if_neg (by omega)] at heq
    have h0 : r.at_ 0 = r.head := by simp [at_, h.head_lt]
    exact absurd (at_injective hlt (by omega) (heq.trans h0.symm)) (Nat.succ_ne_zero _)

theorem Holds.post (h : r.Holds l) (hroom : r.Room) (x : α) : (r.post x).Holds (l ++ [x]) := by
  have hlen := h.room_iff.mp hroom
  have hcells : ∀ i < r.depth, (r.post x).cells (r.at_ i) =
      if i = l.length then (r.round l.length, some x) else r.cells (r.at_ i) := by
    intro i hi
    simp only [PhaseRing.post, h.tail_eq, h.tailPhase_eq]
    by_cases hil : i = l.length
    · rw [if_pos hil, hil, if_pos rfl]
    · rw [if_neg hil, if_neg fun heq => hil (at_injective hi h.room heq)]
  refine ⟨by rw [length_append]; exact hlen, h.head_lt, ?_, ?_, fun i y hy => ?_,
    fun i hi hlt => ?_⟩
  · rw [length_append]
    exact h.next_tail.trans (if_neg (by omega))
  · have := h.head_lt
    rw [length_append, length_singleton]
    simp only [PhaseRing.post, h.tailPhase_eq, h.tail_eq, round, at_]
    split_ifs <;> first | rfl | omega
  · have hi : i < l.length + 1 := by simpa using (List.getElem?_eq_some_iff.mp hy).1
    refine (hcells i (by omega)).trans ?_
    by_cases hil : i = l.length
    · rw [if_pos hil]
      have hxy : x = y := by simpa [hil] using hy
      rw [hil, hxy]
      rfl
    · rw [if_neg hil]
      rw [getElem?_append_left (by omega)] at hy
      exact h.full i y hy
  · rw [length_append, length_singleton] at hi
    refine (congrArg Prod.fst (hcells i hlt)).trans ?_
    rw [if_neg (by omega)]
    exact h.free i (by omega) hlt

end PhaseRing

end Bedrock
