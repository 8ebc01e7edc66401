import Mathlib.Data.List.Perm.Basic

/-!
# Services/TimerQueue — the pending timers of one CPU

A queue is a heap of entries ordered by deadline alone; the list holds its entries in no order that
means anything, and of two entries with the earliest deadline the first in the list is on top.
-/

namespace Bedrock.Services

open List

/-- `TimerId`: the base that a timer lives on, and its number. -/
structure TimerId where
  cpu : ℕ
  seq : ℕ
  deriving DecidableEq

/-- `TimerEntry`, with the callback and its context in one.  `origin` is a record: the number that
the timer was set under, which it keeps when it is migrated. -/
structure TimerEntry (κ : Type) where
  id : TimerId
  deadline : ℕ
  period : Option ℕ
  callback : κ
  origin : ℕ
  deriving DecidableEq

/-- `TimerQueue`. -/
abbrev TimerQueue (κ : Type) := List (TimerEntry κ)

namespace TimerQueue

variable {κ : Type}

def insert (q : TimerQueue κ) (e : TimerEntry κ) : TimerQueue κ := e :: q

/-- The queue with an entry put back, if there is one. -/
def putBack (q : TimerQueue κ) : Option (TimerEntry κ) → TimerQueue κ
  | none => q
  | some e => q.insert e

/-- `cancel`: whether the queue got shorter, and what is kept. -/
def cancel (q : TimerQueue κ) (id : TimerId) : Bool × TimerQueue κ :=
  let rest := q.filter fun e => e.id ≠ id
  (rest.length ≠ q.length, rest)

/-- `remove`: the first entry found under the id, and the others. -/
def remove (q : TimerQueue κ) (id : TimerId) : Option (TimerEntry κ) × TimerQueue κ :=
  (q.find? fun e => e.id = id, q.eraseP fun e => e.id = id)

/-- `next_deadline`. -/
def nextDeadline (q : TimerQueue κ) : Option ℕ := (q.map TimerEntry.deadline).min?

/-- The entry on top of the heap. -/
def peek (q : TimerQueue κ) : Option (TimerEntry κ) :=
  q.find? fun e => q.nextDeadline = some e.deadline

/-- The heap without its top. -/
def popped (q : TimerQueue κ) : TimerQueue κ := q.eraseP fun e => q.nextDeadline = some e.deadline

/-- The loop of `drain_expired`. -/
def drainLoop (now : ℕ) : ℕ → TimerQueue κ → List (TimerEntry κ) × TimerQueue κ
  | 0, q => ([], q)
  | fuel + 1, q =>
    match q.peek with
    | none => ([], q)
    | some e =>
      if e.deadline ≤ now then
        match drainLoop now fuel q.popped with
        | (expired, rest) => (e :: expired, rest)
      else ([], q)

/-- `drain_expired`: each round takes an entry, so there are no more rounds than entries. -/
def drainExpired (q : TimerQueue κ) (now : ℕ) : List (TimerEntry κ) × TimerQueue κ :=
  drainLoop now q.length q

/-! ## The earliest deadline -/

variable {q q' : TimerQueue κ} {e : TimerEntry κ} {d d' now : ℕ} {id : TimerId}

theorem nextDeadline_eq_some :
    q.nextDeadline = some d ↔ (∃ e ∈ q, e.deadline = d) ∧ ∀ e ∈ q, d ≤ e.deadline := by
  rw [nextDeadline, min?_eq_some_iff]
  simp only [mem_map, forall_exists_index, and_imp, forall_apply_eq_imp_iff₂]

theorem nextDeadline_eq_none : q.nextDeadline = none ↔ q = [] := by
  rw [nextDeadline, min?_eq_none_iff, map_eq_nil_iff]

/-- Taking entries out does not make the earliest deadline earlier. -/
theorem nextDeadline_le_of_subset (hsub : q' ⊆ q) (h : q.nextDeadline = some d)
    (h' : q'.nextDeadline = some d') : d ≤ d' := by
  obtain ⟨⟨e, he, rfl⟩, -⟩ := nextDeadline_eq_some.mp h'
  exact (nextDeadline_eq_some.mp h).2 e (hsub he)

/-! ## Cancelling and removing -/

/-- **`cancel` reports whether there was an entry under the id.** -/
theorem cancel_fst : (q.cancel id).1 = true ↔ ∃ e ∈ q, e.id = id := by
  rw [cancel, decide_eq_true_iff, ne_eq, length_filter_eq_length_iff]
  simp only [decide_eq_true_iff, not_forall, not_not, exists_prop]

theorem mem_cancel : e ∈ (q.cancel id).2 ↔ e ∈ q ∧ e.id ≠ id := by
  rw [cancel, mem_filter, decide_eq_true_iff]

/-- **`remove` takes out one entry under the id**, if there is one. -/
theorem remove_some (h : (q.remove id).1 = some e) : e.id = id ∧ q.Perm (e :: (q.remove id).2) := by
  obtain ⟨hid, as, bs, rfl, has⟩ := find?_eq_some_iff_append.mp h
  refine ⟨of_decide_eq_true hid, ?_⟩
  rw [remove, eraseP_append_right _ (fun a ha => by simpa using has a ha),
    eraseP_cons_of_pos (by exact hid)]
  exact perm_middle

theorem remove_none (h : (q.remove id).1 = none) : (∀ e ∈ q, e.id ≠ id) ∧ (q.remove id).2 = q := by
  have hno : ∀ e ∈ q, e.id ≠ id := by simpa using find?_eq_none.mp h
  exact ⟨hno, eraseP_of_forall_not fun e he => by simpa using hno e he⟩

/-! ## Draining -/

theorem peek_some (h : q.peek = some e) :
    q.nextDeadline = some e.deadline ∧ q.Perm (e :: q.popped) := by
  obtain ⟨hd, as, bs, heq, has⟩ := find?_eq_some_iff_append.mp h
  refine ⟨of_decide_eq_true hd, ?_⟩
  generalize hn : q.nextDeadline = n at hd has
  rw [popped, hn, heq, eraseP_append_right _ (by simpa using has),
    eraseP_cons_of_pos (by exact hd)]
  exact perm_middle

theorem peek_eq_none (h : q.peek = none) : q = [] := by
  cases hn : q.nextDeadline with
  | none => exact nextDeadline_eq_none.mp hn
  | some d =>
    obtain ⟨⟨e, he, rfl⟩, -⟩ := nextDeadline_eq_some.mp hn
    exact absurd hn (by simpa using find?_eq_none.mp h e he)

/-- What the loop has taken out was due, and with rounds enough nothing due is left. -/
theorem drainLoop_spec (now : ℕ) : ∀ (fuel : ℕ) (q : TimerQueue κ),
    q.Perm ((drainLoop now fuel q).1 ++ (drainLoop now fuel q).2) ∧
      (∀ e ∈ (drainLoop now fuel q).1, e.deadline ≤ now) ∧
      (q.length ≤ fuel → ∀ e ∈ (drainLoop now fuel q).2, now < e.deadline)
  | 0, q => by
    refine ⟨List.Perm.refl q, fun _ h => absurd h not_mem_nil, fun hle e he => ?_⟩
    obtain rfl := length_eq_zero_iff.mp (Nat.le_zero.mp hle)
    exact absurd he not_mem_nil
  | fuel + 1, q => by
    rw [drainLoop]
    cases hp : q.peek with
    | none =>
      obtain rfl := peek_eq_none hp
      exact ⟨List.Perm.refl _, fun _ h => absurd h not_mem_nil,
        fun _ _ h => absurd h not_mem_nil⟩
    | some e =>
      obtain ⟨hd, hperm⟩ := peek_some hp
      by_cases hle : e.deadline ≤ now
      · obtain ⟨ihperm, ihdue, ihrest⟩ := drainLoop_spec now fuel q.popped
        simp only [if_pos hle]
        refine ⟨hperm.trans (ihperm.cons e), ?_, fun hlen => ihrest ?_⟩
        · rintro e' (_ | ⟨_, h⟩)
          · exact hle
          · exact ihdue e' h
        · have := hperm.length_eq
          rw [length_cons] at this
          omega
      · simp only [if_neg hle]
        refine ⟨List.Perm.refl q, fun _ h => absurd h not_mem_nil, fun _ e' he' => ?_⟩
        exact Nat.lt_of_lt_of_le (Nat.lt_of_not_le hle) ((nextDeadline_eq_some.mp hd).2 e' he')

/-- **Draining splits a queue into what is due and what is not.** -/
theorem drainExpired_spec (q : TimerQueue κ) (now : ℕ) :
    q.Perm ((q.drainExpired now).1 ++ (q.drainExpired now).2) ∧
      (∀ e ∈ (q.drainExpired now).1, e.deadline ≤ now) ∧
      ∀ e ∈ (q.drainExpired now).2, now < e.deadline := by
  obtain ⟨hperm, hdue, hrest⟩ := drainLoop_spec now q.length q
  exact ⟨hperm, hdue, hrest (Nat.le_refl _)⟩

end TimerQueue

end Bedrock.Services
