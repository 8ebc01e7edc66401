import Mathlib.Data.List.Basic

/-!
# Lib/Run — runs of a partial step function

A system is a step function `step : σ → α → Option σ`; an action that is not enabled has no
successor.  `run` performs a list of actions, and `RunMeets` says that each of them was taken in a
state that meets a condition:

    s --a₁--▸ s₁ --a₂--▸ s₂ --▸ ⋯          ok s a₁,  ok s₁ a₂,  …

An invariant that every such step keeps holds at the end of every such run (`run_invariant`).
-/

namespace Bedrock

variable {σ α : Type*} {step : σ → α → Option σ} {ok : σ → α → Prop}

/-- The state after performing the actions in order, if each of them is enabled. -/
def run (step : σ → α → Option σ) : σ → List α → Option σ
  | s, [] => some s
  | s, a :: as => (step s a).bind fun s' => run step s' as

/-- Every action of the run is taken in a state where `ok` holds of it. -/
def RunMeets (step : σ → α → Option σ) (ok : σ → α → Prop) : σ → List α → Prop
  | _, [] => True
  | s, a :: as => ok s a ∧
      match step s a with
      | some s' => RunMeets step ok s' as
      | none => True

/-- On a concrete run the condition can be evaluated. -/
instance RunMeets.decidable (step : σ → α → Option σ) (ok : σ → α → Prop)
    [∀ s a, Decidable (ok s a)] : ∀ s as, Decidable (RunMeets step ok s as)
  | _, [] => isTrue trivial
  | s, a :: as =>
    match h : step s a with
    | some s' =>
      haveI := RunMeets.decidable step ok s' as
      decidable_of_iff (ok s a ∧ RunMeets step ok s' as) (by simp [RunMeets, h])
    | none => decidable_of_iff (ok s a) (by simp [RunMeets, h])

theorem RunMeets.cons {s : σ} {a : α} {as : List α} (ha : ok s a)
    (has : ∀ s', step s a = some s' → RunMeets step ok s' as) : RunMeets step ok s (a :: as) := by
  refine ⟨ha, ?_⟩
  cases hs : step s a with
  | none => trivial
  | some s' => exact has s' hs

theorem RunMeets.head {s : σ} {a : α} {as : List α} (h : RunMeets step ok s (a :: as)) : ok s a :=
  h.1

theorem RunMeets.tail {s s' : σ} {a : α} {as : List α} (h : RunMeets step ok s (a :: as))
    (hs : step s a = some s') : RunMeets step ok s' as := by
  have h2 := h.2
  rwa [hs] at h2

theorem RunMeets.mono {ok' : σ → α → Prop} (h : ∀ s a, ok s a → ok' s a) :
    ∀ {s : σ} {as : List α}, RunMeets step ok s as → RunMeets step ok' s as
  | _, [], _ => trivial
  | s, a :: as, hm => by
    refine ⟨h s a hm.head, ?_⟩
    cases hs : step s a with
    | none => trivial
    | some s' => exact RunMeets.mono h (hm.tail hs)

/-- A condition that always holds is met by every run. -/
theorem RunMeets.of_forall (h : ∀ s a, ok s a) : ∀ (s : σ) (as : List α), RunMeets step ok s as
  | _, [] => trivial
  | s, a :: as => by
    refine ⟨h s a, ?_⟩
    cases step s a with
    | none => trivial
    | some s' => exact RunMeets.of_forall h s' as

/-- The end of a run, from what can be computed of it. -/
theorem exists_of_any {o : Option σ} (P : σ → Prop) [DecidablePred P] {Q : σ → Prop}
    (h : o.any (fun s => P s) = true) (hQ : ∀ s, o = some s → P s → Q s) :
    ∃ s, o = some s ∧ Q s := by
  obtain ⟨s, hs, hP⟩ := (Option.any_eq_true _ _).mp h
  exact ⟨s, hs, hQ s hs (of_decide_eq_true hP)⟩

theorem run_cons_eq_some {s t : σ} {a : α} {as : List α} (h : run step s (a :: as) = some t) :
    ∃ s', step s a = some s' ∧ run step s' as = some t := by
  simpa [run, Option.bind_eq_some_iff] using h

/-- **What every step of a run preserves, the run preserves.** -/
theorem run_invariant (inv : σ → Prop)
    (hstep : ∀ s a s', inv s → ok s a → step s a = some s' → inv s') :
    ∀ (as : List α) {s t : σ}, inv s → RunMeets step ok s as → run step s as = some t → inv t
  | [], s, t, hs, _, h => by
    obtain rfl : s = t := by simpa [run] using h
    exact hs
  | a :: as, s, t, hs, hm, h => by
    obtain ⟨s', hsa, hrest⟩ := run_cons_eq_some h
    exact run_invariant inv hstep as (hstep s a s' hs hm.head hsa) (hm.tail hsa) hrest

/-- If a property holds after a step exactly if it held before and the step met the condition, it
holds after a run exactly if it held before and every step met it. -/
theorem run_iff (inv Q : σ → Prop) (hinv : ∀ s a s', inv s → step s a = some s' → inv s')
    (hQ : ∀ s a s', inv s → step s a = some s' → (Q s' ↔ Q s ∧ ok s a)) :
    ∀ (as : List α) {s t : σ}, inv s → run step s as = some t →
      (Q t ↔ Q s ∧ RunMeets step ok s as)
  | [], s, t, _, h => by
    obtain rfl : s = t := by simpa [run] using h
    exact (and_iff_left trivial).symm
  | a :: as, s, t, hs, h => by
    obtain ⟨s', hsa, hrest⟩ := run_cons_eq_some h
    rw [run_iff inv Q hinv hQ as (hinv s a s' hs hsa) hrest, hQ s a s' hs hsa, RunMeets, hsa,
      and_assoc]

end Bedrock
