import Bedrock.Services.UniversalTimer

/-!
# Services/Armed — no deadline is left unarmed

Whenever the lock of a base is free, the clockevent of its CPU is armed for the earliest deadline or
before it, or an interrupt is on the way that will arm it:

    queue c ≠ ∅   -▸   armed c ≤ earliest (queue c)   ∨   a tick on c is due

A task that sets a timer has read its CPU before it has the lock.  If it is moved in between, the
entry goes into the base of one CPU and the clockevent of another is armed (`moved_unarmed`); if no
task is moved there, or the entry it brings is not the earliest, all is well.
-/

namespace Bedrock.Services

open Function

variable {T κ : Type}

/-- An interrupt, the timer's or the reschedule IPI, will run `tick` on the CPU: it is raised, or it
is taken and its `tick` has not come to the lock. -/
def State.Due (s : State T κ) (c : ℕ) : Prop :=
  s.timerIrq c = true ∨ s.ipi c = true ∨ s.mode c = .entry ∨ ∃ now, s.mode c = .ticking now

/-- The earliest deadline of the base is taken care of. -/
def State.Covered (s : State T κ) (c : ℕ) : Prop :=
  ∀ d, (s.queue c).nextDeadline = some d → (∃ a, s.armed c = some a ∧ a ≤ d) ∨ s.Due c

/-- **A set inserts on the CPU it has read**, or its entry does not change the earliest deadline. -/
def Stays (s : State T κ) : Act T κ → Prop
  | .run t =>
    match s.pc t with
    | .locked (.insert e) =>
      s.cpuOf t = e.id.cpu ∨
        (s.queue e.id.cpu).nextDeadline = ((s.queue e.id.cpu).insert e).nextDeadline
    | _ => True
  | _ => True

instance (s : State T κ) : ∀ a, Decidable (Stays s a)
  | .run t =>
    match h : s.pc t with
    | .locked (.insert e) =>
      decidable_of_iff (s.cpuOf t = e.id.cpu ∨
        (s.queue e.id.cpu).nextDeadline = ((s.queue e.id.cpu).insert e).nextDeadline)
        (by rw [Stays, h])
    | .locked (.cancel _) | .locked (.remove ..) | .locked (.relocate _) | .lock _ | .idle
    | .readNow .. | .readCpu .. | .number .. | .renumber .. => isTrue (by rw [Stays, h]; trivial)
  | .call .. | .move .. | .wait _ | .expire _ | .interrupt .. | .tick _ => isTrue trivial

/-- Every base is covered that no tick is at work on. -/
def Armed (s : State T κ) : Prop :=
  ∀ c, (∀ now expired, s.mode c ≠ .firing now expired) → s.Covered c

namespace Armed

variable {s : State T κ} {c : ℕ} {q : TimerQueue κ} {ev : Event T κ} {m : Mode T κ}

variable (h : Armed s)
include h

/-- A CPU that no tick is due on by its mode may be given another mode. -/
theorem setMode (hc : s.mode c = .free ∨ ∃ t, s.mode c = .locked t) : Armed (s.setMode c m) := by
  intro c' hfiring d hd
  by_cases heq : c' = c
  · obtain rfl := heq
    have hnot : ∀ now expired, s.mode c' ≠ .firing now expired := by
      rintro now expired hm
      obtain hc | ⟨t, hc⟩ := hc <;> cases hc.symm.trans hm
    refine (h c' hnot d hd).imp_right fun hdue => ?_
    obtain hirq | hipi | hentry | ⟨now, hticking⟩ := hdue
    · exact .inl hirq
    · exact .inr (.inl hipi)
    · obtain hc | ⟨t, hc⟩ := hc <;> cases hc.symm.trans hentry
    · obtain hc | ⟨t, hc⟩ := hc <;> cases hc.symm.trans hticking
  · have hmode : (s.setMode c m).mode c' = s.mode c' := update_of_ne heq ..
    rw [hmode] at hfiring
    refine (h c' hfiring d hd).imp_right fun hdue => ?_
    rwa [State.Due, hmode]

/-- A change after which nothing is earlier needs no arming. -/
theorem changeQueue
    (hq : ∀ d', q.nextDeadline = some d' → ∃ d, (s.queue c).nextDeadline = some d ∧ d ≤ d') :
    Armed (s.changeQueue c q ev) := by
  intro c' hfiring d hd
  change (update s.queue c q c').nextDeadline = some d at hd
  by_cases heq : c' = c
  · rw [heq, update_self] at hd
    obtain ⟨d0, hd0, hle⟩ := hq d hd
    rw [heq] at hfiring ⊢
    refine (h c hfiring d0 hd0).imp_left ?_
    rintro ⟨a, ha, hle'⟩
    exact ⟨a, ha, Nat.le_trans hle' hle⟩
  · rw [update_of_ne heq] at hd
    exact h c' hfiring d hd

/-- …nor does one after which the CPU has armed its clockevent, -/
theorem reprogram : Armed ((s.changeQueue c q ev).reprogram c q) := by
  intro c' hfiring d hd
  change (update s.queue c q c').nextDeadline = some d at hd
  by_cases heq : c' = c
  · rw [heq, update_self] at hd
    rw [heq]
    exact .inl ⟨d, (update_self ..).trans hd, Nat.le_refl d⟩
  · rw [update_of_ne heq] at hd
    refine (h c' hfiring d hd).imp_left ?_
    rintro ⟨a, ha, hle⟩
    exact ⟨a, (update_of_ne heq ..).trans ha, hle⟩

/-- …or has been sent an interrupt. -/
theorem sendIpi : Armed ((s.changeQueue c q ev).sendIpi c) := by
  intro c' hfiring d hd
  change (update s.queue c q c').nextDeadline = some d at hd
  by_cases heq : c' = c
  · rw [heq]
    exact .inr (.inr (.inl (update_self ..)))
  · rw [update_of_ne heq] at hd
    refine (h c' hfiring d hd).imp_right ?_
    rintro (hirq | hipi | hmode)
    · exact .inl hirq
    · exact .inr (.inl ((update_of_ne heq ..).trans hipi))
    · exact .inr (.inr hmode)

theorem changeQueue_of_subset (hq : q ⊆ s.queue c) : Armed (s.changeQueue c q ev) := by
  refine h.changeQueue fun d' hd' => ?_
  obtain ⟨⟨e, he, -⟩, -⟩ := TimerQueue.nextDeadline_eq_some.mp hd'
  cases hd : (s.queue c).nextDeadline with
  | none =>
    have hnil := hq he
    rw [TimerQueue.nextDeadline_eq_none.mp hd] at hnil
    exact absurd hnil List.not_mem_nil
  | some d => exact ⟨d, rfl, TimerQueue.nextDeadline_le_of_subset hq hd hd'⟩

variable {s' : State T κ} {a : Act T κ} {t : T}

/-- What a task does under the lock keeps every base covered. -/
theorem effect {job : Job κ} (hpc : s.pc t = .locked job) (hok : Stays s (.run t)) :
    Armed (s.effect t job).1 := by
  cases job with
  | insert e =>
    rw [Stays, hpc] at hok
    dsimp only [State.effect]
    split_ifs with hne
    · rw [hok.resolve_right hne]
      exact h.reprogram
    · rw [not_not] at hne
      exact h.changeQueue fun d' hd' => ⟨d', hne.trans hd', Nat.le_refl d'⟩
  | cancel id =>
    dsimp only [State.effect]
    split_ifs with hown
    · rw [← hown.2.2]
      exact h.reprogram
    · exact h.changeQueue_of_subset fun e he => (TimerQueue.mem_cancel.mp he).1
  | remove id target => exact h.changeQueue_of_subset List.eraseP_subset
  | relocate e =>
    dsimp only [State.effect]
    split_ifs with hne hown
    · rw [← hown]
      exact h.reprogram
    · exact h.sendIpi
    · rw [not_not] at hne
      exact h.changeQueue fun d' hd' => ⟨d', hne.trans hd', Nat.le_refl d'⟩

/-- A change to one CPU that leaves it covered, or leaves a tick at work. -/
theorem of_one (hother : ∀ c', c' ≠ c → s'.queue c' = s.queue c' ∧
      s'.armed c' = s.armed c' ∧ s'.timerIrq c' = s.timerIrq c' ∧ s'.ipi c' = s.ipi c' ∧
      s'.mode c' = s.mode c')
    (hc : s'.Covered c ∨ ∃ now expired, s'.mode c = .firing now expired) : Armed s' := by
  intro c' hfiring
  by_cases heq : c' = c
  · rw [heq] at hfiring ⊢
    refine hc.resolve_right ?_
    rintro ⟨now, expired, hm⟩
    exact hfiring now expired hm
  · obtain ⟨hqueue, harmed, hirq, hipi, hmode⟩ := hother c' heq
    rw [hmode] at hfiring
    rw [State.Covered, State.Due, hqueue, harmed, hirq, hipi, hmode]
    exact h c' hfiring

variable [DecidableEq T]

/-- **Every step keeps every base covered**, if a set inserts where it has been. -/
theorem step (hx : Exclusive s) (hok : Stays s a) (hs : s.step a = some s') : Armed s' := by
  cases step_cases hs with
  | call c hpc | readNow hpc | readCpu hpc | number hpc | renumber hpc => exact h
  | @acquire t job hpc hmode hlock =>
    have hset : Armed (s.setMode (s.cpuOf t) (.locked t)) := h.setMode (.inl hmode)
    exact hset
  | @perform t job hpc =>
    obtain ⟨-, hmode⟩ := hx.task t job hpc
    obtain ⟨-, -, -, hmode', hcpu, -⟩ := s.effect_frame t job
    have hset : Armed ((s.effect t job).1.setMode ((s.effect t job).1.cpuOf t) .free) :=
      (h.effect hpc hok).setMode (.inr ⟨t, by rw [hmode', hcpu, hmode]⟩)
    exact hset
  | move cpu hpc | wait hle => exact h
  | expire c =>
    refine h.of_one (c := c) (fun c' hne => ?_) (.inl fun d _ => .inr (.inl ?_))
    · exact ⟨rfl, update_of_ne hne .., update_of_ne hne .., rfl, rfl⟩
    · exact update_self ..
  | @ipi c hmode =>
    refine h.of_one (c := c) (fun c' hne => ?_)
      (.inl fun d _ => .inr (.inr (.inr (.inl (update_self ..)))))
    exact ⟨rfl, rfl, rfl, update_of_ne hne .., update_of_ne hne ..⟩
  | @timerIrq c hmode =>
    refine h.of_one (c := c) (fun c' hne => ?_)
      (.inl fun d _ => .inr (.inr (.inr (.inl (update_self ..)))))
    exact ⟨rfl, rfl, update_of_ne hne .., rfl, update_of_ne hne ..⟩
  | @enter c hmode =>
    refine h.of_one (c := c) (fun c' hne => ?_)
      (.inl fun d _ => .inr (.inr (.inr (.inr ⟨s.clock, update_self ..⟩))))
    exact ⟨rfl, rfl, rfl, rfl, update_of_ne hne ..⟩
  | @drain c now hmode hlock =>
    refine h.of_one (c := c) (fun c' hne => ?_) (.inr ⟨now, _, update_self ..⟩)
    exact ⟨update_of_ne hne .., rfl, rfl, rfl, update_of_ne hne ..⟩
  | @fire c now e expired hmode =>
    refine h.of_one (c := c) (fun c' hne => ?_) (.inr ⟨now, expired, update_self ..⟩)
    exact ⟨update_of_ne hne .., rfl, rfl, rfl, update_of_ne hne ..⟩
  | @finish c now hmode =>
    refine h.of_one (c := c) (fun c' hne => ?_)
      (.inl fun d hd => .inl ⟨d, (update_self ..).trans hd, Nat.le_refl d⟩)
    exact ⟨rfl, update_of_ne hne .., rfl, rfl, update_of_ne hne ..⟩

end Armed

/-! ## Whole runs -/

variable [DecidableEq T]

/-- **In every run in which each set inserts on the CPU it has read, or brings no new earliest
deadline, a base whose lock is free has its earliest deadline armed, or a tick is due.** -/
theorem covered_of_stays (cpuOf : T → ℕ) (clock : ℕ) (acts : List (Act T κ)) {s : State T κ}
    (hok : RunMeets State.step Stays (State.new cpuOf clock) acts)
    (hrun : run State.step (State.new cpuOf clock) acts = some s) :
    ∀ c, s.lock c = none → s.Covered c := by
  have hinit : Exclusive (State.new cpuOf clock : State T κ) ∧
      Armed (State.new cpuOf clock : State T κ) :=
    ⟨Exclusive.new cpuOf clock, fun _ _ _ hd => by cases hd⟩
  obtain ⟨hx, harmed⟩ := run_invariant (fun s => Exclusive s ∧ Armed s)
    (fun s a s' h hok hs => ⟨h.1.step hs, h.2.step h.1 hok hs⟩) acts hinit hok hrun
  intro c hlock
  refine harmed c fun now expired hm => ?_
  cases hlock.symm.trans (hx.tick c now expired hm)

/-- **In every run a base lock has one holder**, which is what its CPU is at. -/
theorem exclusive_of_run (cpuOf : T → ℕ) (clock : ℕ) (acts : List (Act T κ)) {s : State T κ}
    (hrun : run State.step (State.new cpuOf clock) acts = some s) : Exclusive s :=
  run_invariant Exclusive (fun _ _ _ h _ hs => h.step hs) acts (.new cpuOf clock)
    (RunMeets.of_forall (fun _ _ => trivial) _ acts) hrun

/-- One task on CPU 0 sets a timer, and is moved to CPU 1 before it takes the lock. -/
def movedSet : List (Act Unit Unit) :=
  [.call () (.set 100 ()), .run (), .run (), .move () 1, .run (), .run ()]

/-- The entry is in the base of CPU 0, and that CPU has nothing armed and no interrupt raised. -/
theorem moved_unarmed :
    ∃ s : State Unit Unit, run State.step (State.new (fun _ => 0) 0) movedSet = some s ∧
      s.lock 0 = none ∧ (s.queue 0).nextDeadline = some 100 ∧ s.armed 0 = none ∧
      s.armed 1 = some 100 ∧ ¬ s.Covered 0 := by
  refine ⟨_, rfl, rfl, rfl, rfl, rfl, fun h => ?_⟩
  obtain ⟨a, ha, -⟩ | hirq | hipi | hentry | ⟨now, hticking⟩ := h 100 rfl
  · cases ha
  · cases hirq
  · cases hipi
  · cases hentry
  · cases hticking

/-- A task that stays sets a timer and then an earlier one. -/
def twoSets : List (Act Unit Unit) :=
  [.call () (.set 100 ()), .run (), .run (), .run (), .run (),
    .call () (.set 50 ()), .run (), .run (), .run (), .run ()]

theorem covered_of_stays_twoSets :
    ∃ s : State Unit Unit, run State.step (State.new (fun _ => 0) 0) twoSets = some s ∧
      (s.queue 0).nextDeadline = some 50 ∧ s.Covered 0 :=
  ⟨_, rfl, rfl, covered_of_stays (fun _ => 0) 0 twoSets (by decide) rfl 0 rfl⟩

end Bedrock.Services
