import Bedrock.Task.SchedSection

/-!
# Task/SchedScan — when a scan that finds nothing is right

`pid_live` looks for a process at one place after the other and holds one lock at a time:

    CURRENT of each CPU --▸ QUEUE --▸ SLEEPING --▸ WAITERS --▸ ZOMBIES

So it may pass over a process that is alive, if the process goes from a place ahead to one behind,
or is between two lists from the start.  In a run of `QuietScan`s a scan for a process that is
present is not interrupted and does not begin while the process is in transit; then what has not
been found up to some place is not there (`Scanned`), and a scan that comes to its end without
finding the process is right (`Scanned.exactScan`).
-/

namespace Bedrock

open List Option Function

namespace Sched

variable {s s' : Sched} {c p : ℕ} {a : SchedAction}

/-! ## Only the CPU that acts goes on -/

/-- A section of one CPU. -/
structure ActsOn (c : ℕ) (s s' : Sched) : Prop where
  ncpus : s'.ncpus = s.ncpus
  current : ∀ d, d ≠ c → s'.current d = s.current d
  pc : ∀ d, d ≠ c → s'.pc d = s.pc d

/-- …which does not end up in the midst of an orphan pass. -/
structure ActsAside (c : ℕ) (s s' : Sched) : Prop extends ActsOn c s s' where
  aside : ∀ ks pos idx, s'.pc c ≠ .reap (.judge ks pos idx)

theorem ActsAside.goto {s1 : Sched} {pc : Pc} (h : ActsOn c s s1)
    (hpc : ∀ ks pos idx, pc ≠ .reap (.judge ks pos idx)) : ActsAside c s (s1.goto c pc) where
  ncpus := h.ncpus
  current := h.current
  pc := fun d hd => by simpa [Sched.goto, hd] using h.pc d hd
  aside := by simpa [Sched.goto] using hpc

theorem ActsOn.flush {w : Waker} {s1 : Sched} (h : s.flush w = some s1) : ActsOn c s s1 := by
  cases (ite_none_right_eq_some.mp h).2
  exact ⟨rfl, fun _ _ => rfl, fun _ _ => rfl⟩

/-- The tables a section leaves alone but for its own CPU's entry. -/
theorem ActsAside.of_update {s1 : Sched} {pc : Pc} {n : Option ℕ} (hn : s1.ncpus = s.ncpus)
    (hcur : s1.current = s.current ∨ s1.current = update s.current c n)
    (hpc : s1.pc = update s.pc c pc) (hne : ∀ ks pos idx, pc ≠ .reap (.judge ks pos idx)) :
    ActsAside c s s1 where
  ncpus := hn
  current := fun d hd => by
    obtain h | h := hcur
    · rw [h]
    · rw [h, update_of_ne hd]
  pc := fun d hd => by rw [hpc, update_of_ne hd]
  aside := by simpa [hpc] using hne

theorem ActsAside.dispatch {prev : Option ℕ} (h : s.dispatch c prev = some s') :
    ActsAside c s s' := by
  unfold Sched.dispatch at h
  repeat' split at h
  all_goals first
    | (cases h; done)
    | (cases h; exact .of_update rfl (.inr rfl) rfl (by simp))

theorem ActsAside.passStep {now : ℕ} {st : Stage} (h : s.passStep c now st = some s') :
    ActsAside c s s' := by
  unfold Sched.passStep at h
  split at h
  all_goals first
    | exact .dispatch h
    | (obtain ⟨s1, hf, rfl⟩ := map_eq_some_iff.mp h; exact .goto (.flush hf) (by simp))
    | (cases h; exact .of_update (n := none) rfl (.inl rfl) rfl (by simp))
    | (cases h; exact .of_update rfl (.inr rfl) rfl (by simp))
    | (split_ifs at h <;> cases h <;> exact .of_update (n := none) rfl (.inl rfl) rfl (by simp))

/-- …and a section that leaves its own entries alone as well. -/
theorem ActsAside.of_eq {s1 : Sched} (hc : s.pc c = .exec) (hn : s1.ncpus = s.ncpus)
    (hcur : s1.current = s.current) (hpc : s1.pc = s.pc) : ActsAside c s s1 :=
  ⟨⟨hn, fun d _ => by rw [hcur], fun d _ => by rw [hpc]⟩, by simp [hpc, hc]⟩

theorem ActsAside.callStep {k : Cont} (hc : s.pc c = .exec) (h : s.callStep c p k = some s') :
    ActsAside c s s' := by
  unfold Sched.callStep Sched.recover at h
  repeat' split at h
  all_goals first
    | (cases h; done)
    | (cases h; exact .of_eq hc rfl rfl rfl)
    | (cases h; exact .of_update (n := none) rfl (.inl rfl) rfl (by simp))
    | (obtain ⟨s1, hf, rfl⟩ := map_eq_some_iff.mp h
       cases (ite_none_right_eq_some.mp hf).2
       exact .of_eq hc rfl rfl rfl)

/-- **A section touches the entries of its own CPU only**, and only `reap_dead` gets into the midst
of a pass. -/
theorem actsOn_of_schedStep (h : schedStep s a = some s') :
    ActsOn a.cpu s s' ∧ (a = .reap a.cpu ∨ ActsAside a.cpu s s') := by
  suffices hor : ActsOn a.cpu s s' ∧ a = .reap a.cpu ∨ ActsAside a.cpu s s' from
    hor.elim (fun h => ⟨h.1, .inl h.2⟩) fun h => ⟨h.toActsOn, .inr h⟩
  have h := (ite_none_right_eq_some.mp h).2
  cases a with
  | begin c call =>
    simp only [actStep] at h
    split at h
    · rename_i hc _
      split_ifs at h
      cases h
      cases call <;> exact .inr (.of_eq hc rfl rfl rfl)
    · cases h
  | call c =>
    simp only [actStep] at h
    split at h
    · rename_i hc _
      exact .inr (.callStep hc h)
    · cases h
  | preempt c =>
    simp only [actStep] at h
    split at h
    · split_ifs at h
      cases h
      exact .inr (.of_update (n := none) rfl (.inl rfl) rfl (by simp))
    · cases h
  | pass c now =>
    simp only [actStep] at h
    split at h
    · exact .inr (.passStep h)
    · cases h
  | idle c call =>
    simp only [actStep] at h
    split at h
    · rename_i hc _
      cases call with
      | wakeSleepers now | schedule =>
        cases h
        exact .inr (.of_update (n := none) rfl (.inl rfl) rfl (by simp))
      | reapDead =>
        cases (ite_none_right_eq_some.mp h).2
        exact .inr (.of_update (n := none) rfl (.inl rfl) rfl (by simp))
      | launch =>
        cases h
        exact .inr ⟨⟨rfl, fun d hd => update_of_ne hd _ _, fun _ _ => rfl⟩,
          by simp [launch, publish, SchedAction.cpu, hc]⟩
      | spawn prio =>
        cases h
        exact .inr (.of_eq hc rfl rfl rfl)
    · cases h
  | idleFlush c =>
    simp only [actStep] at h
    split at h
    · obtain ⟨s1, hf, rfl⟩ := map_eq_some_iff.mp h
      exact .inr (.goto (.flush hf) (by simp))
    · cases h
  | reap c =>
    refine .inl ⟨?_, rfl⟩
    simp only [actStep] at h
    split at h
    · unfold reapStep at h
      repeat' split at h
      all_goals first
        | (cases h; done)
        | (cases h; exact ⟨rfl, fun _ _ => rfl, fun d hd => update_of_ne hd _ _⟩)
        | (obtain ⟨r, -, rfl⟩ := map_eq_some_iff.mp h
           exact ⟨rfl, fun _ _ => rfl, fun d hd => update_of_ne hd _ _⟩)
    · cases h

/-! ## Where a process can be -/

/-- A CPU that is not there does nothing. -/
def Bounded (s : Sched) : Prop := ∀ c, s.ncpus ≤ c → s.pc c = .exec ∧ s.current c = none

theorem Bounded.boot (n : ℕ) : Bounded (Sched.boot n) := fun _ _ => ⟨rfl, rfl⟩

theorem Bounded.step (h : Bounded s) (hs : schedStep s a = some s') : Bounded s' := by
  intro c hc
  obtain ⟨hon, -⟩ := actsOn_of_schedStep hs
  rw [hon.ncpus] at hc
  have hlt : a.cpu < s.ncpus := (ite_none_right_eq_some.mp hs).1
  have hne : c ≠ a.cpu := by omega
  rw [hon.pc c hne, hon.current c hne]
  exact h c hc

/-- Out of one list and not yet in the next: with a waker, on its way off a CPU, or with a
`kill`. -/
def InTransit (s : Sched) (p : ℕ) : Prop :=
  p ∈ s.inFlight ∨ (∃ c < s.ncpus, (s.seat c).prev = some p) ∨
    ∃ t < s.lastId + 1, s.cont t = .killPark p

instance (s : Sched) (p : ℕ) : Decidable (s.InTransit p) :=
  inferInstanceAs (Decidable (_ ∨ _ ∨ _))

/-- In a list, on a CPU, or in transit. -/
def Present (s : Sched) (p : ℕ) : Prop :=
  (p ∈ s.queue ∨ p ∈ s.sleepers ∨ p ∈ s.waiting ∨ p ∈ s.zombies) ∨
    (∃ c < s.ncpus, s.current c = some p) ∨ s.InTransit p

instance (s : Sched) (p : ℕ) : Decidable (s.Present p) := inferInstanceAs (Decidable (_ ∨ _ ∨ _))

theorem Bounded.present (hb : Bounded s) (h : Placed s) (hl : s.Live p) : s.Present p := by
  have hlt : ∀ {c}, (s.pc c ≠ .exec ∨ s.current c ≠ none) → c < s.ncpus := fun hne =>
    Nat.lt_of_not_le fun hle => hne.elim (absurd (hb _ hle).1) (absurd (hb _ hle).2)
  obtain hl | hl | ⟨c, hl | hl⟩ | ⟨t, hl⟩ := hl
  · obtain hl | hl | hl | hl := Placed.mem_places.mp hl
    · exact .inl (.inl hl)
    · exact .inl (.inr (.inl hl))
    · exact .inl (.inr (.inr (.inl hl)))
    · exact .inr (.inr (.inl hl))
  · exact .inl (.inr (.inr (.inr hl)))
  · exact .inr (.inl ⟨c, hlt (.inr (by simp [hl])), hl⟩)
  · refine .inr (.inr (.inr (.inl ⟨c, hlt (.inl fun hc => ?_), hl⟩)))
    rw [seat, hc] at hl
    cases hl
  · refine .inr (.inr (.inr (.inr ⟨t, Nat.lt_of_not_le fun hle => ?_, hl⟩)))
    rw [h.quiet t (by omega)] at hl
    cases hl

/-! ## The scan -/

/-- **A scan that nothing disturbs**: as long as the parent it looks for is present, it is not
interrupted, and it does not begin while the parent is in transit. -/
def QuietScan (s : Sched) (a : SchedAction) : Prop :=
  match s.pc 0 with
  | .reap (.judge (k :: _) pos _) => k.task.parent ≠ 0 → s.Present k.task.parent →
    if pos = .cpu 0 then a = .reap 0 → ¬ s.InTransit k.task.parent else a = .reap 0
  | _ => True

instance (s : Sched) (a : SchedAction) : Decidable (s.QuietScan a) := by
  unfold QuietScan
  split <;> infer_instance

/-- The process was at none of the places before this one. -/
def Unseen (s : Sched) (p : ℕ) : ScanPos → Prop
  | .cpu i => ∀ j < i, s.current j ≠ some p
  | .queue => ∀ j < s.ncpus, s.current j ≠ some p
  | .sleeping => (∀ j < s.ncpus, s.current j ≠ some p) ∧ p ∉ s.queue
  | .waiters => ((∀ j < s.ncpus, s.current j ≠ some p) ∧ p ∉ s.queue) ∧ p ∉ s.sleepers
  | .zombies => (((∀ j < s.ncpus, s.current j ≠ some p) ∧ p ∉ s.queue) ∧ p ∉ s.sleepers) ∧
      p ∉ s.waiting

theorem Unseen.next {pos pos' : ScanPos} (h : s.Unseen p pos) (hhit : s.scanHit p pos = false)
    (hnext : s.scanNext pos = some pos') : s.Unseen p pos' := by
  cases pos with
  | cpu i =>
    have hi : s.current i ≠ some p := fun hc => by simp [scanHit, hc] at hhit
    have hupto : ∀ j < i + 1, s.current j ≠ some p := fun j hj =>
      (Nat.lt_succ_iff_lt_or_eq.mp hj).elim (h j) fun hji => hji ▸ hi
    simp only [scanNext, Option.some_inj] at hnext
    split_ifs at hnext with hlt
    · exact hnext ▸ hupto
    · exact hnext ▸ fun j hj => hupto j (by omega)
  | queue | sleeping | waiters =>
    cases hnext
    exact ⟨h, by simpa [scanHit] using hhit⟩
  | zombies => cases hnext

/-- What a scan under way has not found is not behind it, if it is there at all. -/
def Scanned (s : Sched) : Prop := ∀ k ks pos idx, s.pc 0 = .reap (.judge (k :: ks) pos idx) →
  k.task.parent ≠ 0 → pos ≠ .cpu 0 → s.Live k.task.parent →
    ¬ s.InTransit k.task.parent ∧ s.Unseen k.task.parent pos

theorem Scanned.boot (n : ℕ) : Scanned (Sched.boot n) := by
  intro k ks pos idx hpc
  simp [Sched.boot] at hpc

theorem judge_of_goto {ks ks' idx idx' : List Candidate} {pos pos' : ScanPos}
    (h : (s.goto c (.reap (.judge ks' pos' idx'))).pc c = .reap (.judge ks pos idx)) :
    ks = ks' ∧ pos = pos' ∧ idx = idx' := by
  simpa [goto, eq_comm] using h

/-- The scan goes on to its next place. -/
theorem next_of_reapStep {st : ReapStage} {k : Candidate} {ks idx : List Candidate} {pos : ScanPos}
    (hs : s.reapStep c st = some s') (hpc : s'.pc c = .reap (.judge (k :: ks) pos idx))
    (hpos : pos ≠ .cpu 0) : ∃ pos0, st = .judge (k :: ks) pos0 idx ∧
      s.scanHit k.task.parent pos0 = false ∧ s.scanNext pos0 = some pos ∧
      s' = s.goto c (.reap (.judge (k :: ks) pos idx)) := by
  unfold Sched.reapStep at hs
  split at hs
  case h_7 k0 ks0 pos0 idx0 =>
    split_ifs at hs with hzero hhit
    · cases hs
      exact absurd (judge_of_goto hpc).2.1 hpos
    · cases hs
      exact absurd (judge_of_goto hpc).2.1 hpos
    · split at hs
      · rename_i pos' hnext
        cases hs
        obtain ⟨hks, rfl, rfl⟩ := judge_of_goto hpc
        cases hks
        exact ⟨pos0, rfl, by simpa using hhit, hnext, rfl⟩
      · cases hs
        exact absurd (judge_of_goto hpc).2.1 hpos
  case h_5 =>
    cases hs
    exact absurd (judge_of_goto hpc).2.1 hpos
  case h_8 =>
    obtain ⟨r, -, rfl⟩ := map_eq_some_iff.mp hs
    simp [goto] at hpc
  case h_4 =>
    cases (ite_none_right_eq_some.mp hs).2
    simp [goto] at hpc
  all_goals
    cases hs
    simp [goto] at hpc

/-- The reaper's own turns move nobody. -/
theorem seat_goto_reap {st : ReapStage} (st' : ReapStage) (hc : s.pc c = .reap st) :
    (s.goto c (.reap st')).seat = s.seat := by
  funext d
  obtain rfl | hd := eq_or_ne d c
  · simp [seat, goto, hc, Pc.seat]
  · simp [seat, goto, hd]

/-- **One section keeps what the scan knows**, given that nobody comes back. -/
theorem Scanned.step (h : Scanned s) (hb : Bounded s) (hp : Placed s) (hq : s.QuietScan a)
    (hs : schedStep s a = some s') (hlive : ∀ k ks pos idx,
      s.pc 0 = .reap (.judge (k :: ks) pos idx) → s'.Live k.task.parent → s.Live k.task.parent) :
    Scanned s' := by
  intro k ks pos idx hpc hne hpos hl'
  by_cases ha : a = .reap 0
  · obtain rfl := ha
    have hact : s.actStep (.reap 0) = some s' := (ite_none_right_eq_some.mp hs).2
    simp only [actStep] at hact
    split at hact
    · rename_i st hc
      obtain ⟨pos0, rfl, hhit, hnext, rfl⟩ := next_of_reapStep hact hpc hpos
      have hl := hlive k ks pos0 idx hc hl'
      have hbefore : ¬ s.InTransit k.task.parent ∧ s.Unseen k.task.parent pos0 := by
        by_cases h0 : pos0 = .cpu 0
        · rw [QuietScan, hc] at hq
          have hq := hq hne (hb.present hp hl)
          rw [if_pos h0] at hq
          exact ⟨hq rfl, h0 ▸ fun j hj => absurd hj (Nat.not_lt_zero j)⟩
        · exact h k ks pos0 idx hc hne h0 hl
      refine ⟨?_, (hbefore.2.next hhit hnext : _)⟩
      have hseat := seat_goto_reap (.judge (k :: ks) pos idx) hc
      simp only [InTransit, hseat] at hbefore ⊢
      exact hbefore.1
    · cases hact
  -- another section has left the reaper where it was, in the midst of the scan
  · exfalso
    obtain ⟨hon, hor⟩ := actsOn_of_schedStep hs
    have hpc0 : s.pc 0 = .reap (.judge (k :: ks) pos idx) := by
      by_cases hcpu : a.cpu = 0
      · rw [hcpu] at hor
        exact absurd hpc ((hor.resolve_left ha).aside _ _ _)
      · rw [← hon.pc 0 (Ne.symm hcpu), hpc]
    rw [QuietScan, hpc0] at hq
    have hq := hq hne (hb.present hp (hlive k ks pos idx hpc0 hl'))
    rw [if_neg hpos] at hq
    exact ha hq

/-- **A scan that comes to its end has looked for a process that is nowhere.** -/
theorem Scanned.exactScan (h : Scanned s) (hb : Bounded s) (hp : Placed s)
    (hr : ∀ c st, s.pc c = .reap st → c = 0) (a : SchedAction) : s.ExactScan a := by
  intro p hm hl
  cases a with
  | reap c =>
    simp only [misses] at hm
    split at hm
    · rename_i k ks pos idx hc
      obtain rfl := hr c _ hc
      split_ifs at hm with hcond
      · obtain ⟨hne, hhit, hnext⟩ := hcond
        obtain rfl := Option.mem_some.mp hm
        obtain rfl : pos = .zombies := by
          cases pos <;> first | rfl | cases hnext
        obtain ⟨htr, ⟨⟨hcpu, hqu⟩, hsl⟩, hwt⟩ := h k ks _ idx hc hne (by simp) hl
        have hz : k.task.parent ∉ s.zombies := by simpa [scanHit] using hhit
        obtain (hx | hx | hx | hx) | ⟨c, hc, hx⟩ | hx := hb.present hp hl
        · exact hqu hx
        · exact hsl hx
        · exact hwt hx
        · exact hz hx
        · exact hcpu c hc hx
        · exact htr hx
      · cases hm
    · cases hm
  | _ => cases hm

end Sched

end Bedrock
