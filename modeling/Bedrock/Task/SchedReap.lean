import Bedrock.Task.SchedDead

/-!
# Task/SchedReap — the reaper waits for the hand-off

`reap_one` frees a task's stack and root, so no CPU may own the task, have it queued or name it as
its current one.  Tasks reach it on two routes:

    ZOMBIES --wait--▸ RECLAIM --drain--------------▸ reap_one
       |                                                ▴
       └--scan--▸ (index, task) --judge--▸ remove ------┘

On the first nothing waits for the CPU that is leaving the task: `wait` may take it out of `ZOMBIES`
before `switch_to` has cleared `owner_cpu`.  On the second the owner is checked when the zombie is
recorded, but it is removed by its position, which shifts when `wait` takes another zombie in
between.  `handOff_of_clean` says that these two windows, and the two of `kill`, are all.
-/

namespace Bedrock

open List Function

/-- The candidates of the orphan pass, last position first. -/
def Pc.recorded : Pc → List Candidate
  | .reap (.judge todo _ idx) => todo.reverse ++ idx
  | .reap (.remove idx) => idx
  | _ => []

/-- The tasks the reaper is about to free. -/
def Pc.freeing : Pc → List ℕ
  | .reap (.free ps _) => ps
  | _ => []

namespace Sched

variable {R : Rules} {s s' : Sched} {c p : ℕ}

/-! ## Positions -/

/-- The candidates stand where they were found, last position first. -/
def Record (zombies : List ℕ) (ks : List Candidate) : Prop :=
  ks.Pairwise (fun a b => b.index < a.index) ∧ ∀ k ∈ ks, zombies[k.index]? = some k.pid

namespace Record

variable {zombies zombies' : List ℕ} {ks ks' : List Candidate}

theorem nil : Record zombies [] := ⟨.nil, fun k hk => by simp at hk⟩

theorem sublist (h : Record zombies ks) (hs : ks'.Sublist ks) : Record zombies ks' :=
  ⟨h.1.sublist hs, fun k hk => h.2 k (hs.subset hk)⟩

theorem append (h : Record zombies ks) (hz : zombies <+: zombies') : Record zombies' ks := by
  refine ⟨h.1, fun k hk => ?_⟩
  obtain ⟨new, rfl⟩ := hz
  obtain ⟨hlt, -⟩ := List.getElem?_eq_some_iff.mp (h.2 k hk)
  rw [getElem?_append_left hlt]
  exact h.2 k hk

/-- Removing the last position shifts none of the others. -/
theorem eraseIdx {k : Candidate} (h : Record zombies (k :: ks)) :
    Record (zombies.eraseIdx k.index) ks := by
  obtain ⟨hlt, hpw⟩ := pairwise_cons.mp h.1
  refine ⟨hpw, fun k' hk' => ?_⟩
  rw [getElem?_eraseIdx_of_lt (hlt k' hk')]
  exact h.2 k' (mem_cons_of_mem _ hk')

/-- **The removal is in bounds, and takes out the very tasks that were recorded.** -/
theorem removeAll : ∀ {ks : List Candidate} {zombies : List ℕ}, Record zombies ks →
    ∃ zombies', removeAll zombies (ks.map Candidate.index)
      = some (zombies', ks.map Candidate.pid)
  | [], zombies, _ => ⟨zombies, rfl⟩
  | k :: ks, zombies, h => by
    obtain ⟨zombies', hrest⟩ := removeAll h.eraseIdx
    refine ⟨zombies', ?_⟩
    have hk : zombies[k.index]? = some k.pid := h.2 k mem_cons_self
    simp only [map_cons, Sched.removeAll, hk, hrest, Option.map_some]

end Record

theorem mem_candidatesFrom {task : ℕ → SchedTask} {k : Candidate} :
    ∀ {zs : List ℕ} {i : ℕ}, k ∈ candidatesFrom task i zs →
      i ≤ k.index ∧ zs[k.index - i]? = some k.pid ∧ k.task = task k.pid ∧
      (task k.pid).owner = none ∧ (task k.pid).queued = false
  | [], i, hk => by simp [candidatesFrom] at hk
  | z :: zs, i, hk => by
    have htail : k ∈ candidatesFrom task (i + 1) zs → i ≤ k.index ∧
        (z :: zs)[k.index - i]? = some k.pid ∧ k.task = task k.pid ∧
        (task k.pid).owner = none ∧ (task k.pid).queued = false := fun hk => by
      obtain ⟨hi, hz, hrest⟩ := mem_candidatesFrom hk
      refine ⟨by omega, ?_, hrest⟩
      rw [show k.index - i = (k.index - (i + 1)) + 1 by omega]
      exact hz
    simp only [candidatesFrom] at hk
    split_ifs at hk with hfree
    · obtain rfl | hk := mem_cons.mp hk
      · exact ⟨Nat.le_refl _, by simp, rfl, hfree⟩
      · exact htail hk
    · exact htail hk

theorem pairwise_candidatesFrom (task : ℕ → SchedTask) : ∀ (zs : List ℕ) (i : ℕ),
    (candidatesFrom task i zs).Pairwise fun a b => a.index < b.index
  | [], _ => .nil
  | z :: zs, i => by
    simp only [candidatesFrom]
    split_ifs with hfree
    · refine .cons (fun k hk => ?_) (pairwise_candidatesFrom task zs (i + 1))
      exact (mem_candidatesFrom hk).1
    · exact pairwise_candidatesFrom task zs (i + 1)

theorem record_candidatesFrom (task : ℕ → SchedTask) (zs : List ℕ) :
    Record zs (candidatesFrom task 0 zs).reverse := by
  refine ⟨pairwise_reverse.mpr (pairwise_candidatesFrom task zs 0), fun k hk => ?_⟩
  exact (mem_candidatesFrom (mem_reverse.mp hk)).2.1

/-! ## What a move does to the reaper -/

/-- A move that is not one of the reaper's. -/
structure Aside (R : Rules) (s s' : Sched) : Prop where
  pc : ∀ d, s'.pc d = s.pc d ∨ ∀ st, s'.pc d ≠ .reap st
  zombies : s.zombies <+: s'.zombies ∨ (R.steadyPass → ¬ MidPass (s.pc 0))

namespace Aside

theorem still (hpc : s'.pc = s.pc) (hz : s.zombies <+: s'.zombies) : Aside R s s' :=
  ⟨fun d => .inl (congrFun hpc d), .inl hz⟩

theorem away {pc : Pc} (hpc : s'.pc = update s.pc c pc) (hn : ∀ st, pc ≠ .reap st)
    (hz : s.zombies <+: s'.zombies) : Aside R s s' := by
  refine ⟨fun d => ?_, .inl hz⟩
  rw [hpc]
  obtain rfl | hd := eq_or_ne d c
  · exact .inr (by simpa using hn)
  · exact .inl (by simp [hd])

end Aside

/-- The reaper's own moves. -/
inductive Reaps (R : Rules) (s : Sched) : Sched → Prop
  | start : Reaps R s (s.goto 0 (.reap .drain))
  | drain (c : ℕ) : s.pc c = .reap .drain →
      Reaps R s ({ s with reclaim := [] }.goto c (.reap (.free s.reclaim false)))
  | verdict (c : ℕ) (st st' : ReapStage) : s.pc c = .reap st → Verdict R s st st' →
      Reaps R s (s.goto c (.reap st'))
  | remove (c : ℕ) (idx : List Candidate) (zombies freed : List ℕ) :
      s.pc c = .reap (.remove idx) →
      removeAll s.zombies (idx.map Candidate.index) = some (zombies, freed) →
      Reaps R s ({ s with zombies := zombies }.goto c (.reap (.free freed true)))

theorem PassTurn.ne_reap {pc pc' : Pc} (ht : PassTurn s c pc pc') (st : ReapStage) :
    pc' ≠ .reap st := by
  rintro rfl
  cases ht

/-- **Every move is the reaper's or leaves it alone.** -/
theorem Move.reaps_or_aside (m : Move R s s') : Reaps R s s' ∨ Aside R s s' := by
  have hz : s.zombies <+: s.zombies := prefix_rfl
  cases m with
  | pass c pc ht => exact .inr (.away rfl ht.ne_reap hz)
  | idle c pc hc hcur hpc =>
    obtain rfl | ⟨rfl, rfl⟩ := hpc
    · exact .inr (.away rfl (by simp) hz)
    · exact .inl .start
  | drain c hc => exact .inl (.drain c hc)
  | verdict c st st' hc hv => exact .inl (.verdict c st st' hc hv)
  | remove c idx zombies freed hc hrm => exact .inl (.remove c idx zombies freed hc hrm)
  | parkZombie c p hc => exact .inr (.away rfl (by simp) (prefix_append _ _))
  | killPark c p pid hr hk => exact .inr (.still rfl (prefix_append _ _))
  | consume c p child hr hk hz ho hpass => exact .inr ⟨fun d => .inl rfl, .inr hpass⟩
  | claim c n credit prev pc hc hn ho hpc =>
    refine .inr (.away rfl ?_ hz)
    rcases hpc with rfl | ⟨p, rfl, rfl, -⟩ <;> simp
  | vacate c prev pc hc hpc =>
    refine .inr (.away rfl ?_ hz)
    rcases hpc with ⟨rfl, rfl⟩ | rfl | ⟨p, rfl, rfl, -⟩ <;> simp
  | _ => first | exact .inr (.still rfl hz) | exact .inr (.away rfl (by simp) hz)

/-! ## The record -/

/-- The reaper runs on the boot CPU, and its record is good. -/
structure Recorded (s : Sched) : Prop where
  reaper : ∀ c st, s.pc c = .reap st → c = 0
  record : Record s.zombies (s.pc 0).recorded

namespace Recorded

theorem recorded_of_ne_reap {pc : Pc} (h : ∀ st, pc ≠ .reap st) : pc.recorded = [] := by
  cases pc with
  | reap st => exact absurd rfl (h st)
  | _ => rfl

theorem recorded_of_not_midPass {pc : Pc} (h : ¬ MidPass pc) : pc.recorded = [] := by
  match pc with
  | .reap (.judge _ _ _) | .reap (.remove _) => exact absurd trivial h
  | .reap .drain | .reap (.free _ _) | .reap .scan | .exec | .sched _ | .idleFlush => rfl

/-- The reaper's turns record nobody new but at the scan. -/
theorem recorded_verdict {st st' : ReapStage} (hv : Verdict R s st st') :
    (Pc.reap st').recorded.Sublist (Pc.reap st).recorded ∨
      (Pc.reap st').recorded = (candidatesFrom s.task 0 s.zombies).reverse := by
  cases hv with
  | candidates => exact .inr (by simp [Pc.recorded])
  | keep k ks idx pos =>
    refine .inl ?_
    simp only [Pc.recorded, reverse_cons, append_assoc]
    exact (List.Sublist.refl _).append (sublist_append_right _ _)
  | orphan k ks idx pos hk => exact .inl (by simp [Pc.recorded])
  | _ => exact .inl (.refl _)

theorem reaper_goto (h : Recorded s) {st : ReapStage} (hc : c = 0) :
    ∀ d st', (s.goto c (.reap st)).pc d = .reap st' → d = 0 := by
  intro d st' hd
  by_cases hdc : d = c
  · rw [hdc, hc]
  · exact h.reaper d st' (by simpa [goto, hdc] using hd)

theorem reaps (h : Recorded s) (m : Reaps R s s') : Recorded s' := by
  cases m with
  | start =>
    exact ⟨h.reaper_goto rfl, by simpa [goto, Pc.recorded] using Record.nil⟩
  | drain c hc | remove c idx zombies freed hc hrm =>
    obtain rfl := h.reaper c _ hc
    exact ⟨h.reaper_goto rfl, by simpa [goto, Pc.recorded] using Record.nil⟩
  | verdict c st st' hc hv =>
    obtain rfl := h.reaper c _ hc
    refine ⟨h.reaper_goto rfl, ?_⟩
    have hrec := h.record
    rw [hc] at hrec
    simp only [goto, update_self]
    obtain hsub | heq := recorded_verdict hv
    · exact hrec.sublist hsub
    · rw [heq]
      exact record_candidatesFrom s.task s.zombies

theorem aside (hR : R.steadyPass) (h : Recorded s) (m : Aside R s s') : Recorded s' := by
  refine ⟨fun d st hd => ?_, ?_⟩
  · obtain hpc | hpc := m.pc d
    · exact h.reaper d st (hpc ▸ hd)
    · exact absurd hd (hpc st)
  · obtain hpc | hpc := m.pc 0
    · rw [hpc]
      obtain hz | hz := m.zombies
      · exact h.record.append hz
      · rw [recorded_of_not_midPass (hz hR)]
        exact .nil
    · rw [recorded_of_ne_reap hpc]
      exact .nil

theorem move (hR : R.steadyPass) (h : Recorded s) (m : Move R s s') : Recorded s' :=
  m.reaps_or_aside.elim h.reaps (h.aside hR)

theorem boot (n : ℕ) : Recorded (Sched.boot n) :=
  ⟨fun c st hc => by simp [Sched.boot] at hc, .nil⟩

theorem mem_zombies (h : Recorded s) {k : Candidate} (hk : k ∈ (s.pc 0).recorded) :
    k.pid ∈ s.zombies :=
  mem_of_getElem? (h.record.2 k hk)

theorem freed_eq (h : Recorded s) {idx : List Candidate} {zombies freed : List ℕ}
    (hc : s.pc c = .reap (.remove idx))
    (hrm : removeAll s.zombies (idx.map Candidate.index) = some (zombies, freed)) :
    freed = idx.map Candidate.pid := by
  obtain rfl := h.reaper c _ hc
  have hrec := h.record
  rw [hc] at hrec
  obtain ⟨zombies', hall⟩ := Record.removeAll hrec
  exact (Prod.mk.inj (Option.some.inj (hrm.symm.trans hall))).2

end Recorded

/-! ## What a move does on the way to `RECLAIM` -/

/-- A zombie that `wait` holds was taken by the waiter itself. -/
theorem Move.waitReclaim (m : Move R s s') {t q : ℕ} (hq : s'.cont t = .waitReclaim q) :
    s.cont t = .waitReclaim q ∨ q ∈ s.zombies ∧ s.cont t = .waitTake q ∧
      (R.consumeReleased → (s.task q).owner = none) ∧ (t, q) ∈ s'.consumed := by
  have hset : ∀ {p : ℕ} {k : Cont}, (∀ q, k ≠ .waitReclaim q) →
      update s.cont p k t = .waitReclaim q → s.cont t = .waitReclaim q := by
    intro p k hk hq
    obtain rfl | ht := eq_or_ne t p
    · exact absurd (by simpa using hq) (hk q)
    · simpa [ht] using hq
  cases m with
  | consume c p child hr hk hz ho hpass =>
    obtain rfl | ht := eq_or_ne t p
    · obtain rfl : child = q := by simpa [setCont] using hq
      exact .inr ⟨hz, hk, ho, mem_cons_self⟩
    · exact .inl (by simpa [setCont, ht] using hq)
  | cont c p k hr ht =>
    refine .inl (hset (k := k) (fun q hk => ?_) hq)
    subst hk
    generalize s.cont p = k0 at ht
    cases ht with
    | plain h1 h2 _ => exact h2
  | mark c p k hr hpl hk _ =>
    refine .inl (hset (k := k) (fun q hkq => ?_) hq)
    subst hkq
    exact hk
  | _ => first | exact .inl hq | exact .inl (hset (by simp) hq)

theorem Move.reclaimed (m : Move R s s') {q : ℕ} (hq : q ∈ s'.reclaim) :
    q ∈ s.reclaim ∨ ∃ t, s.cont t = .waitReclaim q := by
  cases m with
  | reclaim c p child hr hk =>
    obtain hq | hq := mem_append.mp hq
    · exact .inl hq
    · exact .inr ⟨p, by rw [hk, mem_singleton.mp hq]⟩
  | drain c hc => simp [goto] at hq
  | _ => exact .inl hq

/-- The tasks on the last stretch to `reap_one`. -/
def Retired (s : Sched) (p : ℕ) : Prop :=
  p ∈ s.reclaim ∨ (∃ t, s.cont t = .waitReclaim p) ∨ (∃ c, p ∈ (s.pc c).freeing) ∨
    ∃ k ∈ (s.pc 0).recorded, k.pid = p

/-- …are owned by nobody. -/
def Released (s : Sched) : Prop := ∀ p, s.Retired p → (s.task p).owner = none

theorem Retired.doomed (hr : Recorded s) (h : s.Retired p) : s.Doomed p := by
  obtain h | ⟨t, h⟩ | ⟨c, h⟩ | ⟨k, hk, rfl⟩ := h
  · exact .inr (.inl h)
  · exact .inr (.inr (.inr ⟨t, by rw [h]; simp [Cont.burying]⟩))
  · refine .inr (.inr (.inl ⟨c, ?_⟩))
    generalize s.pc c = pc at h
    cases pc with
    | reap st =>
      cases st with
      | free ps o => exact h
      | _ => simp [Pc.freeing] at h
    | _ => simp [Pc.freeing] at h
  · exact .inl (hr.mem_zombies hk)

theorem freeing_of_ne_reap {pc : Pc} (h : ∀ st, pc ≠ .reap st) : pc.freeing = [] := by
  cases pc with
  | reap st => exact absurd rfl (h st)
  | _ => rfl

theorem Move.owner_eq_none (m : Move R s s') (hP : Placed s) (hB : Buried s) (hd : s.Doomed p)
    (ho : (s.task p).owner = none) : (s'.task p).owner = none := by
  have hmod : ∀ {n : ℕ} {t : SchedTask}, t.owner = (s.task n).owner ∨ t.owner = none ∨ n ≠ p →
      (update s.task n t p).owner = none := by
    intro n t ht
    obtain rfl | hpn := eq_or_ne p n
    · rw [update_self]
      obtain ht | ht | ht := ht
      · exact ht.trans ho
      · exact ht
      · exact absurd rfl ht
    · simpa [hpn] using ho
  have hclaim : ∀ {n : ℕ}, n ∈ s.queue → n ≠ p := by
    rintro n hn rfl
    exact hB.away n hd (Placed.mem_places.mpr (.inl hn))
  have hrun : ∀ {d n : ℕ}, s.Running d n → n ≠ p := by
    rintro d n hr rfl
    exact hB.not_doomed_of_running hP hr hd
  have hnew : s.lastId + 1 ≠ p := by
    rintro rfl
    exact absurd (hB.known _ hd) (Nat.not_succ_le_self _)
  cases m with
  | wake sleeping waiters waking task hw =>
    show (task p).owner = none
    rcases hw.task p with hp | hp <;> rw [hp] <;> exact ho
  | flush w hdue =>
    show (if p ∈ s.due w then (s.task p).woken else s.task p).owner = none
    split_ifs <;> exact ho
  | unpark c n child hr hk | recover c n child hr hk => exact hmod (.inr (.inr (hrun hr)))
  | claim c n credit prev pc hc hn hown hpc => exact hmod (.inr (.inr (hclaim hn)))
  | swap c n credit q hc hn hown hdead hz =>
    have hcl : (((s.claim c n credit).goto c (.sched (.switch (some q)))).task p).owner = none :=
      hmod (.inr (.inr (hclaim hn)))
    obtain rfl | hpq := eq_or_ne p q
    · simpa [requeue, modTask] using hcl
    · simpa [requeue, modTask, hpq] using hcl
  | resume c q hc =>
    have hcl : ((s.clearWake q).task p).owner = none := hmod (.inl rfl)
    obtain rfl | hpq := eq_or_ne p q
    · simpa [modTask, goto, publish, setState] using hcl
    · simpa [modTask, goto, publish, setState, hpq] using hcl
  | spawn prio parent hpar => simpa [Sched.spawn, hnew.symm] using ho
  | launch c hc hcur => simpa [Sched.launch, hnew.symm] using ho
  | _ => first | exact ho | exact hmod (.inl rfl) | exact hmod (.inr (.inl rfl))

theorem mem_freeing_goto {pc : Pc} {d : ℕ} (hp : p ∈ ((s.goto c pc).pc d).freeing) :
    p ∈ pc.freeing ∨ p ∈ (s.pc d).freeing := by
  obtain rfl | hd := eq_or_ne d c
  · exact .inl (by simpa [goto] using hp)
  · exact .inr (by simpa [goto, hd] using hp)

/-- What the reaper retires it had retired before, or finds among the zombies unowned. -/
theorem Reaps.retired (m : Reaps R s s') (hr : Recorded s)
    (hp : (∃ c, p ∈ (s'.pc c).freeing) ∨ ∃ k ∈ (s'.pc 0).recorded, k.pid = p) :
    s.Retired p ∨ p ∈ s.zombies ∧ (s.task p).owner = none := by
  have hfree : ∀ d, p ∈ (s.pc d).freeing → s.Retired p := fun d hd => .inr (.inr (.inl ⟨d, hd⟩))
  cases m with
  | start =>
    obtain ⟨d, hp⟩ | ⟨k, hk, rfl⟩ := hp
    · exact (mem_freeing_goto hp).elim (by simp [Pc.freeing]) fun hp => .inl (hfree d hp)
    · simp [goto, Pc.recorded] at hk
  | drain c hc =>
    obtain rfl := hr.reaper c _ hc
    obtain ⟨d, hp⟩ | ⟨k, hk, rfl⟩ := hp
    · exact .inl ((mem_freeing_goto hp).elim .inl (hfree d))
    · simp [goto, Pc.recorded] at hk
  | verdict c st st' hc hv =>
    obtain rfl := hr.reaper c _ hc
    obtain ⟨d, hp⟩ | ⟨k, hk, rfl⟩ := hp
    · refine .inl ((mem_freeing_goto hp).elim (fun hp => hfree 0 ?_) (hfree d))
      rw [hc]
      cases hv with
      | freed p ps orphans => exact mem_cons_of_mem _ hp
      | _ => simp [Pc.freeing] at hp
    · simp only [goto, update_self] at hk
      obtain hsub | heq := Recorded.recorded_verdict hv
      · exact .inl (.inr (.inr (.inr ⟨k, by rw [hc]; exact hsub.subset hk, rfl⟩)))
      · rw [heq] at hk
        obtain ⟨-, hz, -, hfound⟩ := mem_candidatesFrom (mem_reverse.mp hk)
        exact .inr ⟨mem_of_getElem? hz, hfound.1⟩
  | remove c idx zombies freed hc hrm =>
    have hfreed := hr.freed_eq hc hrm
    obtain rfl := hr.reaper c _ hc
    obtain ⟨d, hp⟩ | ⟨k, hk, rfl⟩ := hp
    · refine .inl ((mem_freeing_goto hp).elim (fun hp => ?_) (hfree d))
      obtain ⟨k, hk, rfl⟩ := mem_map.mp (hfreed ▸ (show p ∈ freed from hp))
      exact .inr (.inr (.inr ⟨k, by rw [hc]; exact hk, rfl⟩))
    · simp [goto, Pc.recorded] at hk

/-- …and so does every move, when `wait` takes no zombie that a CPU owns. -/
theorem Move.retired (hR : R.consumeReleased) (m : Move R s s') (hr : Recorded s)
    (hp : s'.Retired p) : s.Retired p ∨ p ∈ s.zombies ∧ (s.task p).owner = none := by
  obtain hp | ⟨t, hp⟩ | hp := hp
  · exact .inl ((m.reclaimed hp).imp id .inl)
  · obtain hp | ⟨hz, -, ho, -⟩ := m.waitReclaim hp
    · exact .inl (.inr (.inl ⟨t, hp⟩))
    · exact .inr ⟨hz, ho hR⟩
  · obtain m | m := m.reaps_or_aside
    · exact m.retired hr hp
    · refine .inl (.inr (.inr ?_))
      obtain ⟨d, hp⟩ | ⟨k, hk, rfl⟩ := hp
      · obtain hpc | hpc := m.pc d
        · exact .inl ⟨d, hpc ▸ hp⟩
        · simp [freeing_of_ne_reap hpc] at hp
      · obtain hpc | hpc := m.pc 0
        · exact .inr ⟨k, hpc ▸ hk, rfl⟩
        · simp [Recorded.recorded_of_ne_reap hpc] at hk

theorem Released.move (hR : R.consumeReleased) (h : Released s) (hP : Placed s) (hB : Buried s)
    (hr : Recorded s) (m : Move R s s') : Released s' := by
  intro p hp
  obtain hp | ⟨hz, ho⟩ := m.retired hR hr hp
  · exact m.owner_eq_none hP hB (hp.doomed hr) (h p hp)
  · exact m.owner_eq_none hP hB (.inl hz) ho

theorem Released.boot (n : ℕ) : Released (Sched.boot n) := fun _ _ => rfl

/-! ## The hand-off -/

/-- What `reap_one` asserts: no CPU owns the task, it is not queued, and no CPU names it as its
current task. -/
def HandedOff (s : Sched) (p : ℕ) : Prop :=
  (s.task p).owner = none ∧ (s.task p).queued = false ∧ ∀ c, s.mirror c ≠ some p

/-- **`reap_one` is only entered with tasks that have been handed off.** -/
def HandOff (s : Sched) : Prop :=
  ∀ c p ps orphans, s.pc c = .reap (.free (p :: ps) orphans) → s.HandedOff p

theorem handedOff_of_retired (hP : Placed s) (hB : Buried s) (hr : Recorded s) (h : Released s)
    (hp : s.Retired p) : s.HandedOff p := by
  have ho := h p hp
  refine ⟨ho, ?_, fun c hm => ?_⟩
  · by_contra hq
    exact hB.away p (hp.doomed hr)
      (Placed.mem_places.mpr (.inl (hP.queued p (by simpa using hq))))
  · have hh : s.Holds c p := (hP.mirror c p hm).imp_right And.right
    simp [(hP.owner p c).mpr hh] at ho

/-- The rules of the hand-off: those of `kill`, and that `wait` takes a zombie neither while a CPU
owns it nor between the two halves of the orphan pass. -/
def CleanReap (s : Sched) (a : SchedAction) : Prop :=
  s.CleanKill a ∧ ∀ p ∈ s.consumes a, (s.task p).owner = none ∧ ¬ MidPass (s.pc 0)

instance MidPass.decidable (pc : Pc) : Decidable (MidPass pc) :=
  match pc with
  | .reap (.judge ..) | .reap (.remove _) => isTrue trivial
  | .reap .drain | .reap (.free ..) | .reap .scan | .exec | .sched _ | .idleFlush => isFalse id

instance CleanReap.decidable (s : Sched) (a : SchedAction) : Decidable (s.CleanReap a) :=
  inferInstanceAs (Decidable (s.CleanKill a ∧
    ∀ p ∈ s.consumes a, (s.task p).owner = none ∧ ¬ MidPass (s.pc 0)))

/-- The rules of the hand-off. -/
def reapRules : Rules := ⟨True, True, True, True, False⟩

theorem CleanReap.respects {a : SchedAction} (h : s.CleanReap a) : Respects reapRules s a where
  killAwake := fun _ => h.1.1
  killReleased := fun _ => h.1.2
  consumeReleased := fun _ p hp => (h.2 p hp).1
  steadyPass := fun _ p hp => (h.2 p hp).2
  exactScan := False.elim

/-- In every run whose sections are clean, `reap_one` is only entered with tasks that have been
handed off. -/
theorem handOff_of_clean (n : ℕ) (as : List SchedAction) (s : Sched)
    (hclean : RunMeets schedStep CleanReap (boot n) as)
    (hrun : run schedStep (boot n) as = some s) : HandOff s := by
  obtain ⟨hP, hB, hr, h⟩ := run_of_moves (R := reapRules)
    (fun s => Buried s ∧ Recorded s ∧ Released s) n
    (fun s s' hP ⟨hB, hr, h⟩ m => ⟨hB.move trivial trivial hP m, hr.move trivial m,
      h.move trivial hP hB hr m⟩)
    ⟨Buried.boot n, Recorded.boot n, Released.boot n⟩
    (hclean.mono fun _ _ => CleanReap.respects) hrun
  intro c p ps orphans hc
  exact handedOff_of_retired hP hB hr h
    (.inr (.inr (.inl ⟨c, by rw [hc]; exact mem_cons_self⟩)))

open SchedAction in
/-- The second process exits, and its CPU goes so many sections through `schedule`. -/
def exiting (sections : ℕ) : List SchedAction :=
  twoRunning ++ [begin 1 (.exit 7), call 1] ++ List.replicate sections (pass 1 0)

open SchedAction in
/-- The first process waits for it and goes to sleep; its CPU idles and drains `RECLAIM`. -/
def waitAndReap : List SchedAction :=
  [begin 0 (.wait 2)] ++ List.replicate 8 (call 0) ++ [begin 0 (.sleepUntil 100), call 0] ++
    List.replicate 10 (pass 0 0) ++ [idle 0 .reapDead, reap 0]

/-- The zombie is taken before its CPU has left it. -/
def reapedWhileLeaving : List SchedAction := exiting 10 ++ waitAndReap

/-- It reaches `reap_one` while its CPU owns it. -/
theorem reapedWhileLeaving_not_handOff :
    ∃ s, run schedStep (boot 2) reapedWhileLeaving = some s ∧ ¬ s.HandOff :=
  exists_of_any (fun s => s.pc 0 = .reap (.free [2] false) ∧ (s.task 2).owner = some 1)
    (by decide +kernel) fun s _ hend h => by simpa [hend.2] using (h 0 2 [] false hend.1).1

/-- The zombie is taken after its CPU has left it. -/
def reapedAfterLeaving : List SchedAction := exiting 13 ++ waitAndReap

/-- That run is clean. -/
theorem reapedAfterLeaving_handOff : RunMeets schedStep CleanReap (boot 2) reapedAfterLeaving ∧
    ∃ s, run schedStep (boot 2) reapedAfterLeaving = some s ∧
      s.pc 0 = .reap (.free [2] false) ∧ s.HandOff := by
  have hclean : RunMeets schedStep CleanReap (boot 2) reapedAfterLeaving := by decide +kernel
  refine ⟨hclean, exists_of_any (fun s => s.pc 0 = .reap (.free [2] false)) (by decide +kernel)
    fun s hs hend => ?_⟩
  exact ⟨hend, handOff_of_clean 2 reapedAfterLeaving s hclean hs⟩

end Sched

end Bedrock
