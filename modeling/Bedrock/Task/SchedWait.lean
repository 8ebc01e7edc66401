import Bedrock.Task.SchedSection

/-!
# Task/SchedWait — no wake-up of `wait` is lost

A parent lists itself in `WAITERS` and then looks for the zombie once more; the child's exit makes
the zombie and then looks at `WAITERS`.  Whichever comes second sees the other:

    parent   … mark -- list itself -- look for the zombie -- schedule …
    child         … make the zombie -- look at WAITERS: wake or flag …

`Woken` says that every listed waiter on a zombie is about to learn of it, by the exit that still
has to look, by its flag, or by its own second look.  It is kept by every move, so the stuck state
is not reachable (`not_stuck`), kills included.
-/

namespace Bedrock

open List

/-- No rule. -/
def Rules.free : Rules := ⟨False, False, False, False, False⟩

namespace Sched

variable {R : Rules} {s s' : Sched} {c p : ℕ}

/-- The process is in `ZOMBIES` or about to be, and its waiters have not been looked at yet. -/
def ExitPending (s : Sched) (pid : ℕ) : Prop :=
  (∃ c, s.pc c = .sched (.parkWake pid)) ∨ ∃ t, s.cont t = .wakeWaiters pid

/-- The task is in `wait` for this child, listed, and looks once more. -/
def Rechecks (s : Sched) (p child : ℕ) : Prop :=
  s.cont p = .waitRecheck child ∨ s.cont p = .waitUnpark child

/-- **A lost wake-up**: the child is a zombie and both steps of its exit are done, and the parent is
parked on it with nobody left to wake it. -/
structure Stuck (s : Sched) (p child : ℕ) : Prop where
  zombie : child ∈ s.zombies
  exited : ¬ s.ExitPending child
  listed : (p, child) ∈ s.waiters
  parked : (s.task p).state = .zzz
  unflagged : (s.task p).wakePending = false
  settled : ¬ s.Rechecks p child

/-- A waiter on a zombie is about to learn of it. -/
def Woken (s : Sched) : Prop :=
  ∀ p child, (p, child) ∈ s.waiters → child ∈ s.zombies →
    s.ExitPending child ∨ (s.task p).state ≠ .zzz ∨ (s.task p).wakePending = true ∨
      s.Rechecks p child

theorem Respects.free (s : Sched) (a : SchedAction) : Respects .free s a :=
  ⟨False.elim, False.elim, False.elim, False.elim, False.elim⟩

theorem ExitPending.frame {pid : ℕ} (h : s.ExitPending pid)
    (hpc : ∀ d, s'.pc d = s.pc d ∨ s.pc d ≠ .sched (.parkWake pid))
    (hcont : ∀ t, s'.cont t = s.cont t ∨ s.cont t ≠ .wakeWaiters pid) : s'.ExitPending pid := by
  obtain ⟨d, hd⟩ | ⟨t, ht⟩ := h
  · exact .inl ⟨d, ((hpc d).resolve_right (absurd hd)).trans hd⟩
  · exact .inr ⟨t, ((hcont t).resolve_right (absurd ht)).trans ht⟩

namespace Woken

variable (h : Woken s)
include h

/-- What a step must not do: list a waiter, make a zombie, mark or unflag a waiter, or drop the
duty to look at the waiters. -/
theorem mono (hw : ∀ e ∈ s'.waiters, e ∈ s.waiters) (hz : ∀ z ∈ s'.zombies, z ∈ s.zombies)
    (hp : ∀ pid, s.ExitPending pid → s'.ExitPending pid ∨ s'.Heard pid)
    (ht : ∀ q ∈ s'.waiting, ((s'.task q).state = .zzz → (s.task q).state = .zzz) ∧
      ((s.task q).wakePending = true → (s'.task q).wakePending = true))
    (hc : ∀ q child, (q, child) ∈ s'.waiters → child ∈ s'.zombies → s.Rechecks q child →
      s'.Rechecks q child) : Woken s' := by
  intro q child hq hcz
  have hqw : q ∈ s'.waiting := mem_map.mpr ⟨_, hq, rfl⟩
  obtain he | hst | hf | hr := h q child (hw _ hq) (hz _ hcz)
  · obtain he | hh := hp child he
    · exact .inl he
    · exact .inr (.inr (.inl (hh q hq)))
  · exact .inr (.inl fun hz => hst ((ht q hqw).1 hz))
  · exact .inr (.inr (.inl ((ht q hqw).2 hf)))
  · exact .inr (.inr (.inr (hc q child hq hcz hr)))

/-- …which is all there is to check when neither the lists nor the waiters' tasks change. -/
theorem frame (hw : s'.waiters = s.waiters) (hz : s'.zombies = s.zombies)
    (hp : ∀ pid, s.ExitPending pid → s'.ExitPending pid)
    (ht : ∀ q ∈ s.waiting, s'.task q = s.task q)
    (hc : ∀ q ∈ s.waiting, s'.cont q = s.cont q) : Woken s' := by
  have hwait : s'.waiting = s.waiting := congrArg (List.map Prod.fst) hw
  refine h.mono (by rw [hw]; exact fun e he => he) (by rw [hz]; exact fun z hz => hz)
    (fun pid he => .inl (hp pid he)) (fun q hq => ?_) (fun q child hq _ hr => ?_)
  · rw [ht q (hwait ▸ hq)]
    exact ⟨id, id⟩
  · rw [Rechecks, hc q (hwait ▸ mem_map.mpr ⟨_, hq, rfl⟩)]
    exact hr

theorem turn (pc : Pc) (hc : ∀ pid, s.pc c ≠ .sched (.parkWake pid)) : Woken (s.goto c pc) :=
  h.frame rfl rfl (fun pid he => he.frame (fun d => by
      obtain rfl | hd := eq_or_ne d c
      · exact .inr (hc pid)
      · exact .inl (by simp [goto, hd])) fun _ => .inl rfl)
    (fun _ _ => rfl) fun _ _ => rfl

/-- The task of a process that waits for nobody changes. -/
theorem modTask (p : ℕ) (f : SchedTask → SchedTask) (hp : p ∉ s.waiting) : Woken (s.modTask p f) :=
  h.frame rfl rfl (fun _ he => he) (fun q hq => by
    have hqp : q ≠ p := by rintro rfl; exact hp hq
    simp [Sched.modTask, hqp]) fun _ _ => rfl

/-- A waiter's task changes and it stays marked and flagged as it was. -/
theorem modTask' (p : ℕ) (f : SchedTask → SchedTask)
    (hst : (f (s.task p)).state = .zzz → (s.task p).state = .zzz)
    (hf : (s.task p).wakePending = true → (f (s.task p)).wakePending = true) :
    Woken (s.modTask p f) := by
  refine h.mono (fun _ he => he) (fun _ hz => hz) (fun _ he => .inl he) (fun q _ => ?_)
    fun q child _ _ hr => hr
  obtain rfl | hqp := eq_or_ne q p
  · simpa [Sched.modTask] using ⟨hst, hf⟩
  · simp [Sched.modTask, hqp]

/-- A task that waits for nobody, and owes no look at the waiters, goes on. -/
theorem setCont (p : ℕ) (k : Cont) (hp : p ∉ s.waiting)
    (hk : ∀ pid, s.cont p ≠ .wakeWaiters pid) : Woken (s.setCont p k) :=
  h.frame rfl rfl (fun pid he => he.frame (fun _ => .inl rfl) fun t => by
      obtain rfl | ht := eq_or_ne t p
      · exact .inr (hk pid)
      · exact .inl (by simp [Sched.setCont, ht]))
    (fun _ _ => rfl) fun q hq => by
      have hqp : q ≠ p := by rintro rfl; exact hp hq
      simp [Sched.setCont, hqp]

theorem thin {waiters : List (ℕ × ℕ)} (hw : waiters.Sublist s.waiters) :
    Woken { s with waiters := waiters } := by
  refine h.mono (fun e he => hw.subset he) (fun _ hz => hz) (fun pid he => .inl he)
    (fun q _ => ⟨id, id⟩) fun q child _ _ hr => hr

omit h in
theorem pc_ne_parkWake (hc : s.seat c = .exec) (pid : ℕ) : s.pc c ≠ .sched (.parkWake pid) := by
  rw [Pc.seat_eq_exec.mp hc]
  exact Pc.noConfusion

omit h in
theorem plain_ne_wakeWaiters {k : Cont} (hk : k.Plain) (pid : ℕ) : k ≠ .wakeWaiters pid := by
  rintro rfl
  exact hk

theorem pass {pc : Pc} (ht : PassTurn s c (s.pc c) pc) : Woken (s.goto c pc) := by
  generalize hpc : s.pc c = pc0 at ht
  cases ht with
  | heard p hh =>
    -- the duty ends here, with every waiter still listed flagged
    refine h.mono (fun _ he => he) (fun _ hz => hz) (fun pid he => ?_) (fun _ _ => ⟨id, id⟩)
      fun q child _ _ hr => hr
    obtain rfl | hpid := eq_or_ne pid p
    · exact .inr hh
    · refine .inl (he.frame (fun d => ?_) fun _ => .inl rfl)
      obtain rfl | hd := eq_or_ne d c
      · exact .inr (by rw [hpc]; simpa using Ne.symm hpid)
      · exact .inl (by simp [goto, hd])
  | early h1 h2 =>
    refine h.turn _ fun pid hp => ?_
    cases hpc.symm.trans hp
    cases h1
  | _ => exact h.turn _ fun pid => by rw [hpc]; simp

theorem cont (hP : Placed s) {k : Cont} (hr : s.Running c p)
    (ht : ContTurn s p (s.cont p) k) : Woken (s.setCont p k) := by
  generalize hk : s.cont p = k0 at ht
  cases ht with
  | plain h1 h2 _ =>
    exact h.setCont p _ (hP.notMem_parked hr (hk ▸ h1.notRechecking)).2
      (by rw [hk]; exact plain_ne_wakeWaiters h1)
  | recheck child =>
    refine h.mono (fun _ he => he) (fun _ hz => hz)
      (fun pid he => .inl (he.frame (fun _ => .inl rfl) fun t => ?_)) (fun _ _ => ⟨id, id⟩)
      fun q ch _ _ hrc => ?_
    · obtain rfl | ht := eq_or_ne t p
      · exact .inr (by simp [hk])
      · exact .inl (by simp [Sched.setCont, ht])
    · obtain rfl | hq := eq_or_ne q p
      · simp only [Rechecks, hk, Cont.waitRecheck.injEq, reduceCtorEq, or_false] at hrc
        exact .inr (by simp [Sched.setCont, hrc])
      · simpa [Rechecks, Sched.setCont, hq] using hrc
  | unqueue child hn => exact h.setCont p _ hn (by simp [hk])
  | heard pid hh =>
    have hp := (hP.notMem_parked hr (hk ▸ id)).2
    refine h.mono (fun _ he => he) (fun _ hz => hz) (fun pid' he => ?_) (fun _ _ => ⟨id, id⟩)
      fun q ch hq _ hrc => ?_
    · obtain rfl | hpid := eq_or_ne pid' pid
      · exact .inr hh
      · refine .inl (he.frame (fun _ => .inl rfl) fun t => ?_)
        obtain rfl | ht := eq_or_ne t p
        · exact .inr (by rw [hk]; simpa using Ne.symm hpid)
        · exact .inl (by simp [Sched.setCont, ht])
    · have hqp : q ≠ p := by rintro rfl; exact hp (mem_map.mpr ⟨_, hq, rfl⟩)
      simpa [Rechecks, Sched.setCont, hqp] using hrc

theorem commit {child : ℕ} (hr : s.Running c p) (hk : s.cont p = .waitRecheck child)
    (hz : child ∉ s.zombies) : Woken ((s.goto c (.sched .wake)).setCont p (.waitTake child)) := by
  have ht : Woken (s.goto c (.sched .wake)) := h.turn _ (pc_ne_parkWake hr.1)
  refine ht.mono (fun _ he => he) (fun _ hz => hz) (fun pid he => .inl (he.frame (fun _ => .inl rfl)
    fun t => ?_)) (fun _ _ => ⟨id, id⟩) fun q ch hq hcz hrc => ?_
  · obtain rfl | ht := eq_or_ne t p
    · exact .inr (by show s.cont t ≠ _; rw [hk]; simp)
    · exact .inl (by simp [Sched.setCont, ht])
  · obtain rfl | hqp := eq_or_ne q p
    · -- the zombie was not there, so the entry is not yet about one
      replace hrc : s.Rechecks q ch := hrc
      simp only [Rechecks, hk, Cont.waitRecheck.injEq, reduceCtorEq, or_false] at hrc
      exact absurd (hrc ▸ hcz) hz
    · simpa [Rechecks, Sched.setCont, hqp] using hrc

theorem wake {sleeping waiters : List (ℕ × ℕ)} {waking : List (Waker × ℕ)}
    {task : ℕ → SchedTask} (hw : Wakes s sleeping waiters waking task) :
    Woken { s with sleeping := sleeping, waiters := waiters, waking := waking, task := task } := by
  refine h.mono (fun e he => hw.waiters.subset he) (fun _ hz => hz) (fun _ he => .inl he)
    (fun q _ => ?_) fun q child _ _ hr => hr
  obtain hq | hq := hw.task q
  · exact ⟨fun hz => by rwa [← hq], fun hf => by rwa [← hq] at hf⟩
  · exact ⟨fun hz => by rw [show (_ : Sched).task q = _ from hq] at hz; exact hz,
      fun _ => by rw [show (_ : Sched).task q = _ from hq]; rfl⟩

theorem flushed (hP : Placed s) (w : Waker) : Woken (s.flushed w) := by
  refine h.frame rfl rfl (fun _ he => he) (fun q hq => ?_) fun _ _ => rfl
  rw [hP.flushed_parked (.inr hq)]

theorem waitPush (hP : Placed s) {child : ℕ} (hr : s.Running c p)
    (hk : s.cont p = .waitPush child) :
    Woken { s.setCont p (.waitRecheck child) with waiters := s.waiters ++ [(p, child)] } := by
  have hp := (hP.notMem_parked hr (hk ▸ id)).2
  have hs := h.setCont p (.waitRecheck child) hp (by simp [hk])
  intro q ch hq hz
  obtain hq | hq := mem_append.mp hq
  · exact hs q ch hq hz
  · obtain ⟨rfl, rfl⟩ := Prod.mk.inj (mem_singleton.mp hq)
    exact .inr (.inr (.inr (.inl (by simp [Sched.setCont]))))

theorem recovered {child : ℕ} (hp : p ∉ s.waiting)
    (hk : ∀ pid, s.cont p ≠ .wakeWaiters pid) : Woken (s.recovered c p child) :=
  (h.modTask p _ hp).setCont p _ hp hk

theorem claim (hP : Placed s) {n credit : ℕ} {prev : Option ℕ} (pc : Pc)
    (hc : s.pc c = .sched (.dispatch prev)) (hn : n ∈ s.queue) :
    Woken ((s.claim c n credit).goto c pc) :=
  (h.modTask n (fun t => { t with queued := false, owner := some c, state := .running })
    (hP.notMem_of_queue hn).2.1).turn pc (fun _ e => by cases hc.symm.trans e)

/-- A zombie appears, and with it the duty to look at its waiters. -/
theorem zombie (pid : ℕ) (he : s.ExitPending pid) :
    Woken { s with zombies := s.zombies ++ [pid] } := by
  intro q child hq hz
  obtain hz | hz := mem_append.mp hz
  · exact h q child hq hz
  · obtain rfl := mem_singleton.mp hz
    exact .inl he

theorem fewer {zombies : List ℕ} (hz : ∀ z ∈ zombies, z ∈ s.zombies) :
    Woken { s with zombies := zombies } := fun q child hq hcz => h q child hq (hz child hcz)

theorem fresh (hP : Placed s) (s' : Sched) (hw : s'.waiters = s.waiters)
    (hz : s'.zombies = s.zombies) (hpc : s'.pc = s.pc)
    (ht : ∀ q, q ≠ s.lastId + 1 → s'.task q = s.task q)
    (hc : ∀ q, q ≠ s.lastId + 1 → s'.cont q = s.cont q) : Woken s' := by
  have hne : ∀ q ∈ s.waiting, q ≠ s.lastId + 1 := by
    rintro q hq rfl
    exact (hP.fresh _ (Nat.lt_succ_self _)).1 (Placed.mem_places.mpr (.inr (.inr (.inl hq))))
  refine h.frame hw hz (fun pid he => he.frame (fun d => .inl (by rw [hpc])) fun t => ?_)
    (fun q hq => ht q (hne q hq)) fun q hq => hc q (hne q hq)
  by_cases htn : t = s.lastId + 1
  · exact .inr (by rw [hP.quiet t (htn ▸ Nat.lt_succ_self _)]; simp)
  · exact .inl (hc t htn)

end Woken

/-- **Every move keeps the waiters on zombies about to be woken.** -/
theorem Woken.move (h : Woken s) (hP : Placed s) (m : Move R s s') : Woken s' := by
  cases m with
  | pass c pc ht => exact h.pass ht
  | cont c p k hr ht => exact h.cont hP hr ht
  | enter c hc hp | idle c pc hc hcur hpc => exact h.turn _ (pc_ne_parkWake hc)
  | commit c p child hr hk hz => exact h.commit hr hk hz
  | idleDone c hc => exact h.turn _ fun pid => by rcases hc with hc | hc <;> rw [hc] <;> simp
  | note p kp code => exact h.modTask' p _ id id
  | exit c p hr hk | killed c p hc hz => exact h.modTask' p _ (fun hz => by cases hz) id
  | mark c p k hr hpl hk _ =>
    have hp := (hP.notMem_parked hr hpl.notRechecking).2
    exact (h.modTask p _ hp).setCont p k hp (plain_ne_wakeWaiters hpl)
  | wake sleeping waiters waking task hw => exact h.wake hw
  | flush w hdue => exact h.flushed hP w
  | sleepInsert c p d hr hk =>
    have hp := (hP.notMem_parked hr (hk ▸ id)).2
    exact (h.setCont p .user hp (by simp [hk])).turn _ (pc_ne_parkWake hr.1)
  | waitPush c p child hr hk => exact h.waitPush hP hr hk
  | unpark c p child hr hk =>
    refine (h.thin eraseP_sublist).recovered ?_ (by simp [hk])
    show p ∉ (s.waiters.eraseP fun e => e.1 = p).map Prod.fst
    rw [Placed.map_eraseP]
    exact hP.nodup_parked.2.not_mem_erase
  | recover c p child hr hk =>
    exact h.recovered (hP.notMem_parked hr (hk ▸ id)).2 (by simp [hk])
  | take c hc => exact h.turn (.sched (.killCheck (s.current c))) (by simp [hc])
  | unparkSleeping c p hc hp => exact h.turn (.sched (.resume p)) (by simp [hc])
  | unparkWaiters c p hc hp =>
    exact (h.thin eraseP_sublist).turn (.sched (.resume p)) (by simp [hc])
  | resume c p hc =>
    obtain ⟨-, -, hp, -⟩ := hP.unparked hc
    exact ((h.modTask p (fun t => { t with wakePending := false }) hp).modTask p
      (fun t => { t with state := .running }) hp).turn .exec (fun _ e => by cases hc.symm.trans e)
  | keep c p hc hd hz => exact h.turn .exec (by simp [hc])
  | claim c n credit prev pc hc hn ho hpc =>
    exact h.claim hP pc hc hn
  | swap c n credit p hc hn ho hd hz =>
    exact (h.claim hP (.sched (.switch (some p))) hc hn).modTask' p
      (fun t => { t with state := .ready, queued := true }) (fun hz => by cases hz) id
  | vacate c prev pc hc hpc => exact h.turn pc (by simp [hc])
  | release c p hc =>
    exact (h.modTask' p _ id id).turn .exec (fun _ e => by cases hc.symm.trans e)
  | switched c hc | verdict c st st' hc hv => exact h.turn _ (by simp [hc])
  | parkZombie c p hc =>
    exact (h.turn (.sched (.parkWake p)) (by simp [hc])).zombie p
      (.inl ⟨c, by simp [goto]⟩)
  | killQueue c p pid hr hk hp =>
    have hp := (hP.notMem_parked hr (hk ▸ id)).2
    exact (h.modTask' pid _ id id).setCont p (.killPark pid) hp
      (fun _ e => by cases hk.symm.trans e)
  | killSleeping c p pid hr hk hp _ =>
    have hpw := (hP.notMem_parked hr (hk ▸ id)).2
    exact (h.modTask pid _ (hP.notMem_waiting_of_sleepers hp)).setCont p (.killPark pid) hpw
      (fun _ e => by cases hk.symm.trans e)
  | killWaiters c p pid hr hk hp _ =>
    have hpw := (hP.notMem_parked hr (hk ▸ id)).2
    refine ((h.thin eraseP_sublist).modTask pid (fun t => { t with wakePending := false })
      ?_).setCont p (.killPark pid)
      (fun hw => hpw ((eraseP_sublist.map Prod.fst).subset hw))
        (fun _ e => by cases hk.symm.trans e)
    show pid ∉ (s.waiters.eraseP fun e => e.1 = pid).map Prod.fst
    rw [Placed.map_eraseP]
    exact hP.nodup_parked.2.not_mem_erase
  | killPark c p pid hr hk =>
    have hp := (hP.notMem_parked hr (hk ▸ id)).2
    exact ((h.modTask' pid (fun t => { t with state := .dead, exitCode := killedExitCode })
      (fun hz => by cases hz) id).setCont p (.wakeWaiters pid) hp
        (fun _ e => by cases hk.symm.trans e)).zombie pid (.inr ⟨p, by simp [Sched.setCont]⟩)
  | consume c p child hr hk hz _ _ =>
    have hp := (hP.notMem_parked hr (hk ▸ id)).2
    exact (h.setCont p (.waitReclaim child) hp (by simp [hk])).fewer
      fun z hz => mem_of_mem_erase hz
  | reclaim c p child hr hk =>
    exact h.setCont p .user (hP.notMem_parked hr (hk ▸ id)).2 (by simp [hk])
  | drain c hc => exact h.turn (.reap (.free s.reclaim false)) (by simp [hc])
  | remove c idx zombies freed hc hrm =>
    exact (h.fewer (removeAll_subset hrm).1).turn (.reap (.free freed true)) (by simp [hc])
  | spawn prio parent _ =>
    exact h.fresh hP (s.spawn prio parent) rfl rfl rfl
      (fun q hq => by simp [Sched.spawn, hq]) fun q hq => by simp [Sched.spawn, hq]
  | launch c hc hcur =>
    exact h.fresh hP (s.launch c) rfl rfl rfl
      (fun q hq => by simp [Sched.launch, hq]) fun q hq => by simp [Sched.launch, hq]

/-- **No wake-up of `wait` is lost**, in any run. -/
theorem not_stuck (n : ℕ) (as : List SchedAction) (s : Sched)
    (hrun : run schedStep (boot n) as = some s) (p child : ℕ) : ¬ s.Stuck p child := by
  intro hst
  have hw := (run_of_moves (R := .free) Woken n (fun s s' hP h m => h.move hP m)
    (fun q ch hq => by simp [boot] at hq) (RunMeets.of_forall Respects.free (boot n) as) hrun).2
  obtain he | hz | hf | hr := hw p child hst.listed hst.zombie
  · exact hst.exited he
  · exact hz hst.parked
  · exact absurd (hf.symm.trans hst.unflagged) (by simp)
  · exact hst.settled hr

open SchedAction in
/-- Two CPUs: the first process waits for a child that exits on the other CPU between the parent's
entry in `WAITERS` and its second look. -/
def exitWhileListed : List SchedAction :=
  [idle 0 .launch, begin 0 (.spawn .interactive), idle 1 .schedule] ++
    List.replicate 10 (pass 1 0) ++ [begin 0 (.wait 2)] ++ List.replicate 8 (call 0) ++
    [begin 1 (.exit 7), call 1] ++ List.replicate 11 (pass 1 0)

/-- There both exit steps are done and the parent is still listed, and it is not stuck. -/
theorem exitWhileListed_not_stuck : ∃ s, run schedStep (boot 2) exitWhileListed = some s ∧
    2 ∈ s.zombies ∧ (1, 2) ∈ s.waiters ∧ ¬ s.Stuck 1 2 := by
  refine exists_of_any (fun s => 2 ∈ s.zombies ∧ (1, 2) ∈ s.waiters) (by decide +kernel)
    fun s hs hlists => ?_
  exact ⟨hlists.1, hlists.2, not_stuck 2 exitWhileListed s hs 1 2⟩

end Sched

end Bedrock
