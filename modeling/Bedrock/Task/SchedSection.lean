import Bedrock.Task.SchedPlaced

/-!
# Task/SchedSection — sections as moves, and runs

`moves_of_schedStep` takes a section apart into moves, and `run_of_moves` lifts what every move
keeps to runs from boot.  Which orders of sections a run respects is said by conditions on the state
before each section (`KillAwake`, `KillReleased`, `ConsumeReleased`, `SteadyPass`, `ExactScan`).
-/

namespace Bedrock

open Option

namespace Sched

variable {R : Rules} {s s' : Sched} {c p : ℕ}

/-! ## What a section is about to do -/

variable (s)

/-- The task a section delivers a pending kill to. -/
def delivers : SchedAction → Option ℕ
  | .pass c _ =>
    match s.pc c with
    | .sched (.killCheck (some p)) => if (s.task p).killPending then some p else none
    | _ => none
  | _ => none

/-- The position in its calls of the task a section executes. -/
def callOf : SchedAction → Cont
  | .call c =>
    match s.pc c, s.current c with
    | .exec, some p => s.cont p
    | _, _ => .user
  | _ => .user

/-- The task a section of `kill` takes out of a parked list. -/
def unlists (a : SchedAction) : Option ℕ :=
  match s.callOf a with
  | .killSleeping pid => if pid ∈ s.sleepers then some pid else none
  | .killWaiters pid => if pid ∈ s.waiting then some pid else none
  | _ => none

/-- The zombie a section of `wait` takes. -/
def consumes (a : SchedAction) : Option ℕ :=
  match s.callOf a with
  | .waitTake child => if child ∈ s.zombies then some child else none
  | _ => none

/-- The process a section of the orphan pass gives up looking for. -/
def misses : SchedAction → Option ℕ
  | .reap c =>
    match s.pc c with
    | .reap (.judge (k :: _) pos _) =>
      if k.task.parent ≠ 0 ∧ s.scanHit k.task.parent pos = false ∧ s.scanNext pos = none then
        some k.task.parent
      else none
    | _ => none
  | _ => none

/-- A pending kill is not delivered to a task that has marked itself to park. -/
def KillAwake (a : SchedAction) : Prop := ∀ p ∈ s.delivers a, (s.task p).state ≠ .zzz

/-- `kill` takes no task out of a parked list while a CPU owns it. -/
def KillReleased (a : SchedAction) : Prop := ∀ p ∈ s.unlists a, (s.task p).owner = none

/-- `wait` takes no zombie while a CPU owns it. -/
def ConsumeReleased (a : SchedAction) : Prop :=
  ∀ p ∈ s.consumes a, (s.task p).owner = none

/-- `wait` takes no zombie between the two halves of the orphan pass. -/
def SteadyPass (a : SchedAction) : Prop := ∀ _p ∈ s.consumes a, ¬ MidPass (s.pc 0)

/-- The orphan pass gives up only on processes that are nowhere. -/
def ExactScan (a : SchedAction) : Prop := ∀ p ∈ s.misses a, ¬ s.Live p

variable {s}

/-- The section respects the rules. -/
structure Respects (R : Rules) (s : Sched) (a : SchedAction) : Prop where
  killAwake : R.killAwake → s.KillAwake a
  killReleased : R.killReleased → s.KillReleased a
  consumeReleased : R.consumeReleased → s.ConsumeReleased a
  steadyPass : R.steadyPass → s.SteadyPass a
  exactScan : R.exactScan → s.ExactScan a

/-! ## A section is a sequence of moves -/

open Relation (ReflTransGen)

variable {a : SchedAction}

/-- A section that is one move. -/
theorem moves_one {s1 : Sched} (hs : some s1 = some s') (m : Move R s s1) :
    ReflTransGen (Move R) s s' :=
  some.inj hs ▸ .single m

/-- …or two. -/
theorem moves_two {s1 s2 : Sched} (hs : some s2 = some s') (m1 : Move R s s1)
    (m2 : Move R s1 s2) : ReflTransGen (Move R) s s' :=
  some.inj hs ▸ .head m1 (.single m2)

theorem moves_flush {w : Waker} (hs : s.flush w = some s') : s' = s.flushed w ∧ Move R s s' := by
  obtain ⟨hdue, hs⟩ := ite_none_right_eq_some.mp hs
  cases hs
  exact ⟨rfl, .flush s w hdue.2⟩

theorem moves_begin (h : Placed s) {call : Call} (hr : s.Running c p) (hk : s.cont p = .user) :
    ReflTransGen (Move R) s (s.beginCall p call) := by
  have hplain : (s.cont p).Plain := by rw [hk]; trivial
  cases call with
  | sleepUntil d => exact .single (.mark s c p _ hr hplain trivial (by simp [Cont.awaits]))
  | wait child
  | kill pid => exact .single (.cont s c p _ hr (.plain hplain trivial (by simp [Cont.awaits])))
  | exit code =>
    exact .head (.note s p (s.task p).killPending code)
      (.single (.cont _ c p .exitMark hr (.plain hplain trivial (by simp [Cont.awaits]))))
  | spawn prio => exact .single (.spawn s prio p (h.le_lastId (.inl hr.2)))

theorem Placed.live_of_scanHit (h : Placed s) {pid : ℕ} {pos : ScanPos}
    (hhit : s.scanHit pid pos = true) : s.Live pid := by
  cases pos with
  | cpu i =>
    simp only [scanHit, Bool.or_eq_true, decide_eq_true_eq, Bool.and_eq_true] at hhit
    refine .inr (.inr (.inl ⟨i, ?_⟩))
    obtain hhit | ⟨-, hhit⟩ := hhit
    · exact .inl hhit
    · exact (h.mirror i pid hhit).imp_right And.right
  | queue => exact .inl (mem_places.mpr (.inl (by simpa [scanHit] using hhit)))
  | sleeping => exact .inl (mem_places.mpr (.inr (.inl (by simpa [scanHit] using hhit))))
  | waiters => exact .inl (mem_places.mpr (.inr (.inr (.inl (by simpa [scanHit] using hhit)))))
  | zombies => exact .inr (.inl (by simpa [scanHit] using hhit))

theorem callOf_call (hr : s.Running c p) : s.callOf (.call c) = s.cont p := by
  simp [callOf, Pc.seat_eq_exec.mp hr.1, hr.2]

theorem moves_call (h : Placed s) (hR : Respects R s (.call c)) (hr : s.Running c p)
    (hs : s.callStep c p (s.cont p) = some s') : ReflTransGen (Move R) s s' := by
  have hcall := callOf_call hr
  generalize hk : s.cont p = k at hs hcall
  have hgo : ∀ {k'}, some (s.setCont p k') = some s' → k.Plain → k'.Plain →
      k'.awaits = none ∨ k'.awaits = k.awaits → ReflTransGen (Move R) s s' := fun hs h1 h2 h3 => by
    refine moves_one hs (.cont s c p _ hr ?_)
    rw [hk]
    refine .plain h1 h2 fun child hchild => .inl ?_
    obtain h3 | h3 := h3
    · simp [h3] at hchild
    · rwa [h3] at hchild
  have hnote : ∀ q kp code k', k.Plain → k'.Plain → k'.awaits = none →
      some ((s.modTask q fun t => { t with killPending := kp, exitCode := code }).setCont p k')
        = some s' → ReflTransGen (Move R) s s' := fun q kp code k' h1 h2 h3 hs => by
    refine moves_two hs (.note s q kp code) (.cont _ c p k' hr (.plain ?_ h2 (by simp [h3])))
    exact (hk ▸ h1 : (s.cont p).Plain)
  cases k with simp only [callStep] at hs
  | user | halt => cases hs
  | sleepInsert d =>
    exact moves_one hs (.sleepInsert s c p d hr hk)
  | exitMark =>
    cases hs
    refine .head (.exit s c p hr (hk ▸ trivial)) (.head (.cont _ c p .halt hr ?_)
      (.single (.enter _ c hr.1 fun q hq => .inr ?_)))
    · exact .plain (by show (s.cont p).Plain; rw [hk]; trivial) trivial (by simp [Cont.awaits])
    · obtain rfl : p = q := some.inj (hr.2.symm.trans hq)
      simp [setCont, Cont.Plain]
  | waitParent child pos =>
    split_ifs at hs with hhit hpar
    · cases hs
      refine .single (.cont s c p _ hr ?_)
      rw [hk]
      refine .plain trivial trivial fun q hq => .inr ?_
      obtain rfl : child = q := some.inj hq
      exact ⟨hpar, h.live_of_scanHit hhit⟩
    · exact hgo hs trivial trivial (.inl rfl)
    · refine hgo hs trivial ?_ (.inl ?_) <;> cases s.scanNext pos <;> trivial
  | waitTake child =>
    split_ifs at hs with hz
    · cases hs
      have hcons : s.consumes (.call c) = some child := by simp [consumes, hcall, hz]
      exact .single (.consume s c p child hr hk hz
        (fun hx => hR.consumeReleased hx child hcons) fun hx => hR.steadyPass hx child hcons)
    · exact hgo hs trivial trivial (.inr rfl)
  | waitReclaim child =>
    exact moves_one hs (.reclaim s c p child hr hk)
  | waitPresent child =>
    exact hgo hs trivial (by split_ifs <;> trivial) (.inr (by split_ifs <;> rfl))
  | waitLive child pos =>
    split_ifs at hs with hhit
    · exact hgo hs trivial trivial (.inr rfl)
    · refine hgo hs trivial ?_ ?_ <;> cases s.scanNext pos
      · trivial
      · trivial
      · exact .inl rfl
      · exact .inr rfl
  | waitPark child =>
    exact moves_one hs (.mark s c p _ hr (hk ▸ trivial) trivial (by rw [hk]; exact fun _ => id))
  | waitPush child =>
    exact moves_one hs (.waitPush s c p child hr hk)
  | waitRecheck child =>
    split_ifs at hs with hz
    · exact moves_one hs (.cont s c p _ hr (by rw [hk]; exact .recheck child))
    · exact moves_one hs (.commit s c p child hr hk hz)
  | waitUnpark child =>
    split_ifs at hs with hw
    · obtain ⟨-, hs⟩ := ite_none_right_eq_some.mp hs
      exact moves_one hs (.unpark s c p child hr hk)
    · exact moves_one hs (.cont s c p _ hr (by rw [hk]; exact .unqueue child hw))
  | waitUnqueue child =>
    have hq : p ∉ s.queue := fun hq =>
      h.notMem_places hr (hk ▸ id) (Placed.mem_places.mpr (.inl hq))
    simp only [hq] at hs
    obtain ⟨-, hs⟩ := ite_none_right_eq_some.mp hs
    exact moves_one hs (.recover s c p child hr hk)
  | killSelf pid =>
    split_ifs at hs with hpid
    · exact hnote p _ killedExitCode .exitMark trivial trivial rfl hs
    · exact hgo hs trivial trivial (.inl rfl)
  | killCurrent pid i =>
    split_ifs at hs with hi
    · exact hnote pid true killedExitCode .user trivial trivial rfl hs
    · exact hgo hs trivial trivial (.inl rfl)
    · exact hgo hs trivial trivial (.inl rfl)
  | killMirror pid i =>
    split_ifs at hs with hi
    · exact hnote pid true (s.task pid).exitCode .user trivial trivial rfl hs
    · exact hgo hs trivial trivial (.inl rfl)
    · exact hgo hs trivial trivial (.inl rfl)
  | killQueue pid =>
    split_ifs at hs with hq
    · exact moves_one hs (.killQueue s c p pid hr hk hq)
    · exact hgo hs trivial trivial (.inl rfl)
  | killSleeping pid =>
    split_ifs at hs with hsl
    · exact moves_one hs (.killSleeping s c p pid hr hk hsl fun hx =>
        hR.killReleased hx pid (by simp [unlists, hcall, hsl]))
    · exact hgo hs trivial trivial (.inl rfl)
  | killWaiters pid =>
    split_ifs at hs with hwt
    · exact moves_one hs (.killWaiters s c p pid hr hk hwt fun hx =>
        hR.killReleased hx pid (by simp [unlists, hcall, hwt]))
    · exact hgo hs trivial trivial (.inl rfl)
  | killPark pid =>
    exact moves_one hs (.killPark s c p pid hr hk)
  | wakeWaiters pid =>
    cases hs
    refine .head (.wake s _ _ _ _ (wakes_wakeWaiters s (.task p) pid))
      (.single (.cont _ c p .wakeFlush hr ?_))
    rw [hk]
    exact .heard pid (heard_wakeWaiters s (.task p) pid)
  | wakeFlush =>
    obtain ⟨s1, hf, rfl⟩ := map_eq_some_iff.mp hs
    obtain ⟨rfl, hm⟩ := moves_flush (R := R) hf
    refine .head hm (.single (.cont _ c p .user hr (.plain ?_ trivial (by simp [Cont.awaits]))))
    show (s.cont p).Plain
    rw [hk]; trivial

theorem mem_of_find? {l : List ℕ} {q : ℕ} {prio : Priority}
    (hf : l.find? (s.readyFor prio) = some q) :
    q ∈ l ∧ (s.task q).state = .ready ∧ (s.task q).owner = none := by
  have hready := List.find?_some hf
  simp only [readyFor, Bool.and_eq_true, decide_eq_true_eq, Bool.not_eq_true', owned_eq_false]
    at hready
  exact ⟨List.mem_of_find?_eq_some hf, hready.1.1, hready.1.2⟩

/-- The pick is a ready task of the queue that no CPU owns. -/
theorem pick_spec {n credit : ℕ} (hp : s.pick c = some (n, credit)) :
    n ∈ s.queue ∧ (s.task n).state = .ready ∧ (s.task n).owner = none := by
  unfold pick at hp
  split at hp
  · rename_i i b hi hb
    split_ifs at hp with hcr
    · cases hp; exact mem_of_find? hi
    · cases hp; exact mem_of_find? hb
  · rename_i i hi _
    cases hp; exact mem_of_find? hi
  · rename_i b _ hb
    cases hp; exact mem_of_find? hb
  · cases hp

theorem moves_dispatch (h : Placed s) {prev : Option ℕ} (hc : s.pc c = .sched (.dispatch prev))
    (hs : s.dispatch c prev = some s') : ReflTransGen (Move R) s s' := by
  unfold dispatch at hs
  split at hs
  · rename_i n credit hp
    obtain ⟨hn, -, ho⟩ := pick_spec hp
    obtain ⟨-, hs⟩ := ite_none_right_eq_some.mp hs
    exact moves_one hs (.claim s c n credit none _ hc hn ho (.inl rfl))
  · rename_i n credit p hp
    obtain ⟨hn, -, ho⟩ := pick_spec hp
    obtain ⟨-, hs⟩ := ite_none_right_eq_some.mp hs
    obtain ⟨hown, hpq⟩ := h.outgoing hc
    have hpn : p ≠ n := by rintro rfl; exact hpq hn
    simp only [hpn, ↓reduceIte] at hs
    split at hs
    · rename_i hd
      exact moves_one hs (.claim s c n credit _ _ hc hn ho (.inr ⟨p, rfl, rfl, hd⟩))
    · exact moves_one hs (.claim s c n credit _ _ hc hn ho (.inl rfl))
    · rename_i hd hz
      have hqd : (s.task p).queued = false := by
        by_contra hq
        exact hpq (h.queued p (by simpa using hq))
      simp only [hqd, hown] at hs
      exact moves_one hs (.swap s c n credit p hc hn ho hd hz)
  · exact moves_one hs (.vacate s c none _ hc (.inl ⟨rfl, rfl⟩))
  · rename_i p hp
    split at hs
    · rename_i hd
      exact moves_one hs (.vacate s c _ _ hc (.inr (.inr ⟨p, rfl, rfl, hd⟩)))
    · exact moves_one hs (.vacate s c _ _ hc (.inr (.inl rfl)))
    · rename_i hd hz
      exact moves_one hs (.keep s c p hc hd hz)

theorem moves_pass (h : Placed s) {now : ℕ} {st : Stage} (hR : Respects R s (.pass c now))
    (hc : s.pc c = .sched st) (hs : s.passStep c now st = some s') :
    ReflTransGen (Move R) s s' := by
  have hgo : ∀ {pc'}, some (s.goto c pc') = some s' → PassTurn s c (.sched st) pc' →
      ReflTransGen (Move R) s s' :=
    fun hs ht => moves_one hs (.pass s c _ (hc ▸ ht))
  have hthen : ∀ {s1 : Sched} {pc'}, some (s1.goto c pc') = some s' → s1.pc = s.pc → Move R s s1 →
      PassTurn s1 c (.sched st) pc' → ReflTransGen (Move R) s s' :=
    fun hs h1 m ht => moves_two hs m (.pass _ c _ (by rw [h1, hc]; exact ht))
  cases st with
  | wake =>
    exact hthen hs rfl (.wake s _ _ _ _ (wakes_wakeSleepers s (.cpu c) now)) (.early rfl rfl)
  | wakeFlush | drainFlush =>
    obtain ⟨s1, hf, hs⟩ := map_eq_some_iff.mp hs
    obtain ⟨rfl, hm⟩ := moves_flush (R := R) hf
    exact hthen (congrArg some hs) rfl hm (.early rfl rfl)
  | drainSleeping =>
    exact hthen hs rfl (.wake s _ _ _ _ (wakes_drainSleeping s (.cpu c))) (.early rfl rfl)
  | drainWaiters =>
    exact hthen hs rfl (.wake s _ _ _ _ (wakes_drainWaiters s (.cpu c))) (.early rfl rfl)
  | take =>
    exact moves_one hs (.take s c hc)
  | killCheck prev =>
    cases prev with
    | none =>
      exact hgo hs (.check none)
    | some p =>
      simp only [passStep] at hs
      split_ifs at hs with hkp
      · cases hs
        have hdel : s.delivers (.pass c now) = some p := by simp [delivers, hc, hkp]
        refine .head (.note s p false (s.task p).exitCode) (.head (.killed _ c p ?_ ?_)
          (.single (.pass _ c _ ?_)))
        · show s.seat c = _
          rw [seat, hc]; rfl
        · intro hx
          simpa [modTask] using hR.killAwake hx p hdel
        · show PassTurn _ c (s.pc c) _
          rw [hc]
          exact .check (some p)
      · exact hgo hs (.check (some p))
  | decide prev =>
    cases prev with
    | none =>
      exact hgo hs (.decide none)
    | some p =>
      simp only [passStep] at hs
      split_ifs at hs with hwoken
      · exact hgo hs (.woken p)
      · exact hgo hs (.decide (some p))
  | unparkSleeping p =>
    simp only [passStep] at hs
    split_ifs at hs with hp
    · exact moves_one hs (.unparkSleeping s c p hc hp)
    · exact hgo hs (.unlisted p)
  | unparkWaiters p =>
    simp only [passStep] at hs
    split_ifs at hs with hp
    exact moves_one hs (.unparkWaiters s c p hc hp)
  | resume p =>
    exact moves_one hs (.resume s c p hc)
  | dispatch prev => exact moves_dispatch h hc hs
  | park p =>
    exact moves_one hs (.parkZombie s c p hc)
  | parkWake p =>
    exact hthen hs rfl (.wake s _ _ _ _ (wakes_wakeWaiters s (.cpu c) p))
      (.heard p (heard_wakeWaiters s (.cpu c) p))
  | parkFlush p =>
    obtain ⟨s1, hf, hs⟩ := map_eq_some_iff.mp hs
    obtain ⟨rfl, hm⟩ := moves_flush (R := R) hf
    exact hthen (congrArg some hs) rfl hm (.switch p)
  | switch prev =>
    cases prev with
    | none =>
      exact moves_one hs (.switched s c hc)
    | some p =>
      exact moves_one hs (.release s c p hc)

theorem moves_reap {st : ReapStage} (hR : Respects R s (.reap c)) (hc : s.pc c = .reap st)
    (hs : s.reapStep c st = some s') : ReflTransGen (Move R) s s' := by
  have hgo : ∀ {st'}, some (s.goto c (.reap st')) = some s' → Verdict R s st st' →
      ReflTransGen (Move R) s s' := fun hs hv => moves_one hs (.verdict s c st _ hc hv)
  unfold reapStep at hs
  split at hs
  · exact moves_one hs (.drain s c hc)
  · exact hgo hs .scan
  · exact moves_one hs (.idleDone s c (.inr hc))
  · rename_i p ps orphans
    obtain ⟨-, hs⟩ := ite_none_right_eq_some.mp hs
    exact hgo hs (.freed p ps orphans)
  · exact hgo hs .candidates
  · rename_i pos idx
    exact hgo hs (.done idx pos)
  · rename_i k ks pos idx
    split_ifs at hs with hzero hhit
    · exact hgo hs (.orphan k ks idx pos (.inl hzero))
    · exact hgo hs (.keep k ks idx pos)
    · split at hs
      · rename_i pos' hnext
        exact hgo hs (.next k ks idx pos pos')
      · rename_i hnext
        refine hgo hs (.orphan k ks idx pos (.inr fun hx => hR.exactScan hx k.task.parent ?_))
        simp [misses, hc, hzero, hhit, hnext]
  · rename_i idx
    obtain ⟨⟨zs, freed⟩, hrm, rfl⟩ := map_eq_some_iff.mp hs
    exact .single (.remove s c idx zs freed hc hrm)

theorem moves_idle {call : IdleCall} (hc : s.pc c = .exec) (hcur : s.current c = none)
    (hs : s.idleStep c call = some s') : ReflTransGen (Move R) s s' := by
  have hseat : s.seat c = .exec := by rw [seat, hc]; rfl
  cases call with
  | wakeSleepers now =>
    cases hs
    exact .head (.wake s _ _ _ _ (wakes_wakeSleepers s (.cpu c) now))
      (.single (.idle _ c _ hseat hcur (.inl rfl)))
  | schedule =>
    exact moves_one hs (.enter s c hseat fun p hp => by simp [hcur] at hp)
  | reapDead =>
    obtain ⟨hc0, hs⟩ := ite_none_right_eq_some.mp hs
    exact moves_one hs (.idle s c _ hseat hcur (.inr ⟨rfl, hc0⟩))
  | launch =>
    exact moves_one hs (.launch s c hseat hcur)
  | spawn prio =>
    exact moves_one hs (.spawn s prio 0 (Nat.zero_le _))

/-- **Every section is a sequence of moves.** -/
theorem moves_of_schedStep (h : Placed s) (hR : Respects R s a) (hs : schedStep s a = some s') :
    ReflTransGen (Move R) s s' := by
  replace hs := (ite_none_right_eq_some.mp hs).2
  cases a with simp only [actStep] at hs
  | begin c call =>
    split at hs
    · rename_i p hc hcur
      obtain ⟨hk, hs⟩ := ite_none_right_eq_some.mp hs
      cases hs
      exact moves_begin h ⟨by rw [seat, hc]; rfl, hcur⟩ hk
    · cases hs
  | call c =>
    split at hs
    · rename_i p hc hcur
      exact moves_call h hR ⟨by rw [seat, hc]; rfl, hcur⟩ hs
    · cases hs
  | preempt c =>
    split at hs
    · rename_i p hc hcur
      obtain ⟨hst, hs⟩ := ite_none_right_eq_some.mp hs
      cases hs
      refine .single (.enter s c (by rw [seat, hc]; rfl) fun q hq => .inl ?_)
      obtain rfl : p = q := some.inj (hcur.symm.trans hq)
      exact hst
    · cases hs
  | pass c now =>
    split at hs
    · rename_i st hc
      exact moves_pass h hR hc hs
    · cases hs
  | idle c call =>
    split at hs
    · rename_i hc hcur
      exact moves_idle hc hcur hs
    · cases hs
  | idleFlush c =>
    split at hs
    · rename_i hc
      obtain ⟨s1, hf, rfl⟩ := map_eq_some_iff.mp hs
      obtain ⟨rfl, hm⟩ := moves_flush (R := R) hf
      exact .head hm (.single (.idleDone _ c (.inl hc)))
    · cases hs
  | reap c =>
    split at hs
    · rename_i st hc
      exact moves_reap hR hc hs
    · cases hs

/-- What every move keeps, together with the places, every run that respects the rules keeps. -/
theorem run_of_moves (inv : Sched → Prop) (n : ℕ)
    (hmove : ∀ s s', Placed s → inv s → Move R s s' → inv s') (hboot : inv (boot n))
    {as : List SchedAction} (hmeets : RunMeets schedStep (Respects R) (boot n) as)
    (hrun : run schedStep (boot n) as = some s) : Placed s ∧ inv s := by
  refine run_invariant (fun s => Placed s ∧ inv s) (fun s a s' hi hR hs => ?_) as
    ⟨Placed.boot n, hboot⟩ hmeets hrun
  have hmoves := moves_of_schedStep hi.1 hR hs
  clear hs hR
  induction hmoves with
  | refl => exact hi
  | tail _ hm ih => exact ⟨ih.1.move hm, hmove _ _ ih.1 ih.2 hm⟩

end Sched

end Bedrock
