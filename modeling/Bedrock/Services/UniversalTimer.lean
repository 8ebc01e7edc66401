import Bedrock.Lib.Run
import Bedrock.Services.TimerTrace

/-!
# Services/UniversalTimer — timers on many CPUs

Each CPU has a base, a queue of timers under a lock, and a clockevent that can be armed for one
deadline.  Tasks set, cancel and migrate timers; an interrupt makes a CPU run `tick` on its own
base.

    task       read the clock, the CPU, the next number -▸ lock -▸ change the queue, re-arm, unlock
    interrupt  read the clock -▸ lock, drain -▸ call back, put back … -▸ re-arm, unlock

A base lock switches interrupts and preemption off.  Between two steps without a lock a task may be
moved to another CPU; `reprogram` arms the clockevent of the CPU that executes it.
-/

namespace Bedrock.Services

open Function Option

section Machine

variable {T κ : Type}

/-- What a task has come to do under a base lock. -/
inductive Job (κ : Type)
  | insert (e : TimerEntry κ)
  | cancel (id : TimerId)
  | remove (id : TimerId) (target : ℕ)
  | relocate (e : TimerEntry κ)

/-- …and which base it is. -/
def Job.base : Job κ → ℕ
  | insert e => e.id.cpu
  | cancel id => id.cpu
  | remove id _ => id.cpu
  | relocate e => e.id.cpu

/-- Where a task is: what it will do next. -/
inductive Pc (κ : Type)
  | idle
  | readNow (interval : ℕ) (callback : κ)
  | readCpu (deadline : ℕ) (period : Option ℕ) (callback : κ)
  | number (cpu deadline : ℕ) (period : Option ℕ) (callback : κ)
  | renumber (e : TimerEntry κ) (target : ℕ)
  | lock (job : Job κ)
  | locked (job : Job κ)

/-- What a CPU is at: a task, with interrupts on; a task with a base lock; or one of the stages of
`tick`. -/
inductive Mode (T κ : Type)
  | free
  | locked (t : T)
  | entry
  | ticking (now : ℕ)
  | firing (now : ℕ) (expired : List (TimerEntry κ))

/-- Interrupts are on. -/
def Mode.isFree : Mode T κ → Bool
  | .free => true
  | _ => false

theorem Mode.eq_free {m : Mode T κ} (h : m.isFree = true) : m = .free := by
  cases m with
  | free => rfl
  | locked | entry | ticking | firing => cases h

/-- The entries that a tick has drained and not yet fired. -/
def Mode.expired : Mode T κ → List (TimerEntry κ)
  | .firing _ expired => expired
  | _ => []

/-- Who has a base lock. -/
inductive Holder (T : Type)
  | task (t : T)
  | tick

/-- The bases and their CPUs, the tasks and where they run, and what has happened. -/
structure State (T κ : Type) where
  clock : ℕ
  nextSeq : ℕ
  queue : ℕ → TimerQueue κ
  lock : ℕ → Option (Holder T)
  armed : ℕ → Option ℕ
  timerIrq : ℕ → Bool
  ipi : ℕ → Bool
  mode : ℕ → Mode T κ
  cpuOf : T → ℕ
  pc : T → Pc κ
  trace : List (Event T κ)

/-- The calls of a task. -/
inductive Call (κ : Type)
  | set (deadline : ℕ) (callback : κ)
  | setPeriodic (interval : ℕ) (callback : κ)
  | cancel (id : TimerId)
  | migrate (id : TimerId) (target : ℕ)

def Call.start : Call κ → Pc κ
  | set deadline callback => .readCpu deadline none callback
  | setPeriodic interval callback => .readNow interval callback
  | cancel id => .lock (.cancel id)
  | migrate id target => .lock (.remove id target)

/-- One step of the system: a task calls, goes on, or is moved; time passes; an armed clockevent
goes off; a CPU takes an interrupt, the reschedule IPI or the timer's, and goes on with it. -/
inductive Act (T κ : Type)
  | call (t : T) (c : Call κ)
  | run (t : T)
  | move (t : T) (cpu : ℕ)
  | wait (time : ℕ)
  | expire (cpu : ℕ)
  | interrupt (cpu : ℕ) (ipi : Bool)
  | tick (cpu : ℕ)

/-- `UniversalTimerImpl::new`. -/
def State.new (cpuOf : T → ℕ) (clock : ℕ) : State T κ :=
  ⟨clock, 1, fun _ => [], fun _ => none, fun _ => none, fun _ => false, fun _ => false,
    fun _ => .free, cpuOf, fun _ => .idle, []⟩

namespace State

/-- All entries of a base: those in the queue, and those that a tick has drained. -/
def entries (s : State T κ) (c : ℕ) : List (TimerEntry κ) := (s.mode c).expired ++ s.queue c

/-- `reprogram`: the CPU arms its clockevent for the earliest deadline of the queue, or stops it. -/
def reprogram (s : State T κ) (c : ℕ) (q : TimerQueue κ) : State T κ :=
  { s with armed := update s.armed c q.nextDeadline }

/-- A queue changes, and that is put on record. -/
def changeQueue (s : State T κ) (c : ℕ) (q : TimerQueue κ) (ev : Event T κ) : State T κ :=
  { s with queue := update s.queue c q, trace := ev :: s.trace }

/-- `send_reschedule_ipi`. -/
def sendIpi (s : State T κ) (c : ℕ) : State T κ := { s with ipi := update s.ipi c true }

def setMode (s : State T κ) (c : ℕ) (m : Mode T κ) : State T κ :=
  { s with mode := update s.mode c m }

def setLock (s : State T κ) (c : ℕ) (h : Option (Holder T)) : State T κ :=
  { s with lock := update s.lock c h }

/-- `next_seq.fetch_add(1)`. -/
def bump (s : State T κ) : State T κ := { s with nextSeq := (s.nextSeq + 1) % 2 ^ 64 }

variable [DecidableEq T]

def setPc (s : State T κ) (t : T) (pc : Pc κ) : State T κ :=
  { s with pc := update s.pc t pc }

/-- `IrqSafeLock::lock`, once it has the lock. -/
def acquire (s : State T κ) (t : T) (job : Job κ) : State T κ :=
  ((s.setLock job.base (some (.task t))).setMode (s.cpuOf t) (.locked t)).setPc t (.locked job)

/-- `IrqSafeGuard::drop`, and what the task does next. -/
def release (s : State T κ) (t : T) (c : ℕ) (pc : Pc κ) : State T κ :=
  ((s.setLock c none).setMode (s.cpuOf t) .free).setPc t pc

/-- What a task does under a base lock, and where it stands after it. -/
def effect (s : State T κ) (t : T) : Job κ → State T κ × Pc κ
  | .insert e =>
    let q := s.queue e.id.cpu
    let s' := s.changeQueue e.id.cpu (q.insert e) (.entered e)
    (if q.nextDeadline ≠ (q.insert e).nextDeadline then s'.reprogram (s.cpuOf t) (q.insert e)
      else s', .idle)
  | .cancel id =>
    let q := s.queue id.cpu
    let s' := s.changeQueue id.cpu (q.cancel id).2 (.cancelled id (q.cancel id).1)
    (if (q.cancel id).1 ∧ q.nextDeadline ≠ (q.cancel id).2.nextDeadline ∧ id.cpu = s.cpuOf t then
        s'.reprogram (s.cpuOf t) (q.cancel id).2
      else s', .idle)
  | .remove id target =>
    let q := s.queue id.cpu
    (s.changeQueue id.cpu (q.remove id).2 (.taken t id (q.remove id).1),
      match (q.remove id).1 with
      | none => .idle
      | some e => .renumber e target)
  | .relocate e =>
    let q := s.queue e.id.cpu
    let s' := s.changeQueue e.id.cpu (q.insert e) (.relocated t e)
    (if q.nextDeadline ≠ (q.insert e).nextDeadline then
        if e.id.cpu = s.cpuOf t then s'.reprogram (s.cpuOf t) (q.insert e) else s'.sendIpi e.id.cpu
      else s', .idle)

/-- …with the lock released at the end. -/
def perform (s : State T κ) (t : T) (job : Job κ) : State T κ :=
  (s.effect t job).1.release t job.base (s.effect t job).2

/-- The next step of a task.  Without a lock it needs a CPU that is not at something else. -/
def runTask (s : State T κ) (t : T) : Option (State T κ) :=
  match s.pc t with
  | .locked job => some (s.perform t job)
  | pc =>
    if (s.mode (s.cpuOf t)).isFree then
      match pc with
      | .readNow interval callback =>
        some (s.setPc t (.readCpu (saturatingAdd s.clock interval) (some interval) callback))
      | .readCpu deadline period callback =>
        some (s.setPc t (.number (s.cpuOf t) deadline period callback))
      | .number cpu deadline period callback =>
        some (s.bump.setPc t
          (.lock (.insert ⟨⟨cpu, s.nextSeq⟩, deadline, period, callback, s.nextSeq⟩)))
      | .renumber e target =>
        some (s.bump.setPc t (.lock (.relocate { e with id := ⟨target, s.nextSeq⟩ })))
      | .lock job =>
        match s.lock job.base with
        | none => some (s.acquire t job)
        | some _ => none
      | _ => none
    else none

/-- The next step of `tick`.  The callback of an entry is called before the entry is put back. -/
def runTick (s : State T κ) (c : ℕ) : Option (State T κ) :=
  match s.mode c with
  | .entry => some (s.setMode c (.ticking s.clock))
  | .ticking now =>
    match s.lock c with
    | some _ => none
    | none =>
      match (s.queue c).drainExpired now with
      | (expired, rest) =>
        some { (s.setLock c (some .tick)).setMode c (.firing now expired) with
          queue := update s.queue c rest }
  | .firing now (e :: expired) =>
    let q := (s.queue c).putBack (e.again now)
    some ((s.changeQueue c q (.fired e now s.clock)).setMode c (.firing now expired))
  | .firing _ [] => some (((s.reprogram c (s.queue c)).setLock c none).setMode c .free)
  | _ => none

/-- A CPU takes an interrupt: it has to be raised, and interrupts have to be on. -/
def takeInterrupt (s : State T κ) (c : ℕ) (ipi : Bool) : Option (State T κ) :=
  if (s.mode c).isFree = false then none
  else if ipi then
    if s.ipi c then some ({ s with ipi := update s.ipi c false }.setMode c .entry)
    else none
  else if s.timerIrq c then
    some ({ s with timerIrq := update s.timerIrq c false }.setMode c .entry)
  else none

/-- One step of the system.  The clock does not go back, and a clockevent may go off early. -/
def step (s : State T κ) : Act T κ → Option (State T κ)
  | .call t c =>
    match s.pc t with
    | .idle => some (s.setPc t c.start)
    | _ => none
  | .run t => s.runTask t
  | .move t cpu =>
    match s.pc t with
    | .locked _ => none
    | _ => some { s with cpuOf := update s.cpuOf t cpu }
  | .wait time => if s.clock ≤ time ∧ time < 2 ^ 64 then some { s with clock := time } else none
  | .expire c =>
    match s.armed c with
    | none => none
    | some _ =>
      some { s with
        armed := update s.armed c none
        timerIrq := update s.timerIrq c true }
  | .interrupt c ipi => s.takeInterrupt c ipi
  | .tick c => s.runTick c

end State

/-! ## What a step can do -/

variable [DecidableEq T] {s s' : State T κ} {a : Act T κ}

/-- **The steps of the system, one by one.** -/
inductive Step (s : State T κ) : Act T κ → State T κ → Prop
  | call {t : T} (c : Call κ) : s.pc t = .idle → Step s (.call t c) (s.setPc t c.start)
  | readNow {t : T} {interval : ℕ} {callback : κ} : s.pc t = .readNow interval callback →
      Step s (.run t)
        (s.setPc t (.readCpu (saturatingAdd s.clock interval) (some interval) callback))
  | readCpu {t : T} {deadline : ℕ} {period : Option ℕ} {callback : κ} :
      s.pc t = .readCpu deadline period callback →
      Step s (.run t) (s.setPc t (.number (s.cpuOf t) deadline period callback))
  | number {t : T} {cpu deadline : ℕ} {period : Option ℕ} {callback : κ} :
      s.pc t = .number cpu deadline period callback →
      Step s (.run t) (s.bump.setPc t
        (.lock (.insert ⟨⟨cpu, s.nextSeq⟩, deadline, period, callback, s.nextSeq⟩)))
  | renumber {t : T} {e : TimerEntry κ} {target : ℕ} : s.pc t = .renumber e target →
      Step s (.run t) (s.bump.setPc t (.lock (.relocate { e with id := ⟨target, s.nextSeq⟩ })))
  | acquire {t : T} {job : Job κ} : s.pc t = .lock job → s.mode (s.cpuOf t) = .free →
      s.lock job.base = none → Step s (.run t) (s.acquire t job)
  | perform {t : T} {job : Job κ} : s.pc t = .locked job → Step s (.run t) (s.perform t job)
  | move {t : T} (cpu : ℕ) : (∀ job, s.pc t ≠ .locked job) →
      Step s (.move t cpu) { s with cpuOf := update s.cpuOf t cpu }
  | wait {time : ℕ} : s.clock ≤ time → Step s (.wait time) { s with clock := time }
  | expire (c : ℕ) : Step s (.expire c)
      { s with
        armed := update s.armed c none
        timerIrq := update s.timerIrq c true }
  | ipi {c : ℕ} : s.mode c = .free →
      Step s (.interrupt c true) ({ s with ipi := update s.ipi c false }.setMode c .entry)
  | timerIrq {c : ℕ} : s.mode c = .free →
      Step s (.interrupt c false)
        ({ s with timerIrq := update s.timerIrq c false }.setMode c .entry)
  | enter {c : ℕ} : s.mode c = .entry → Step s (.tick c) (s.setMode c (.ticking s.clock))
  | drain {c now : ℕ} : s.mode c = .ticking now → s.lock c = none →
      Step s (.tick c)
        { (s.setLock c (some .tick)).setMode c (.firing now ((s.queue c).drainExpired now).1) with
          queue := update s.queue c ((s.queue c).drainExpired now).2 }
  | fire {c now : ℕ} {e : TimerEntry κ} {expired : List (TimerEntry κ)} :
      s.mode c = .firing now (e :: expired) →
      Step s (.tick c)
        ((s.changeQueue c ((s.queue c).putBack (e.again now))
          (.fired e now s.clock)).setMode c (.firing now expired))
  | finish {c now : ℕ} : s.mode c = .firing now [] →
      Step s (.tick c) (((s.reprogram c (s.queue c)).setLock c none).setMode c .free)

theorem runTask_cases {t : T} (h : s.runTask t = some s') : Step s (.run t) s' := by
  rw [State.runTask] at h
  split at h
  next job hpc =>
    cases h
    exact .perform hpc
  next =>
    by_cases hfree : (s.mode (s.cpuOf t)).isFree = true
    · rw [if_pos hfree] at h
      split at h
      next hpc =>
        cases h
        exact .readNow hpc
      next hpc =>
        cases h
        exact .readCpu hpc
      next hpc =>
        cases h
        exact .number hpc
      next hpc =>
        cases h
        exact .renumber hpc
      next job hpc =>
        split at h
        next hlock =>
          cases h
          exact .acquire hpc (Mode.eq_free hfree) hlock
        next => cases h
      next => cases h
    · rw [if_neg hfree] at h
      cases h

theorem runTick_cases {c : ℕ} (h : s.runTick c = some s') : Step s (.tick c) s' := by
  rw [State.runTick] at h
  split at h
  next hmode =>
    cases h
    exact .enter hmode
  next now hmode =>
    split at h
    · cases h
    rename_i hlock
    cases h
    exact .drain hmode hlock
  next now e expired hmode =>
    cases h
    exact .fire hmode
  next now hmode =>
    cases h
    exact .finish hmode
  next => cases h

/-- **A step is one of these.** -/
theorem step_cases (h : s.step a = some s') : Step s a s' := by
  cases a with
  | call t c =>
    rw [State.step] at h
    split at h
    next hpc =>
      cases h
      exact .call c hpc
    next => cases h
  | run t => exact runTask_cases h
  | move t cpu =>
    rw [State.step] at h
    split at h
    · cases h
    rename_i hpc
    cases h
    exact .move cpu hpc
  | wait time =>
    rw [State.step] at h
    split_ifs at h with hle
    cases h
    exact .wait hle.1
  | expire c =>
    rw [State.step] at h
    split at h
    · cases h
    cases h
    exact .expire c
  | interrupt c ipi =>
    rw [State.step, State.takeInterrupt] at h
    split_ifs at h with hclosed hipi
    · cases h
      subst hipi
      exact .ipi (Mode.eq_free (by simpa using hclosed))
    · cases h
      obtain rfl : ipi = false := by simpa using hipi
      exact .timerIrq (Mode.eq_free (by simpa using hclosed))
  | tick c => exact runTick_cases h

omit [DecidableEq T] in
/-- What a task does under a base lock leaves the clock, the counter, the locks and the tasks. -/
theorem State.effect_frame (s : State T κ) (t : T) (job : Job κ) :
    (s.effect t job).1.clock = s.clock ∧ (s.effect t job).1.nextSeq = s.nextSeq ∧
      (s.effect t job).1.lock = s.lock ∧ (s.effect t job).1.mode = s.mode ∧
      (s.effect t job).1.cpuOf = s.cpuOf ∧ (s.effect t job).1.pc = s.pc := by
  cases job with
  | insert e | cancel id | relocate e =>
    dsimp only [State.effect]
    split_ifs <;> exact ⟨rfl, rfl, rfl, rfl, rfl, rfl⟩
  | remove id target => exact ⟨rfl, rfl, rfl, rfl, rfl, rfl⟩

omit [DecidableEq T] in
/-- …and the task is then without a lock. -/
theorem State.effect_pc (s : State T κ) (t : T) (job : Job κ) :
    ∀ job', (s.effect t job).2 ≠ .locked job' := by
  cases job with
  | insert e | cancel id => exact nofun
  | remove id target =>
    dsimp only [State.effect]
    cases ((s.queue id.cpu).remove id).1 with
    | none | some e => exact nofun
  | relocate e => exact nofun

/-! ## A base lock has one holder -/

/-- A task that has a base lock is what its CPU is at, and so is a tick. -/
structure Exclusive (s : State T κ) : Prop where
  task : ∀ t job, s.pc t = .locked job →
    s.lock job.base = some (.task t) ∧ s.mode (s.cpuOf t) = .locked t
  tick : ∀ c now expired, s.mode c = .firing now expired → s.lock c = some .tick

namespace Exclusive

variable (h : Exclusive s)
include h

theorem setPc (t : T) {pc : Pc κ} (hpc : ∀ job, pc ≠ .locked job) : Exclusive (s.setPc t pc) := by
  refine ⟨fun t' job ht' => ?_, h.tick⟩
  change update s.pc t pc t' = .locked job at ht'
  by_cases heq : t' = t
  · rw [heq, update_self] at ht'
    exact absurd ht' (hpc job)
  · rw [update_of_ne heq] at ht'
    exact h.task t' job ht'

variable {c : ℕ} {t : T} {job : Job κ}

omit [DecidableEq T] in
/-- A CPU that is not at a task changes its mode and its lock; no task has the lock if it changes,
and a drained batch has it. -/
theorem setTick {m : Mode T κ} {l : Option (Holder T)}
    (hc : ∀ t, s.mode c ≠ .locked t) (hl : l = s.lock c ∨ ∀ t, s.lock c ≠ some (.task t))
    (hm : ∀ now expired, m = .firing now expired → l = some .tick) :
    Exclusive ((s.setLock c l).setMode c m) := by
  constructor
  · intro t job ht
    obtain ⟨hlock, hmode⟩ := h.task t job ht
    have hcpu : s.cpuOf t ≠ c := by
      rintro rfl
      exact hc t hmode
    refine ⟨?_, (update_of_ne hcpu ..).trans hmode⟩
    obtain rfl | hbase := eq_or_ne job.base c
    · exact (update_self ..).trans ((hl.resolve_right fun hn => hn t hlock).trans hlock)
    · exact (update_of_ne hbase ..).trans hlock
  · intro c' now expired hc'
    change update s.mode c m c' = .firing now expired at hc'
    obtain rfl | heq := eq_or_ne c' c
    · rw [update_self] at hc'
      exact (update_self ..).trans (hm now expired hc')
    · rw [update_of_ne heq] at hc'
      exact (update_of_ne heq ..).trans (h.tick c' now expired hc')

omit [DecidableEq T] in
/-- …or its mode alone. -/
theorem setMode {m : Mode T κ} (hc : ∀ t, s.mode c ≠ .locked t)
    (hm : ∀ now expired, m = .firing now expired → s.lock c = some .tick) :
    Exclusive (s.setMode c m) := by
  have hset := h.setTick hc (.inl rfl) hm
  rwa [State.setLock, update_eq_self] at hset

theorem acquire (hmode : s.mode (s.cpuOf t) = .free)
    (hlock : s.lock job.base = none) : Exclusive (s.acquire t job) := by
  constructor
  · intro t' job' ht'
    change update s.pc t (.locked job) t' = .locked job' at ht'
    by_cases heq : t' = t
    · rw [heq, update_self] at ht'
      obtain rfl := Pc.locked.inj ht'
      rw [heq]
      exact ⟨update_self .., update_self ..⟩
    · rw [update_of_ne heq] at ht'
      obtain ⟨hl, hm⟩ := h.task t' job' ht'
      have hbase : job'.base ≠ job.base := fun hb => by simp [hb, hlock] at hl
      have hcpu : s.cpuOf t' ≠ s.cpuOf t := fun hc => by simp [hc, hmode] at hm
      exact ⟨(update_of_ne hbase ..).trans hl, (update_of_ne hcpu ..).trans hm⟩
  · intro c now expired hc
    change update s.mode (s.cpuOf t) (.locked t) c = .firing now expired at hc
    by_cases heq : c = s.cpuOf t
    · rw [heq, update_self] at hc
      cases hc
    rw [update_of_ne heq] at hc
    have hl := h.tick c now expired hc
    have hbase : c ≠ job.base := fun hb => by simp [hb, hlock] at hl
    exact (update_of_ne hbase ..).trans hl

theorem release (ht : s.pc t = .locked job) {pc : Pc κ}
    (hpc : ∀ job, pc ≠ .locked job) : Exclusive (s.release t job.base pc) := by
  obtain ⟨hlock, hmode⟩ := h.task t job ht
  constructor
  · intro t' job' ht'
    change update s.pc t pc t' = .locked job' at ht'
    by_cases heq : t' = t
    · rw [heq, update_self] at ht'
      exact absurd ht' (hpc job')
    · rw [update_of_ne heq] at ht'
      obtain ⟨hl, hm⟩ := h.task t' job' ht'
      have hbase : job'.base ≠ job.base := by
        intro hb
        rw [hb, hlock] at hl
        exact heq (Holder.task.inj (some.inj hl)).symm
      have hcpu : s.cpuOf t' ≠ s.cpuOf t := by
        intro hc
        rw [hc, hmode] at hm
        exact heq (Mode.locked.inj hm).symm
      exact ⟨(update_of_ne hbase ..).trans hl, (update_of_ne hcpu ..).trans hm⟩
  · intro c now expired hc
    change update s.mode (s.cpuOf t) .free c = .firing now expired at hc
    by_cases heq : c = s.cpuOf t
    · rw [heq, update_self] at hc
      cases hc
    rw [update_of_ne heq] at hc
    have hl := h.tick c now expired hc
    have hbase : c ≠ job.base := fun hb => by simp [hb, hlock] at hl
    exact (update_of_ne hbase ..).trans hl

omit [DecidableEq T] in
/-- What is done under the lock leaves the locks and the tasks alone. -/
theorem effect (t : T) (job : Job κ) : Exclusive (s.effect t job).1 := by
  obtain ⟨-, -, hlock, hmode, hcpu, hpc⟩ := s.effect_frame t job
  constructor
  · rw [hlock, hmode, hcpu, hpc]
    exact h.task
  · rw [hlock, hmode]
    exact h.tick

theorem perform (ht : s.pc t = .locked job) : Exclusive (s.perform t job) := by
  obtain ⟨-, -, -, -, -, hpc⟩ := s.effect_frame t job
  exact (h.effect t job).release (by rw [hpc, ht]) (s.effect_pc t job)

omit [DecidableEq T] in
/-- A tick takes the lock of its base. -/
theorem drain {now : ℕ} {expired : List (TimerEntry κ)} {q : ℕ → TimerQueue κ}
    (hmode : s.mode c = .ticking now) (hlock : s.lock c = none) :
    Exclusive { (s.setLock c (some .tick)).setMode c (.firing now expired) with queue := q } := by
  have hset : Exclusive ((s.setLock c (some .tick)).setMode c (.firing now expired)) :=
    h.setTick (by simp [hmode]) (.inr (by simp [hlock])) fun _ _ _ => rfl
  exact ⟨hset.task, hset.tick⟩

omit [DecidableEq T] in
/-- …and goes on with a shorter batch. -/
theorem fire {now : ℕ} {expired expired' : List (TimerEntry κ)}
    (hmode : s.mode c = .firing now expired) : Exclusive (s.setMode c (.firing now expired')) :=
  h.setMode (by simp [hmode]) fun _ _ _ => h.tick c now expired hmode

omit h in
omit [DecidableEq T] in
theorem new (cpuOf : T → ℕ) (clock : ℕ) : Exclusive (State.new cpuOf clock : State T κ) :=
  ⟨nofun, nofun⟩

/-- **No step gives a lock to a second holder.** -/
theorem step (hs : s.step a = some s') : Exclusive s' := by
  cases step_cases hs with
  | call c hpc => exact h.setPc _ (by cases c <;> nofun)
  | readNow hpc | readCpu hpc => exact h.setPc _ nofun
  | number hpc | renumber hpc =>
    have hbump : Exclusive s.bump := ⟨h.task, h.tick⟩
    exact hbump.setPc _ nofun
  | acquire hpc hmode hlock => exact h.acquire hmode hlock
  | perform hpc => exact h.perform hpc
  | @move t cpu hpc =>
    refine ⟨fun t' job ht' => ?_, h.tick⟩
    have hne : t' ≠ t := by
      rintro rfl
      exact hpc job ht'
    obtain ⟨hl, hm⟩ := h.task t' job ht'
    exact ⟨hl, (congrArg s.mode (update_of_ne hne ..)).trans hm⟩
  | wait hle | expire c => exact ⟨h.task, h.tick⟩
  | @ipi c hmode =>
    have hlowered : Exclusive { s with ipi := update s.ipi c false } := ⟨h.task, h.tick⟩
    exact hlowered.setMode (fun t ht => by cases hmode.symm.trans ht) nofun
  | @timerIrq c hmode =>
    have hlowered : Exclusive { s with timerIrq := update s.timerIrq c false } :=
      ⟨h.task, h.tick⟩
    exact hlowered.setMode (fun t ht => by cases hmode.symm.trans ht) nofun
  | enter hmode => exact h.setMode (fun t ht => by cases hmode.symm.trans ht) nofun
  | drain hmode hlock => exact h.drain hmode hlock
  | @fire c now e expired hmode =>
    have hfired : Exclusive (s.changeQueue c ((s.queue c).putBack (e.again now))
        (.fired e now s.clock)) := ⟨h.task, h.tick⟩
    exact hfired.fire hmode
  | @finish c now hmode =>
    have harmed : Exclusive (s.reprogram c (s.queue c)) := ⟨h.task, h.tick⟩
    exact harmed.setTick (fun t => hmode.trans_ne nofun)
      (.inr fun t => (h.tick c now [] hmode).trans_ne nofun) nofun

end Exclusive

end Machine

end Bedrock.Services
