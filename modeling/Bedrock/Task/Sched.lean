import Bedrock.Lib.Run

/-!
# Task/Sched — the scheduler, one lock-protected section at a time

Tasks move between five lists, each behind its own lock, and the CPUs' `CURRENT` slots:

              spawn              dispatch               exit, kill
    (new) ----------▸ QUEUE ◂--------------▸ CURRENT --------------▸ ZOMBIES --wait--▸ RECLAIM
                        ▴                       |                       |                 |
                        | wake                  ▾ sleep_until, wait     └----reap_dead----┴--▸ freed
                        └----------- SLEEPING, WAITERS

No call holds two of the list locks at once, so every call is a sequence of sections between which
other CPUs run.  A step of `schedStep` is one section.  What a call has taken out of a list and not
yet put into another is kept with the caller: in its program counter, or, for tasks about to be
queued, in the table `waking`.

A task that calls into the scheduler may be preempted between two sections as long as its state is
`running`; so the position in a call belongs to the task (`cont`), while a pass of `schedule`, which
runs with preemption disabled, belongs to the CPU (`pc`).
-/

namespace Bedrock

open Function

/-- `TaskState`. -/
inductive TaskState
  | ready | running | zzz | dead
  deriving DecidableEq, Repr

/-- `Priority`. -/
inductive Priority
  | interactive | batch
  deriving DecidableEq, Repr

/-- What the scheduler reads and writes of a task.  `owner` is `owner_cpu`, absent for
`TASK_NO_CPU`; `queued` says that `queue_cpu` is `TASK_GLOBAL_QUEUE`. -/
structure SchedTask where
  state : TaskState
  killPending : Bool
  wakePending : Bool
  prio : Priority
  owner : Option ℕ
  queued : Bool
  exitCode : ℕ
  parent : ℕ
  deriving DecidableEq, Repr

/-- The places `with_task` looks for a process, in its order. -/
inductive ScanPos
  | cpu (i : ℕ) | queue | sleeping | waiters | zombies
  deriving DecidableEq, Repr

/-- Where a task stands in its own code: outside the scheduler (`user`), or before the next section
of a call. -/
inductive Cont
  | user
  /-- The halting loop behind `kill_current`. -/
  | halt
  /-- `sleep_until`, marked and not yet listed. -/
  | sleepInsert (deadline : ℕ)
  /-- `kill_current`, before the task is marked. -/
  | exitMark
  /-- `wait`: the parent check, `take_zombie`, the push to `RECLAIM`, … -/
  | waitParent (child : ℕ) (pos : ScanPos)
  | waitTake (child : ℕ)
  | waitReclaim (child : ℕ)
  | waitPresent (child : ℕ)
  | waitLive (child : ℕ) (pos : ScanPos)
  | waitPark (child : ℕ)
  | waitPush (child : ℕ)
  | waitRecheck (child : ℕ)
  | waitUnpark (child : ℕ)
  | waitUnqueue (child : ℕ)
  /-- `kill`: the caller, the other CPUs' `CURRENT`, their mirrors, `take_from_lists`, … -/
  | killSelf (pid : ℕ)
  | killCurrent (pid i : ℕ)
  | killMirror (pid i : ℕ)
  | killQueue (pid : ℕ)
  | killSleeping (pid : ℕ)
  | killWaiters (pid : ℕ)
  | killPark (pid : ℕ)
  /-- `wake_waiters_for`, under `WAITERS` and under `QUEUE`. -/
  | wakeWaiters (pid : ℕ)
  | wakeFlush
  deriving DecidableEq, Repr

/-- The sections of `schedule`, with the task the pass has taken out of `CURRENT`. -/
inductive Stage
  /-- `wake_sleepers`. -/
  | wake | wakeFlush
  /-- `drain_released_wakes`. -/
  | drainSleeping | drainWaiters | drainFlush
  | take
  | killCheck (prev : Option ℕ)
  | decide (prev : Option ℕ)
  /-- `remove_parked_task` and the rest of the early return. -/
  | unparkSleeping (p : ℕ) | unparkWaiters (p : ℕ) | resume (p : ℕ)
  | dispatch (prev : Option ℕ)
  /-- `park_zombie`. -/
  | park (p : ℕ) | parkWake (p : ℕ) | parkFlush (p : ℕ)
  | switch (prev : Option ℕ)
  deriving DecidableEq, Repr

/-- A zombie recorded by the orphan pass: its position, which the pass goes back to, and the task as
it was found there, of which the pass reads the parent. -/
structure Candidate where
  index : ℕ
  pid : ℕ
  task : SchedTask
  deriving DecidableEq, Repr

/-- The sections of `reap_dead`. -/
inductive ReapStage
  | drain
  /-- `reap_one` of each of the tasks, from `RECLAIM` or from the orphan pass. -/
  | free (tasks : List ℕ) (orphans : Bool)
  | scan
  /-- The candidates still to judge, the scan for the first one's parent, and those to free. -/
  | judge (todo : List Candidate) (pos : ScanPos) (freeIdx : List Candidate)
  | remove (freeIdx : List Candidate)
  deriving DecidableEq, Repr

/-- What a CPU executes: its current task's code or the idle loop (`exec`), a pass of `schedule`,
or a call of the idle loop. -/
inductive Pc
  | exec
  | sched (stage : Stage)
  | idleFlush
  | reap (stage : ReapStage)
  deriving DecidableEq, Repr

/-- Who is about to queue a task: a CPU's scheduler or idle loop, or a task in a call of `kill`. -/
inductive Waker
  | cpu (c : ℕ) | task (p : ℕ)
  deriving DecidableEq, Repr

/-- The scheduler's state.  `consumed` records the zombies `wait` has taken, with the waiter. -/
structure Sched where
  ncpus : ℕ
  lastId : ℕ
  task : ℕ → SchedTask
  cont : ℕ → Cont
  current : ℕ → Option ℕ
  mirror : ℕ → Option ℕ
  pc : ℕ → Pc
  credit : ℕ → ℕ
  queue : List ℕ
  sleeping : List (ℕ × ℕ)
  waiters : List (ℕ × ℕ)
  waking : List (Waker × ℕ)
  zombies : List ℕ
  reclaim : List ℕ
  consumed : List (ℕ × ℕ)

/-- `KILLED_EXIT_CODE`. -/
def killedExitCode : ℕ := 0xDEADBEEF

/-- `WEIGHT_INTERACTIVE`. -/
def weightInteractive : ℕ := 3

/-- `Task::new`. -/
def SchedTask.new (prio : Priority) (parent : ℕ) : SchedTask :=
  ⟨.ready, false, false, prio, none, false, 0, parent⟩

/-- `wake_pending` is set. -/
def SchedTask.flagged (t : SchedTask) : SchedTask := { t with wakePending := true }

/-- The task is made ready and marked as queued. -/
def SchedTask.woken (t : SchedTask) : SchedTask :=
  { t with state := .ready, wakePending := false, queued := true }

variable (s : Sched)

namespace Sched

/-- No task yet, and every CPU in its idle loop. -/
def boot (ncpus : ℕ) : Sched where
  ncpus := ncpus
  lastId := 0
  task := fun _ => .new .interactive 0
  cont := fun _ => .user
  current := fun _ => none
  mirror := fun _ => none
  pc := fun _ => .exec
  credit := fun _ => weightInteractive
  queue := []
  sleeping := []
  waiters := []
  waking := []
  zombies := []
  reclaim := []
  consumed := []

/-! ## The lists, by process -/

/-- The processes in `SLEEPING`. -/
def sleepers : List ℕ := s.sleeping.map Prod.snd

/-- The processes in `WAITERS`. -/
def waiting : List ℕ := s.waiters.map Prod.fst

/-- The processes taken out of a list to be queued. -/
def inFlight : List ℕ := s.waking.map Prod.snd

def owned (p : ℕ) : Bool := (s.task p).owner.isSome

/-! ## Elementary updates -/

def goto (c : ℕ) (pc : Pc) : Sched := { s with pc := update s.pc c pc }

def setCont (p : ℕ) (k : Cont) : Sched :=
  { s with cont := update s.cont p k }

def modTask (p : ℕ) (f : SchedTask → SchedTask) : Sched :=
  { s with task := update s.task p (f (s.task p)) }

def setState (p : ℕ) (st : TaskState) : Sched :=
  s.modTask p fun t => { t with state := st }

def clearWake (p : ℕ) : Sched := s.modTask p fun t => { t with wakePending := false }

/-- Publish a task, or nobody, as what a CPU runs, in `CURRENT` and its mirror. -/
def publish (c : ℕ) (p : Option ℕ) : Sched :=
  { s with
    current := update s.current c p
    mirror := update s.mirror c p }

/-! ## Waking -/

/-- Set `wake_pending` of the given tasks. -/
def flag (task : ℕ → SchedTask) (ps : List ℕ) : ℕ → SchedTask := fun p =>
  if p ∈ ps then (task p).flagged else task p

variable (w : Waker)

/-- `wake_sleepers` under `SLEEPING`: the expired entries at the front are taken out, except those
whose task some CPU still owns; these are flagged. -/
def wakeSleepers (now : ℕ) : Sched :=
  let early := s.sleeping.takeWhile fun e => decide (e.1 ≤ now)
  let kept := early.filter fun e => s.owned e.2
  { s with
    sleeping := kept ++ s.sleeping.dropWhile fun e => decide (e.1 ≤ now)
    waking := s.waking ++ (early.filter fun e => !s.owned e.2).map fun e => (w, e.2)
    task := flag s.task (kept.map Prod.snd) }

/-- A flagged task that no CPU owns any more. -/
def released (p : ℕ) : Bool := (s.task p).wakePending && !s.owned p

/-- `drain_released_wakes` under `SLEEPING`. -/
def drainSleeping : Sched :=
  { s with
    sleeping := s.sleeping.filter fun e => !s.released e.2
    waking := s.waking ++ (s.sleeping.filter fun e => s.released e.2).map fun e => (w, e.2) }

/-- …and under `WAITERS`. -/
def drainWaiters : Sched :=
  { s with
    waiters := s.waiters.filter fun e => !s.released e.1
    waking := s.waking ++ (s.waiters.filter fun e => s.released e.1).map fun e => (w, e.1) }

/-- `wake_waiters_for` under `WAITERS`. -/
def wakeWaiters (pid : ℕ) : Sched :=
  { s with
    waiters := s.waiters.filter fun e => !(decide (e.2 = pid) && !s.owned e.1)
    waking := s.waking ++
      (s.waiters.filter fun e => decide (e.2 = pid) && !s.owned e.1).map fun e => (w, e.1)
    task := flag s.task
      ((s.waiters.filter fun e => decide (e.2 = pid) && s.owned e.1).map Prod.fst) }

/-- The tasks a waker has taken out of a list. -/
def due : List ℕ := (s.waking.filter fun e => e.1 = w).map Prod.snd

/-- The `QUEUE` section of the waking functions… -/
def flushed : Sched :=
  { s with
    queue := s.queue ++ s.due w
    waking := s.waking.filter fun e => !decide (e.1 = w)
    task := fun p => if p ∈ s.due w then (s.task p).woken else s.task p }

/-- …in which `mark_queued` stops the kernel on a task that is owned or queued already. -/
def flush : Option Sched :=
  if (s.due w).Nodup ∧ ∀ p ∈ s.due w, (s.task p).owner = none ∧ (s.task p).queued = false then
    some (s.flushed w)
  else none

/-! ## Dispatch -/

/-- A queued task `schedule` may pick for a class. -/
def readyFor (prio : Priority) (p : ℕ) : Bool :=
  (s.task p).state = .ready && !s.owned p && (s.task p).prio = prio

/-- The weighted round-robin pick, with the credit it leaves. -/
def pick (c : ℕ) : Option (ℕ × ℕ) :=
  match s.queue.find? (s.readyFor .interactive), s.queue.find? (s.readyFor .batch) with
  | some i, some b =>
    if 0 < s.credit c then some (i, s.credit c - 1) else some (b, weightInteractive)
  | some i, none => some (i, s.credit c - 1)
  | none, some b => some (b, weightInteractive)
  | none, none => none

/-- Take the picked task out of the queue, for this CPU. -/
def claim (c n credit : ℕ) : Sched :=
  { (s.modTask n fun t => { t with queued := false, owner := some c, state := .running }).publish c
      (some n) with
    queue := s.queue.erase n
    credit := update s.credit c credit }

/-- Put the outgoing task back; its owner is released by `switch_to`. -/
def requeue (p : ℕ) : Sched :=
  { s.modTask p fun t => { t with state := .ready, queued := true } with queue := s.queue ++ [p] }

/-- `schedule` under `QUEUE`: pick, claim, and decide what becomes of the outgoing task. -/
def dispatch (c : ℕ) (prev : Option ℕ) : Option Sched :=
  match s.pick c, prev with
  | some (n, credit), none =>
    if (s.task n).queued then some ((s.claim c n credit).goto c (.sched (.switch none))) else none
  | some (n, credit), some p =>
    if (s.task n).queued then
      let s' := s.claim c n credit
      if p = n then some (s'.goto c .exec)
      else match (s.task p).state with
        | .dead => some (s'.goto c (.sched (.park p)))
        | .zzz => some (s'.goto c (.sched (.switch (some p))))
        | _ =>
          if (s.task p).queued then
            some ((s'.setState p .ready).goto c (.sched (.switch (some p))))
          else if (s.task p).owner = some c then
            some ((s'.goto c (.sched (.switch (some p)))).requeue p)
          else none
    else none
  | none, none => some ((s.publish c none).goto c .exec)
  | none, some p =>
    match (s.task p).state with
    | .dead => some ((s.publish c none).goto c (.sched (.park p)))
    | .zzz => some ((s.publish c none).goto c (.sched (.switch (some p))))
    | _ => some ((s.publish c (some p)).goto c .exec)

/-- One section of a pass of `schedule`. -/
def passStep (c now : ℕ) : Stage → Option Sched
  | .wake => some ((s.wakeSleepers (.cpu c) now).goto c (.sched .wakeFlush))
  | .wakeFlush => (s.flush (.cpu c)).map (·.goto c (.sched .drainSleeping))
  | .drainSleeping => some ((s.drainSleeping (.cpu c)).goto c (.sched .drainWaiters))
  | .drainWaiters => some ((s.drainWaiters (.cpu c)).goto c (.sched .drainFlush))
  | .drainFlush => (s.flush (.cpu c)).map (·.goto c (.sched .take))
  | .take =>
    some { s.goto c (.sched (.killCheck (s.current c))) with
      current := update s.current c none }
  | .killCheck none => some (s.goto c (.sched (.decide none)))
  | .killCheck (some p) =>
    if (s.task p).killPending then
      some (((s.modTask p fun t => { t with killPending := false }).setState p .dead).goto c
        (.sched (.decide (some p))))
    else some (s.goto c (.sched (.decide (some p))))
  | .decide none => some (s.goto c (.sched (.dispatch none)))
  | .decide (some p) =>
    if (s.task p).state = .zzz ∧ (s.task p).wakePending then
      some (s.goto c (.sched (.unparkSleeping p)))
    else some (s.goto c (.sched (.dispatch (some p))))
  | .unparkSleeping p =>
    if p ∈ s.sleepers then
      some ({ s with sleeping := s.sleeping.eraseP fun e => e.2 = p }.goto c (.sched (.resume p)))
    else some (s.goto c (.sched (.unparkWaiters p)))
  | .unparkWaiters p =>
    if p ∈ s.waiting then
      some ({ s with waiters := s.waiters.eraseP fun e => e.1 = p }.goto c (.sched (.resume p)))
    else none
  | .resume p =>
    some ((((s.clearWake p).setState p .running).publish c (some p)).goto c .exec)
  | .dispatch prev => s.dispatch c prev
  | .park p => some ({ s with zombies := s.zombies ++ [p] }.goto c (.sched (.parkWake p)))
  | .parkWake p => some ((s.wakeWaiters (.cpu c) p).goto c (.sched (.parkFlush p)))
  | .parkFlush p => (s.flush (.cpu c)).map (·.goto c (.sched (.switch (some p))))
  | .switch none => some (s.goto c .exec)
  | .switch (some p) => some ((s.modTask p fun t => { t with owner := none }).goto c .exec)

/-! ## The calls of a task -/

/-- Does `with_task` find the process at this place? -/
def scanHit (pid : ℕ) : ScanPos → Bool
  | .cpu i => s.current i = some pid || (s.current i = none && s.mirror i = some pid)
  | .queue => pid ∈ s.queue
  | .sleeping => pid ∈ s.sleepers
  | .waiters => pid ∈ s.waiting
  | .zombies => pid ∈ s.zombies

/-- …and where it looks next. -/
def scanNext : ScanPos → Option ScanPos
  | .cpu i => some (if i + 1 < s.ncpus then .cpu (i + 1) else .queue)
  | .queue => some .sleeping
  | .sleeping => some .waiters
  | .waiters => some .zombies
  | .zombies => none

/-- The sorted insertion of `sleep_until`. -/
def insertSleeper (d p : ℕ) : List (ℕ × ℕ) → List (ℕ × ℕ)
  | [] => [(d, p)]
  | e :: es => if d ≤ e.1 then (d, p) :: e :: es else e :: insertSleeper d p es

/-- A new task in the queue. -/
def spawn (prio : Priority) (parent : ℕ) : Sched :=
  let n := s.lastId + 1
  { s with
    lastId := n
    task := update s.task n { SchedTask.new prio parent with queued := true }
    cont := update s.cont n .user
    queue := s.queue ++ [n] }

/-- `enter_userspace`: the first process starts on the CPU that runs the idle loop. -/
def launch (c : ℕ) : Sched :=
  let n := s.lastId + 1
  { s.publish c (some n) with
    lastId := n
    task := update s.task n
      { SchedTask.new .interactive 0 with owner := some c, state := .running }
    cont := update s.cont n .user }

/-- A waiter that has taken itself out of the lists again looks for the zombie… -/
def recovered (c p child : ℕ) : Sched :=
  (s.modTask p fun t =>
    { t with wakePending := false, state := .running, owner := some c }).setCont p (.waitTake child)

/-- …unless another CPU owns it by now, which stops the kernel. -/
def recover (c p child : ℕ) : Option Sched :=
  if (s.task p).owner = some c ∨ (s.task p).owner = none then some (s.recovered c p child) else none

/-- The next section of the call a task on this CPU is in. -/
def callStep (c p : ℕ) : Cont → Option Sched
  | .user => none
  | .halt => none
  | .sleepInsert d =>
    some { (s.setCont p .user).goto c (.sched .wake) with
      sleeping := insertSleeper d p s.sleeping }
  | .exitMark => some (((s.setState p .dead).setCont p .halt).goto c (.sched .wake))
  | .waitParent child pos =>
    if s.scanHit child pos then
      some (s.setCont p (if (s.task child).parent = p then .waitTake child else .user))
    else some (s.setCont p ((s.scanNext pos).elim .user (.waitParent child)))
  | .waitTake child =>
    if child ∈ s.zombies then
      some { s.setCont p (.waitReclaim child) with
        zombies := s.zombies.erase child
        consumed := (p, child) :: s.consumed }
    else some (s.setCont p (.waitPresent child))
  | .waitReclaim child => some { s.setCont p .user with reclaim := s.reclaim ++ [child] }
  | .waitPresent child =>
    some (s.setCont p (if child ∈ s.zombies then .waitPark child else .waitLive child (.cpu 0)))
  | .waitLive child pos =>
    if s.scanHit child pos then some (s.setCont p (.waitPark child))
    else some (s.setCont p ((s.scanNext pos).elim .user (.waitLive child)))
  | .waitPark child => some ((s.setState p .zzz).setCont p (.waitPush child))
  | .waitPush child =>
    some { s.setCont p (.waitRecheck child) with waiters := s.waiters ++ [(p, child)] }
  | .waitRecheck child =>
    if child ∈ s.zombies then some (s.setCont p (.waitUnpark child))
    else some ((s.goto c (.sched .wake)).setCont p (.waitTake child))
  | .waitUnpark child =>
    if p ∈ s.waiting then
      { s with waiters := s.waiters.eraseP fun e => e.1 = p }.recover c p child
    else some (s.setCont p (.waitUnqueue child))
  | .waitUnqueue child =>
    if p ∈ s.queue then
      if (s.task p).queued then
        { s.modTask p fun t => { t with queued := false } with
          queue := s.queue.erase p }.recover c p child
      else none
    else s.recover c p child
  | .killSelf pid =>
    if pid = p then
      some ((s.modTask p fun t => { t with exitCode := killedExitCode }).setCont p .exitMark)
    else some (s.setCont p (.killCurrent pid 0))
  | .killCurrent pid i =>
    if i < s.ncpus then
      if i ≠ c ∧ s.current i = some pid then
        some ((s.modTask pid fun t =>
          { t with exitCode := killedExitCode, killPending := true }).setCont p .user)
      else some (s.setCont p (.killCurrent pid (i + 1)))
    else some (s.setCont p (.killMirror pid 0))
  | .killMirror pid i =>
    if i < s.ncpus then
      if i ≠ c ∧ s.mirror i = some pid then
        some ((s.modTask pid fun t => { t with killPending := true }).setCont p .user)
      else some (s.setCont p (.killMirror pid (i + 1)))
    else some (s.setCont p (.killQueue pid))
  | .killQueue pid =>
    if pid ∈ s.queue then
      if (s.task pid).queued then
        some { (s.modTask pid fun t => { t with queued := false }).setCont p (.killPark pid) with
          queue := s.queue.erase pid }
      else none
    else some (s.setCont p (.killSleeping pid))
  | .killSleeping pid =>
    if pid ∈ s.sleepers then
      some { (s.clearWake pid).setCont p (.killPark pid) with
        sleeping := s.sleeping.eraseP fun e => e.2 = pid }
    else some (s.setCont p (.killWaiters pid))
  | .killWaiters pid =>
    if pid ∈ s.waiting then
      some { (s.clearWake pid).setCont p (.killPark pid) with
        waiters := s.waiters.eraseP fun e => e.1 = pid }
    else some (s.setCont p .user)
  | .killPark pid =>
    some { (s.modTask pid fun t =>
        { t with state := .dead, exitCode := killedExitCode }).setCont p (.wakeWaiters pid) with
      zombies := s.zombies ++ [pid] }
  | .wakeWaiters pid => some ((s.wakeWaiters (.task p) pid).setCont p .wakeFlush)
  | .wakeFlush => (s.flush (.task p)).map (·.setCont p .user)

/-- What a task may begin outside the scheduler. -/
inductive Call
  | sleepUntil (deadline : ℕ) | wait (child : ℕ) | exit (code : ℕ) | kill (pid : ℕ)
  | spawn (prio : Priority)
  deriving DecidableEq, Repr

/-- The first section of a call. -/
def beginCall (p : ℕ) : Call → Sched
  | .sleepUntil d => (s.setState p .zzz).setCont p (.sleepInsert d)
  | .wait child => s.setCont p (.waitParent child (.cpu 0))
  | .exit code => (s.modTask p fun t => { t with exitCode := code }).setCont p .exitMark
  | .kill pid => s.setCont p (.killSelf pid)
  | .spawn prio => s.spawn prio p

/-! ## The reaper -/

/-- The assertions of `reap_one`. -/
def reapable (p : ℕ) : Bool :=
  (s.task p).owner = none && !(s.task p).queued &&
    (List.range s.ncpus).all fun c => s.mirror c ≠ some p

/-- The zombies the orphan pass records, counted from position `i`. -/
def candidatesFrom (task : ℕ → SchedTask) : ℕ → List ℕ → List Candidate
  | _, [] => []
  | i, z :: zs =>
    if (task z).owner = none ∧ (task z).queued = false then
      ⟨i, z, task z⟩ :: candidatesFrom task (i + 1) zs
    else candidatesFrom task (i + 1) zs

/-- Remove the given positions one after the other, as `Vec::remove` does. -/
def removeAll : List ℕ → List ℕ → Option (List ℕ × List ℕ)
  | zs, [] => some (zs, [])
  | zs, i :: is =>
    match zs[i]? with
    | none => none
    | some z => (removeAll (zs.eraseIdx i) is).map fun r => (r.1, z :: r.2)

/-- One section of `reap_dead`.  A candidate is freed when its parent is zero or a complete scan
has not found it; the positions come out in descending order. -/
def reapStep (c : ℕ) : ReapStage → Option Sched
  | .drain => some ({ s with reclaim := [] }.goto c (.reap (.free s.reclaim false)))
  | .free [] false => some (s.goto c (.reap .scan))
  | .free [] true => some (s.goto c .exec)
  | .free (p :: ps) orphans =>
    if s.reapable p then some (s.goto c (.reap (.free ps orphans))) else none
  | .scan => some (s.goto c (.reap (.judge (candidatesFrom s.task 0 s.zombies) (.cpu 0) [])))
  | .judge [] _ idx => some (s.goto c (.reap (.remove idx)))
  | .judge (k :: ks) pos idx =>
    if k.task.parent = 0 then some (s.goto c (.reap (.judge ks (.cpu 0) (k :: idx))))
    else if s.scanHit k.task.parent pos then some (s.goto c (.reap (.judge ks (.cpu 0) idx)))
    else match s.scanNext pos with
      | some pos' => some (s.goto c (.reap (.judge (k :: ks) pos' idx)))
      | none => some (s.goto c (.reap (.judge ks (.cpu 0) (k :: idx))))
  | .remove idx =>
    (removeAll s.zombies (idx.map Candidate.index)).map fun r =>
      { s with zombies := r.1 }.goto c (.reap (.free r.2 true))

end Sched

/-! ## The machine -/

/-- What the idle loop of a CPU may begin. -/
inductive IdleCall
  | wakeSleepers (now : ℕ) | schedule | reapDead | launch | spawn (prio : Priority)
  deriving DecidableEq, Repr

/-- A scheduling choice: which CPU runs its next section, with the clock where it reads it. -/
inductive SchedAction
  /-- The current task begins a call. -/
  | begin (c : ℕ) (call : Sched.Call)
  /-- The current task goes on with its call. -/
  | call (c : ℕ)
  /-- A timer interrupt preempts the current task. -/
  | preempt (c : ℕ)
  /-- The next section of a pass of `schedule`. -/
  | pass (c now : ℕ)
  /-- The idle loop begins a call, or goes on with it. -/
  | idle (c : ℕ) (call : IdleCall)
  | idleFlush (c : ℕ)
  | reap (c : ℕ)
  deriving DecidableEq, Repr

namespace SchedAction

/-- The CPU that acts. -/
def cpu : SchedAction → ℕ
  | begin c _ => c
  | call c => c
  | preempt c => c
  | pass c _ => c
  | idle c _ => c
  | idleFlush c => c
  | reap c => c

end SchedAction

namespace Sched

/-- The idle loop begins a call; `reap_dead` is kept on the boot CPU. -/
def idleStep (c : ℕ) : IdleCall → Option Sched
  | .wakeSleepers now => some ((s.wakeSleepers (.cpu c) now).goto c .idleFlush)
  | .schedule => some (s.goto c (.sched .wake))
  | .reapDead => if c = 0 then some (s.goto c (.reap .drain)) else none
  | .launch => some (s.launch c)
  | .spawn prio => some (s.spawn prio 0)

/-- One section on one CPU, given what the CPU executes and which task is current. -/
def actStep : SchedAction → Option Sched
  | .begin c call =>
    match s.pc c, s.current c with
    | .exec, some p => if s.cont p = .user then some (s.beginCall p call) else none
    | _, _ => none
  | .call c =>
    match s.pc c, s.current c with
    | .exec, some p => s.callStep c p (s.cont p)
    | _, _ => none
  | .preempt c =>
    match s.pc c, s.current c with
    | .exec, some p =>
      if (s.task p).state = .running then some (s.goto c (.sched .wake)) else none
    | _, _ => none
  | .pass c now =>
    match s.pc c with
    | .sched stage => s.passStep c now stage
    | _ => none
  | .idle c call =>
    match s.pc c, s.current c with
    | .exec, none => s.idleStep c call
    | _, _ => none
  | .idleFlush c =>
    match s.pc c with
    | .idleFlush => (s.flush (.cpu c)).map (·.goto c .exec)
    | _ => none
  | .reap c =>
    match s.pc c with
    | .reap stage => s.reapStep c stage
    | _ => none

end Sched

/-- One lock-protected section of the scheduler. -/
def schedStep (a : SchedAction) : Option Sched :=
  if a.cpu < s.ncpus then s.actStep a else none

end Bedrock
