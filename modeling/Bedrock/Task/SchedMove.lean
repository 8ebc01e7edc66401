import Bedrock.Task.Sched
import Mathlib.Logic.Relation

/-!
# Task/SchedMove — what a section of the scheduler can do

A section is a short sequence of moves, each of which keeps every invariant of the scheduler on its
own: a task changes place, a task's own code goes on, a CPU goes on.  `Move` lists them with what
the code has checked when it makes them, and `moves_of_schedStep` takes a section apart:

    s --schedStep--▸ s'        is        s --Move--▸ ⋯ --Move--▸ s'

How a CPU stands to the tasks it owns is all that most invariants need of its program counter;
`Seat` is that much of it.
-/

namespace Bedrock

open List

/-- How a CPU stands to the tasks it owns. -/
inductive Seat
  /-- It executes its current task, or idles. -/
  | exec
  /-- A pass of `schedule` that has not yet emptied `CURRENT`. -/
  | early
  /-- …that holds the outgoing task itself. -/
  | taken (prev : Option ℕ)
  /-- …that has taken the outgoing task out of its parked list again. -/
  | resuming (p : ℕ)
  /-- …that has published the next task and not yet left the outgoing one's stack. -/
  | leaving (prev : Option ℕ)
  /-- A call of the idle loop. -/
  | idle
  deriving DecidableEq, Repr

namespace Seat

/-- The task the CPU holds beside its current one. -/
def prev : Seat → Option ℕ
  | taken p => p
  | resuming p => some p
  | leaving p => p
  | _ => none

/-- In these positions `CURRENT` is empty. -/
def Bare : Seat → Prop
  | taken _ => True
  | resuming _ => True
  | idle => True
  | _ => False

end Seat

/-- The seat of a scheduler pass. -/
def Stage.seat : Stage → Seat
  | wake => .early
  | wakeFlush => .early
  | drainSleeping => .early
  | drainWaiters => .early
  | drainFlush => .early
  | take => .early
  | killCheck prev => .taken prev
  | decide prev => .taken prev
  | unparkSleeping p => .taken (some p)
  | unparkWaiters p => .taken (some p)
  | resume p => .resuming p
  | dispatch prev => .taken prev
  | park p => .leaving (some p)
  | parkWake p => .leaving (some p)
  | parkFlush p => .leaving (some p)
  | switch prev => .leaving prev

/-- The seat of a program counter. -/
def Pc.seat : Pc → Seat
  | exec => .exec
  | sched stage => stage.seat
  | idleFlush => .idle
  | reap _ => .idle

theorem Pc.seat_eq_exec {pc : Pc} : pc.seat = .exec ↔ pc = .exec := by
  constructor
  · intro h
    cases pc with
    | exec => rfl
    | sched st => cases st <;> cases h
    | idleFlush | reap st => cases h
  · rintro rfl
    rfl

namespace Cont

/-- The task has marked itself and is about to enter a parked list. -/
def Parking : Cont → Prop
  | sleepInsert _ => True
  | waitPush _ => True
  | _ => False

/-- The task is in `WAITERS` and looks once more for the zombie. -/
def Rechecking : Cont → Prop
  | waitRecheck _ => True
  | waitUnpark _ => True
  | _ => False

/-- The child a task in `wait` has been found to be the parent of. -/
def awaits : Cont → Option ℕ
  | waitTake child => some child
  | waitPresent child => some child
  | waitLive child _ => some child
  | waitPark child => some child
  | waitPush child => some child
  | waitRecheck child => some child
  | waitUnpark child => some child
  | waitUnqueue child => some child
  | _ => none

/-- The task holds nothing and owes nothing. -/
def Plain : Cont → Prop
  | sleepInsert _ => False
  | waitPush _ => False
  | waitRecheck _ => False
  | waitUnpark _ => False
  | waitReclaim _ => False
  | killPark _ => False
  | wakeWaiters _ => False
  | _ => True

theorem Plain.notParking {k : Cont} (h : k.Plain) : ¬ k.Parking := by
  cases k <;> simp_all [Plain, Parking]

theorem Plain.notRechecking {k : Cont} (h : k.Plain) : ¬ k.Rechecking := by
  cases k <;> simp_all [Plain, Rechecking]

end Cont

/-- The task is marked to leave its CPU. -/
def SchedTask.Marked (t : SchedTask) : Prop := t.state = .zzz ∨ t.state = .dead

/-- The orders of sections a run may be known to respect. -/
structure Rules where
  /-- A pending kill is never delivered to a task that has marked itself to park. -/
  killAwake : Prop
  /-- `kill` takes no task out of a parked list while a CPU owns it. -/
  killReleased : Prop
  /-- `wait` takes no zombie while a CPU owns it. -/
  consumeReleased : Prop
  /-- `wait` takes no zombie between the two halves of the orphan pass. -/
  steadyPass : Prop
  /-- A scan of the orphan pass that finds nothing looked for a process that is nowhere. -/
  exactScan : Prop

namespace Sched

def seat (s : Sched) (c : ℕ) : Seat := (s.pc c).seat

/-- The CPU executes the task's own code. -/
def Running (s : Sched) (c p : ℕ) : Prop := s.seat c = .exec ∧ s.current c = some p

/-- Every waiter on the process that is still listed has been flagged. -/
def Heard (s : Sched) (pid : ℕ) : Prop :=
  ∀ p, (p, pid) ∈ s.waiters → (s.task p).wakePending = true

/-- The CPU owns the task: as its current one, or as the outgoing one of a pass. -/
def Holds (s : Sched) (c p : ℕ) : Prop := s.current c = some p ∨ (s.seat c).prev = some p

/-- The tasks waiting to run, in whatever list. -/
def places (s : Sched) : List ℕ := s.queue ++ (s.sleepers ++ s.waiting ++ s.inFlight)

/-- The process is somewhere: in a list, on a CPU, or in the hands of a call that will list it. -/
def Live (s : Sched) (p : ℕ) : Prop :=
  p ∈ s.places ∨ p ∈ s.zombies ∨ (∃ c, s.Holds c p) ∨ ∃ t, s.cont t = .killPark p

/-- The reaper is between the two halves of the orphan pass. -/
def MidPass : Pc → Prop
  | .reap (.judge _ _ _) => True
  | .reap (.remove _) => True
  | _ => False

/-- Tasks leave the parked lists to be queued, or are flagged. -/
structure Wakes (s : Sched) (sleeping waiters : List (ℕ × ℕ)) (waking : List (Waker × ℕ))
    (task : ℕ → SchedTask) : Prop where
  perm : (sleeping.map Prod.snd ++ waiters.map Prod.fst ++ waking.map Prod.snd).Perm
    (s.sleepers ++ s.waiting ++ s.inFlight)
  sleeping : sleeping.Sublist s.sleeping
  waiters : waiters.Sublist s.waiters
  waking : ∀ p ∈ waking.map Prod.snd, p ∈ s.inFlight ∨ (s.task p).owner = none
  task : ∀ p, task p = s.task p ∨ task p = (s.task p).flagged

/-- A turn of a task's own code that moves nothing. -/
inductive ContTurn (s : Sched) (p : ℕ) : Cont → Cont → Prop
  | plain {k k' : Cont} : k.Plain → k'.Plain →
      (∀ child, k'.awaits = some child → k.awaits = some child ∨
        (s.task child).parent = p ∧ s.Live child) → ContTurn s p k k'
  | recheck (child : ℕ) : ContTurn s p (.waitRecheck child) (.waitUnpark child)
  | unqueue (child : ℕ) : p ∉ s.waiting → ContTurn s p (.waitUnpark child) (.waitUnqueue child)
  | heard (pid : ℕ) : s.Heard pid → ContTurn s p (.wakeWaiters pid) .wakeFlush

/-- A turn of a scheduler pass that moves nothing. -/
inductive PassTurn (s : Sched) (c : ℕ) : Pc → Pc → Prop
  | early {st st' : Stage} : st.seat = .early → st'.seat = .early →
      PassTurn s c (.sched st) (.sched st')
  | check (prev : Option ℕ) : PassTurn s c (.sched (.killCheck prev)) (.sched (.decide prev))
  | decide (prev : Option ℕ) : PassTurn s c (.sched (.decide prev)) (.sched (.dispatch prev))
  | woken (p : ℕ) : PassTurn s c (.sched (.decide (some p))) (.sched (.unparkSleeping p))
  | unlisted (p : ℕ) : PassTurn s c (.sched (.unparkSleeping p)) (.sched (.unparkWaiters p))
  | heard (p : ℕ) : s.Heard p → PassTurn s c (.sched (.parkWake p)) (.sched (.parkFlush p))
  | switch (p : ℕ) : PassTurn s c (.sched (.parkFlush p)) (.sched (.switch (some p)))

theorem PassTurn.seat_eq {s : Sched} {c : ℕ} {pc pc' : Pc} (h : PassTurn s c pc pc') :
    pc'.seat = pc.seat := by
  cases h with
  | early h1 h2 => rw [Pc.seat, Pc.seat, h1, h2]
  | _ => rfl

/-- A turn of the reaper that moves nothing. -/
inductive Verdict (R : Rules) (s : Sched) : ReapStage → ReapStage → Prop
  | freed (p : ℕ) (ps : List ℕ) (orphans : Bool) :
      Verdict R s (.free (p :: ps) orphans) (.free ps orphans)
  | scan : Verdict R s (.free [] false) .scan
  | candidates :
      Verdict R s .scan (.judge (candidatesFrom s.task 0 s.zombies) (.cpu 0) [])
  | keep (k : Candidate) (ks idx : List Candidate) (pos : ScanPos) :
      Verdict R s (.judge (k :: ks) pos idx) (.judge ks (.cpu 0) idx)
  | next (k : Candidate) (ks idx : List Candidate) (pos pos' : ScanPos) :
      Verdict R s (.judge (k :: ks) pos idx) (.judge (k :: ks) pos' idx)
  | orphan (k : Candidate) (ks idx : List Candidate) (pos : ScanPos) :
      k.task.parent = 0 ∨ (R.exactScan → ¬ s.Live k.task.parent) →
      Verdict R s (.judge (k :: ks) pos idx) (.judge ks (.cpu 0) (k :: idx))
  | done (idx : List Candidate) (pos : ScanPos) : Verdict R s (.judge [] pos idx) (.remove idx)

/-- **The moves of the scheduler.** -/
inductive Move (R : Rules) : Sched → Sched → Prop
  -- a CPU or a task goes on
  | pass (s : Sched) (c : ℕ) (pc : Pc) : PassTurn s c (s.pc c) pc → Move R s (s.goto c pc)
  | cont (s : Sched) (c p : ℕ) (k : Cont) : s.Running c p → ContTurn s p (s.cont p) k →
      Move R s (s.setCont p k)
  | enter (s : Sched) (c : ℕ) : s.seat c = .exec →
      (∀ p, s.current c = some p → (s.task p).state = .running ∨ (s.cont p).Plain) →
      Move R s (s.goto c (.sched .wake))
  | commit (s : Sched) (c p child : ℕ) : s.Running c p → s.cont p = .waitRecheck child →
      child ∉ s.zombies → Move R s ((s.goto c (.sched .wake)).setCont p (.waitTake child))
  | idle (s : Sched) (c : ℕ) (pc : Pc) : s.seat c = .exec → s.current c = none →
      pc = .idleFlush ∨ pc = .reap .drain ∧ c = 0 → Move R s (s.goto c pc)
  | idleDone (s : Sched) (c : ℕ) : s.pc c = .idleFlush ∨ s.pc c = .reap (.free [] true) →
      Move R s (s.goto c .exec)
  -- a task's flags and state
  | note (s : Sched) (p : ℕ) (killPending : Bool) (exitCode : ℕ) :
      Move R s (s.modTask p fun t => { t with killPending := killPending, exitCode := exitCode })
  | exit (s : Sched) (c p : ℕ) : s.Running c p → (s.cont p).Plain → Move R s (s.setState p .dead)
  | killed (s : Sched) (c p : ℕ) : s.seat c = .taken (some p) →
      (R.killAwake → (s.task p).state ≠ .zzz) → Move R s (s.setState p .dead)
  | mark (s : Sched) (c p : ℕ) (k : Cont) : s.Running c p → (s.cont p).Plain → k.Parking →
      (∀ child, k.awaits = some child → (s.cont p).awaits = some child) →
      Move R s ((s.setState p .zzz).setCont p k)
  -- waking
  | wake (s : Sched) (sleeping waiters : List (ℕ × ℕ)) (waking : List (Waker × ℕ))
      (task : ℕ → SchedTask) : Wakes s sleeping waiters waking task →
      Move R s { s with sleeping := sleeping, waiters := waiters, waking := waking, task := task }
  | flush (s : Sched) (w : Waker) :
      (∀ p ∈ s.due w, (s.task p).owner = none ∧ (s.task p).queued = false) →
      Move R s (s.flushed w)
  -- parking
  | sleepInsert (s : Sched) (c p d : ℕ) : s.Running c p → s.cont p = .sleepInsert d →
      Move R s { (s.setCont p .user).goto c (.sched .wake) with
        sleeping := insertSleeper d p s.sleeping }
  | waitPush (s : Sched) (c p child : ℕ) : s.Running c p → s.cont p = .waitPush child →
      Move R s { s.setCont p (.waitRecheck child) with waiters := s.waiters ++ [(p, child)] }
  | unpark (s : Sched) (c p child : ℕ) : s.Running c p → s.cont p = .waitUnpark child →
      Move R s ({ s with waiters := s.waiters.eraseP fun e => e.1 = p }.recovered c p child)
  | recover (s : Sched) (c p child : ℕ) : s.Running c p → s.cont p = .waitUnqueue child →
      Move R s (s.recovered c p child)
  -- dispatch
  | take (s : Sched) (c : ℕ) : s.pc c = .sched .take →
      Move R s { s.goto c (.sched (.killCheck (s.current c))) with
        current := Function.update s.current c none }
  | unparkSleeping (s : Sched) (c p : ℕ) : s.pc c = .sched (.unparkSleeping p) → p ∈ s.sleepers →
      Move R s
        ({ s with sleeping := s.sleeping.eraseP fun e => e.2 = p }.goto c (.sched (.resume p)))
  | unparkWaiters (s : Sched) (c p : ℕ) : s.pc c = .sched (.unparkWaiters p) → p ∈ s.waiting →
      Move R s
        ({ s with waiters := s.waiters.eraseP fun e => e.1 = p }.goto c (.sched (.resume p)))
  | resume (s : Sched) (c p : ℕ) : s.pc c = .sched (.resume p) →
      Move R s ((((s.clearWake p).setState p .running).publish c (some p)).goto c .exec)
  | keep (s : Sched) (c p : ℕ) : s.pc c = .sched (.dispatch (some p)) →
      (s.task p).state ≠ .dead → (s.task p).state ≠ .zzz →
      Move R s ((s.publish c (some p)).goto c .exec)
  | claim (s : Sched) (c n credit : ℕ) (prev : Option ℕ) (pc : Pc) :
      s.pc c = .sched (.dispatch prev) → n ∈ s.queue → (s.task n).owner = none →
      (pc = .sched (.switch prev) ∨
        ∃ p, prev = some p ∧ pc = .sched (.park p) ∧ (s.task p).state = .dead) →
      Move R s ((s.claim c n credit).goto c pc)
  | swap (s : Sched) (c n credit p : ℕ) : s.pc c = .sched (.dispatch (some p)) → n ∈ s.queue →
      (s.task n).owner = none → (s.task p).state ≠ .dead → (s.task p).state ≠ .zzz →
      Move R s (((s.claim c n credit).goto c (.sched (.switch (some p)))).requeue p)
  | vacate (s : Sched) (c : ℕ) (prev : Option ℕ) (pc : Pc) :
      s.pc c = .sched (.dispatch prev) →
      (prev = none ∧ pc = .exec ∨ pc = .sched (.switch prev) ∨
        ∃ p, prev = some p ∧ pc = .sched (.park p) ∧ (s.task p).state = .dead) →
      Move R s ((s.publish c none).goto c pc)
  | release (s : Sched) (c p : ℕ) : s.pc c = .sched (.switch (some p)) →
      Move R s ((s.modTask p fun t => { t with owner := none }).goto c .exec)
  | switched (s : Sched) (c : ℕ) : s.pc c = .sched (.switch none) → Move R s (s.goto c .exec)
  -- dying
  | parkZombie (s : Sched) (c p : ℕ) : s.pc c = .sched (.park p) →
      Move R s ({ s with zombies := s.zombies ++ [p] }.goto c (.sched (.parkWake p)))
  | killQueue (s : Sched) (c p pid : ℕ) : s.Running c p → s.cont p = .killQueue pid →
      pid ∈ s.queue →
      Move R s { (s.modTask pid fun t => { t with queued := false }).setCont p (.killPark pid) with
        queue := s.queue.erase pid }
  | killSleeping (s : Sched) (c p pid : ℕ) : s.Running c p → s.cont p = .killSleeping pid →
      pid ∈ s.sleepers → (R.killReleased → (s.task pid).owner = none) →
      Move R s { (s.clearWake pid).setCont p (.killPark pid) with
        sleeping := s.sleeping.eraseP fun e => e.2 = pid }
  | killWaiters (s : Sched) (c p pid : ℕ) : s.Running c p → s.cont p = .killWaiters pid →
      pid ∈ s.waiting → (R.killReleased → (s.task pid).owner = none) →
      Move R s { (s.clearWake pid).setCont p (.killPark pid) with
        waiters := s.waiters.eraseP fun e => e.1 = pid }
  | killPark (s : Sched) (c p pid : ℕ) : s.Running c p → s.cont p = .killPark pid →
      Move R s { (s.modTask pid fun t =>
          { t with state := .dead, exitCode := killedExitCode }).setCont p (.wakeWaiters pid) with
        zombies := s.zombies ++ [pid] }
  | consume (s : Sched) (c p child : ℕ) : s.Running c p → s.cont p = .waitTake child →
      child ∈ s.zombies → (R.consumeReleased → (s.task child).owner = none) →
      (R.steadyPass → ¬ MidPass (s.pc 0)) →
      Move R s { s.setCont p (.waitReclaim child) with
        zombies := s.zombies.erase child
        consumed := (p, child) :: s.consumed }
  | reclaim (s : Sched) (c p child : ℕ) : s.Running c p → s.cont p = .waitReclaim child →
      Move R s { s.setCont p .user with reclaim := s.reclaim ++ [child] }
  -- reaping
  | drain (s : Sched) (c : ℕ) : s.pc c = .reap .drain →
      Move R s ({ s with reclaim := [] }.goto c (.reap (.free s.reclaim false)))
  | verdict (s : Sched) (c : ℕ) (st st' : ReapStage) : s.pc c = .reap st → Verdict R s st st' →
      Move R s (s.goto c (.reap st'))
  | remove (s : Sched) (c : ℕ) (idx : List Candidate) (zombies freed : List ℕ) :
      s.pc c = .reap (.remove idx) →
      removeAll s.zombies (idx.map Candidate.index) = some (zombies, freed) →
      Move R s ({ s with zombies := zombies }.goto c (.reap (.free freed true)))
  -- new tasks
  | spawn (s : Sched) (prio : Priority) (parent : ℕ) : parent ≤ s.lastId →
      Move R s (s.spawn prio parent)
  | launch (s : Sched) (c : ℕ) : s.seat c = .exec → s.current c = none → Move R s (s.launch c)

/-! ## The waking functions -/

variable {s : Sched}

theorem flag_eq (task : ℕ → SchedTask) (ps : List ℕ) (p : ℕ) :
    flag task ps p = task p ∨ flag task ps p = (task p).flagged := by
  unfold flag
  split <;> simp

theorem owned_eq_false {p : ℕ} : s.owned p = false ↔ (s.task p).owner = none := by
  simp [owned]

/-- Splitting a list of sleepers in two moves no sleeper out of sight. -/
theorem perm_of_sleeping {sleeping due : List (ℕ × ℕ)} (w : Waker)
    (h : (sleeping ++ due).Perm s.sleeping) : (sleeping.map Prod.snd ++ s.waiting ++
      (s.waking ++ due.map fun e => (w, e.2)).map Prod.snd).Perm
      (s.sleepers ++ s.waiting ++ s.inFlight) := by
  have hsl : (sleeping.map Prod.snd ++ due.map Prod.snd).Perm s.sleepers := by
    simpa [sleepers] using h.map Prod.snd
  have hmap : (s.waking ++ due.map fun e => (w, e.2)).map Prod.snd
      = s.inFlight ++ due.map Prod.snd := by simp [inFlight]
  grind

/-- …nor does splitting the waiters. -/
theorem perm_of_waiters {waiters due : List (ℕ × ℕ)} (w : Waker)
    (h : (waiters ++ due).Perm s.waiters) : (s.sleepers ++ waiters.map Prod.fst ++
      (s.waking ++ due.map fun e => (w, e.1)).map Prod.snd).Perm
      (s.sleepers ++ s.waiting ++ s.inFlight) := by
  have hwt : (waiters.map Prod.fst ++ due.map Prod.fst).Perm s.waiting := by
    simpa [waiting] using h.map Prod.fst
  have hmap : (s.waking ++ due.map fun e => (w, e.1)).map Prod.snd
      = s.inFlight ++ due.map Prod.fst := by simp [inFlight]
  grind

/-- What joins the tasks in flight was owned by no CPU. -/
theorem unowned_of_waking {α : Type*} {due : List α} (w : Waker) (f : α → ℕ)
    (h : ∀ e ∈ due, s.owned (f e) = false) :
    ∀ p ∈ (s.waking ++ due.map fun e => (w, f e)).map Prod.snd,
      p ∈ s.inFlight ∨ (s.task p).owner = none := by
  intro p hp
  simp only [map_append, map_map, mem_append, mem_map] at hp
  obtain hp | ⟨e, he, rfl⟩ := hp
  · exact .inl (mem_map.mpr hp)
  · exact .inr (owned_eq_false.mp (h e he))

theorem wakes_wakeSleepers (s : Sched) (w : Waker) (now : ℕ) :
    Wakes s (s.wakeSleepers w now).sleeping s.waiters (s.wakeSleepers w now).waking
      (s.wakeSleepers w now).task where
  perm := by
    refine perm_of_sleeping w ?_
    have hearly := filter_append_perm (fun e : ℕ × ℕ => s.owned e.2)
      (s.sleeping.takeWhile fun e => decide (e.1 ≤ now))
    conv_rhs => rw [← takeWhile_append_dropWhile (p := fun e : ℕ × ℕ => decide (e.1 ≤ now))
      (l := s.sleeping)]
    refine List.Perm.trans ?_ (hearly.append_right _)
    simp only [wakeSleepers, append_assoc]
    exact perm_append_comm.append_left _
  sleeping := by
    conv_rhs => rw [← takeWhile_append_dropWhile (p := fun e : ℕ × ℕ => decide (e.1 ≤ now))
      (l := s.sleeping)]
    exact filter_sublist.append (.refl _)
  waiters := .refl _
  waking := unowned_of_waking w Prod.snd fun e he => by simpa using (mem_filter.mp he).2
  task := flag_eq _ _

theorem wakes_drainSleeping (s : Sched) (w : Waker) :
    Wakes s (s.drainSleeping w).sleeping s.waiters (s.drainSleeping w).waking s.task where
  perm := by
    refine perm_of_sleeping w ?_
    have := filter_append_perm (fun e : ℕ × ℕ => s.released e.2) s.sleeping
    exact perm_append_comm.trans this
  sleeping := filter_sublist
  waiters := .refl _
  waking := unowned_of_waking w Prod.snd fun e he => by
    have := (mem_filter.mp he).2
    simp only [released, Bool.and_eq_true, Bool.not_eq_true'] at this
    exact this.2
  task := fun _ => .inl rfl

theorem wakes_drainWaiters (s : Sched) (w : Waker) :
    Wakes s s.sleeping (s.drainWaiters w).waiters (s.drainWaiters w).waking s.task where
  perm := by
    refine perm_of_waiters w ?_
    have := filter_append_perm (fun e : ℕ × ℕ => s.released e.1) s.waiters
    exact perm_append_comm.trans this
  sleeping := .refl _
  waiters := filter_sublist
  waking := unowned_of_waking w Prod.fst fun e he => by
    have := (mem_filter.mp he).2
    simp only [released, Bool.and_eq_true, Bool.not_eq_true'] at this
    exact this.2
  task := fun _ => .inl rfl

theorem wakes_wakeWaiters (s : Sched) (w : Waker) (pid : ℕ) :
    Wakes s s.sleeping (s.wakeWaiters w pid).waiters (s.wakeWaiters w pid).waking
      (s.wakeWaiters w pid).task where
  perm := by
    refine perm_of_waiters w ?_
    have := filter_append_perm (fun e : ℕ × ℕ => decide (e.2 = pid) && !s.owned e.1) s.waiters
    exact perm_append_comm.trans this
  sleeping := .refl _
  waiters := filter_sublist
  waking := unowned_of_waking w Prod.fst fun e he => by
    have := (mem_filter.mp he).2
    simp only [Bool.and_eq_true, Bool.not_eq_true'] at this
    exact this.2
  task := flag_eq _ _

/-- After `wake_waiters_for` has looked at `WAITERS`, every waiter left there is flagged. -/
theorem heard_wakeWaiters (s : Sched) (w : Waker) (pid : ℕ) : (s.wakeWaiters w pid).Heard pid := by
  intro p hp
  obtain ⟨hmem, hkeep⟩ := mem_filter.mp hp
  have howned : s.owned p = true := by simpa using hkeep
  have hflag : p ∈ (s.waiters.filter fun e => decide (e.2 = pid) && s.owned e.1).map Prod.fst :=
    mem_map.mpr ⟨(p, pid), mem_filter.mpr ⟨hmem, by simp [howned]⟩, rfl⟩
  simp only [wakeWaiters, flag, hflag]
  rfl

theorem removeAll_subset : ∀ {is zs zs' freed : List ℕ}, removeAll zs is = some (zs', freed) →
    (∀ z ∈ zs', z ∈ zs) ∧ ∀ z ∈ freed, z ∈ zs
  | [], zs, zs', freed, h => by
    cases h
    exact ⟨fun z hz => hz, fun z hz => by simp at hz⟩
  | i :: is, zs, zs', freed, h => by
    simp only [removeAll] at h
    split at h
    · cases h
    rename_i z0 hz0
    obtain ⟨⟨zs1, freed1⟩, hrest, heq⟩ := Option.map_eq_some_iff.mp h
    cases heq
    have ih := removeAll_subset hrest
    refine ⟨fun z hz => mem_of_mem_eraseIdx (ih.1 z hz), fun z hz => ?_⟩
    obtain rfl | hz := mem_cons.mp hz
    · exact mem_of_getElem? hz0
    · exact mem_of_mem_eraseIdx (ih.2 z hz)

end Sched

end Bedrock
