import Bedrock.Task.SchedMove

/-!
# Task/SchedPlaced — where the tasks are, in every run

Whatever the CPUs do, a task is in at most one of `QUEUE`, `SLEEPING`, `WAITERS` and the wakers'
hands, it is owned by the one CPU that runs or is leaving it, and while it runs it is in none of the
lists, except that a waiter looks once more for its zombie after it has listed itself:

    owner p = some c   ↔   current c = some p   or   c is leaving p
    p ∈ QUEUE, owned        →   its CPU is about to leave it
    p ∈ SLEEPING, WAITERS   →   p is marked, and not running

`Placed` is this invariant and `Placed.move` says that every move keeps it.  It needs no condition
on the run; what it does not say is that a dead task is in none of the lists.
-/

namespace Bedrock

open Function List Option

namespace Sched

/-- The task a CPU with this seat and current task runs, or is about to. -/
def OutBy (seat : Seat) (current : Option ℕ) (p : ℕ) : Prop :=
  current = some p ∧ (seat = .exec ∨ ∃ q, seat = .leaving q) ∨ seat = .resuming p

/-- …which has no business in a parked list. -/
def Out (s : Sched) (c p : ℕ) : Prop := OutBy (s.seat c) (s.current c) p

/-- **Where the tasks are.** -/
structure Placed (s : Sched) : Prop where
  /-- A task waits in one place only. -/
  nodup : s.places.Nodup
  /-- `owner_cpu` names the CPU that runs the task or is leaving it… -/
  owner : ∀ p c, (s.task p).owner = some c ↔ s.Holds c p
  /-- …which does not do both. -/
  apart : ∀ c p, s.current c = some p → (s.seat c).prev ≠ some p
  bare : ∀ c, (s.seat c).Bare → s.current c = none
  /-- `queue_cpu` is set in the queue only. -/
  queued : ∀ p, (s.task p).queued = true → p ∈ s.queue
  /-- A queued task may still be owned by the CPU that has put it back… -/
  leaving : ∀ p c, p ∈ s.queue → (s.task p).owner = some c → s.seat c = .leaving (some p)
  /-- …but not one that a waker holds. -/
  unowned : ∀ p ∈ s.inFlight, (s.task p).owner = none
  /-- A parked task is marked… -/
  marked : ∀ p, p ∈ s.sleepers ∨ p ∈ s.waiting → (s.task p).Marked
  /-- …and not running, unless it looks once more for its zombie. -/
  awake : ∀ c p, s.Out c p → p ∉ s.sleepers
  done : ∀ c p, s.Out c p → p ∈ s.waiting → s.seat c = .exec ∧ (s.cont p).Rechecking
  parking : ∀ p, (s.cont p).Parking → (s.task p).Marked ∧ ∃ c, s.Running c p
  /-- The mirror names the current task, or the one a pass has just taken. -/
  mirror : ∀ c p, s.mirror c = some p →
    s.current c = some p ∨ (s.seat c).Bare ∧ (s.seat c).prev = some p
  /-- A process not yet created is nowhere. -/
  fresh : ∀ p, s.lastId < p → p ∉ s.places ∧ (s.task p).owner = none
  quiet : ∀ p, s.lastId < p → s.cont p = .user

variable {R : Rules} {s s' : Sched} {c p : ℕ}

namespace Placed

variable (h : Placed s)
include h

theorem congr_pc (pc : ℕ → Pc) (hpc : ∀ d, (pc d).seat = s.seat d) :
    Placed { s with pc := pc } := by
  have hseat : seat { s with pc := pc } = s.seat := funext hpc
  exact { h with
    owner := by simpa only [Holds, hseat] using h.owner
    apart := by simpa only [hseat] using h.apart
    bare := by simpa only [hseat] using h.bare
    leaving := by simpa only [hseat] using h.leaving
    awake := by simp only [Out, hseat]; exact h.awake
    done := by simp only [Out, hseat]; exact h.done
    parking := by simpa only [Running, hseat] using h.parking
    mirror := by simpa only [hseat] using h.mirror }

theorem goto (c : ℕ) (pc : Pc) (hpc : pc.seat = s.seat c) : Placed (s.goto c pc) := by
  apply h.congr_pc
  intro d
  obtain rfl | hd := eq_or_ne d c
  · simp [hpc]
  · simp [hd, seat]

theorem le_lastId (ho : s.Holds c p) : p ≤ s.lastId := by
  by_contra hlt
  have := (h.fresh p (by omega)).2
  simp [(h.owner p c).mpr ho] at this

theorem known (hp : p ∈ s.places) : p ≤ s.lastId := by
  by_contra hlt
  exact (h.fresh p (by omega)).1 hp

theorem setCont (p : ℕ) (k : Cont) (ho : s.Holds c p)
    (hk : k.Parking → (s.task p).Marked ∧ ∃ c, s.Running c p)
    (hd : ∀ c, s.Out c p → p ∈ s.waiting → k.Rechecking) : Placed (s.setCont p k) :=
  { h with
    done := by
      intro c q ho hq
      have hdone := h.done c q ho hq
      refine ⟨hdone.1, ?_⟩
      obtain rfl | hqp := eq_or_ne q p
      · simpa [Sched.setCont] using hd c ho hq
      · simpa [Sched.setCont, hqp] using hdone.2
    parking := by
      intro q hq
      obtain rfl | hqp := eq_or_ne q p
      · exact hk (by simpa [Sched.setCont] using hq)
      · exact h.parking q (by simpa [Sched.setCont, hqp] using hq)
    quiet := by
      intro q hq
      have hqp : q ≠ p := by rintro rfl; exact absurd (h.le_lastId ho) (Nat.not_le.mpr hq)
      simpa [Sched.setCont, hqp] using h.quiet q hq }

/-- A task that waits for nothing goes on to a place where it does not park. -/
theorem advance {p : ℕ} {k : Cont} (ho : s.Holds c p) (hk : ¬ k.Parking) (hw : p ∉ s.waiting) :
    Placed (s.setCont p k) :=
  h.setCont p k ho (absurd · hk) fun _ _ => (absurd · hw)

/-- **One CPU changes its seat, its current task and its mirror**, and the tasks it takes or gives
up change their owner. -/
theorem transfer (c : ℕ) (pc : Pc) (cur mir : Option ℕ) (task : ℕ → SchedTask)
    (hown : ∀ q, (task q).owner = some c ↔ cur = some q ∨ pc.seat.prev = some q)
    (hother : ∀ q d, d ≠ c → ((task q).owner = some d ↔ s.Holds d q))
    (hheld : ∀ q, cur = some q ∨ pc.seat.prev = some q → q ∉ s.inFlight ∧ q ≤ s.lastId)
    (hqueued : ∀ q, (task q).queued = true → (s.task q).queued = true)
    (hmarked : ∀ q, (s.task q).Marked → (q ∈ s.sleepers ∨ q ∈ s.waiting ∨ (s.cont q).Parking) →
      (task q).Marked)
    (hmir : ∀ q, mir = some q → cur = some q ∨ pc.seat.Bare ∧ pc.seat.prev = some q)
    (hapart : ∀ q, cur = some q → pc.seat.prev ≠ some q) (hbare : pc.seat.Bare → cur = none)
    (hleave : ∀ q ∈ s.queue, cur = some q ∨ pc.seat.prev = some q → pc.seat = .leaving (some q))
    (hout : ∀ q, OutBy pc.seat cur q →
      q ∉ s.sleepers ∧ (q ∈ s.waiting → pc.seat = .exec ∧ (s.cont q).Rechecking))
    (hpark : ∀ q, (s.cont q).Parking → s.Running c q → pc.seat = .exec ∧ cur = some q) :
    Placed { s with
      pc := update s.pc c pc
      current := update s.current c cur
      mirror := update s.mirror c mir
      task := task } := by
  -- a task no CPU held before is owned by nobody, or by this CPU
  have hnone : ∀ q, (s.task q).owner = none → ¬ (cur = some q ∨ pc.seat.prev = some q) →
      (task q).owner = none := by
    intro q ho hn
    by_contra hs
    obtain ⟨d, hd⟩ := ne_none_iff_exists'.mp hs
    by_cases hdc : d = c
    · exact hn ((hown q).mp (hdc ▸ hd))
    · simp [(h.owner q d).mpr ((hother q d hdc).mp hd)] at ho
  exact {
    nodup := h.nodup
    queued := fun q hq => h.queued q (hqueued q hq)
    unowned := fun q hq => hnone q (h.unowned q hq) fun hh => (hheld q hh).1 hq
    marked := fun q hq => hmarked q (h.marked q hq) (hq.imp_right .inl)
    fresh := fun q hq => ⟨(h.fresh q hq).1, hnone q (h.fresh q hq).2 fun hh =>
      absurd (hheld q hh).2 (Nat.not_le.mpr hq)⟩
    quiet := h.quiet
    owner := by
      intro q d
      obtain rfl | hd := eq_or_ne d c
      · simpa [Holds, seat] using hown q
      · simpa [Holds, seat, hd] using hother q d hd
    apart := by
      intro d q hq
      obtain rfl | hd := eq_or_ne d c
      · simp only [seat, update_self] at hq ⊢
        exact hapart q hq
      · simpa [seat, hd] using h.apart d q (by simpa [hd] using hq)
    bare := by
      intro d hb
      obtain rfl | hd := eq_or_ne d c
      · simp only [seat, update_self] at hb ⊢
        exact hbare hb
      · simpa [hd] using h.bare d (by simpa [seat, hd] using hb)
    leaving := by
      intro q d hq ho
      obtain rfl | hd := eq_or_ne d c
      · simpa [seat] using hleave q hq ((hown q).mp ho)
      · simpa [seat, hd] using h.leaving q d hq ((h.owner q d).mpr ((hother q d hd).mp ho))
    awake := by
      intro d q ho
      obtain rfl | hd := eq_or_ne d c
      · exact (hout q (by simpa [Out, seat] using ho)).1
      · exact h.awake d q (by simpa [Out, seat, hd] using ho)
    done := by
      intro d q ho hq
      obtain rfl | hd := eq_or_ne d c
      · simpa [seat] using (hout q (by simpa [Out, seat] using ho)).2 hq
      · simpa [seat, hd] using h.done d q (by simpa [Out, seat, hd] using ho) hq
    parking := by
      intro q hq
      obtain ⟨hst, d, hd⟩ := h.parking q hq
      refine ⟨hmarked q hst (.inr (.inr hq)), d, ?_⟩
      obtain rfl | hdc := eq_or_ne d c
      · simpa [Running, seat] using hpark q hq hd
      · simpa [Running, seat, hdc] using hd
    mirror := by
      intro d q hq
      obtain rfl | hd := eq_or_ne d c
      · simpa [seat] using hmir q (by simpa using hq)
      · simpa [seat, hd] using h.mirror d q (by simpa [hd] using hq) }

theorem notMem_inFlight (ho : s.Holds c p) : p ∉ s.inFlight := fun hf => by
  have := (h.owner p c).mpr ho
  simp [h.unowned p hf] at this

/-- **One CPU changes its seat** and keeps the tasks it holds. -/
theorem reseat (c : ℕ) (pc : Pc) (cur mir : Option ℕ)
    (hheld : ∀ q, cur = some q ∨ pc.seat.prev = some q ↔ s.Holds c q)
    (hmir : ∀ q, mir = some q → cur = some q ∨ pc.seat.Bare ∧ pc.seat.prev = some q)
    (hapart : ∀ q, cur = some q → pc.seat.prev ≠ some q) (hbare : pc.seat.Bare → cur = none)
    (hleave : ∀ q ∈ s.queue, s.Holds c q → pc.seat = .leaving (some q))
    (hout : ∀ q, OutBy pc.seat cur q →
      q ∉ s.sleepers ∧ (q ∈ s.waiting → pc.seat = .exec ∧ (s.cont q).Rechecking))
    (hpark : ∀ q, (s.cont q).Parking → s.Running c q → pc.seat = .exec ∧ cur = some q) :
    Placed { s with
      pc := update s.pc c pc
      current := update s.current c cur
      mirror := update s.mirror c mir } :=
  h.transfer c pc cur mir s.task (fun q => (h.owner q c).trans (hheld q).symm)
    (fun q d _ => h.owner q d)
    (fun q hq => ⟨h.notMem_inFlight ((hheld q).mp hq), h.le_lastId ((hheld q).mp hq)⟩)
    (fun _ hq => hq) (fun _ hm _ => hm) hmir hapart hbare
    (fun q hq hh => hleave q hq ((hheld q).mp hh)) hout hpark

/-- Only owners, queue marks and the parked tasks' states matter of the tasks. -/
theorem withTask (task : ℕ → SchedTask) (howner : ∀ q, (task q).owner = (s.task q).owner)
    (hqueued : ∀ q, (task q).queued = true → (s.task q).queued = true)
    (hmarked : ∀ q, (s.task q).Marked → (q ∈ s.sleepers ∨ q ∈ s.waiting ∨ (s.cont q).Parking) →
      (task q).Marked) : Placed { s with task := task } :=
  { h with
    owner := by
      intro q d
      show (task q).owner = some d ↔ s.Holds d q
      rw [howner, h.owner]
    queued := fun q hq => h.queued q (hqueued q hq)
    leaving := fun q d hq ho => h.leaving q d hq (howner q ▸ ho)
    unowned := fun q hq => (howner q).trans (h.unowned q hq)
    marked := fun q hq => hmarked q (h.marked q hq) (hq.imp_right .inl)
    parking := fun q hq => ⟨hmarked q (h.parking q hq).1 (.inr (.inr hq)), (h.parking q hq).2⟩
    fresh := fun q hq => ⟨(h.fresh q hq).1, (howner q).trans (h.fresh q hq).2⟩ }

variable {sleeping waiters : List (ℕ × ℕ)} {q d child n credit pid : ℕ} {pc : Pc}

theorem thin (hsl : sleeping.Sublist s.sleeping) (hwt : waiters.Sublist s.waiters) :
    Placed { s with sleeping := sleeping, waiters := waiters } := by
  have hsl' : (sleeping.map Prod.snd).Sublist s.sleepers := hsl.map _
  have hwt' : (waiters.map Prod.fst).Sublist s.waiting := hwt.map _
  have hplaces : (places { s with sleeping := sleeping, waiters := waiters }).Sublist s.places :=
    (List.Sublist.refl _).append ((hsl'.append hwt').append (.refl _))
  exact { h with
    nodup := h.nodup.sublist hplaces
    marked := fun q hq => h.marked q (hq.imp (hsl'.subset ·) (hwt'.subset ·))
    awake := fun d q ho hq => h.awake d q ho (hsl'.subset hq)
    done := fun d q ho hq => h.done d q ho (hwt'.subset hq)
    fresh := fun q hq => ⟨fun hm => (h.fresh q hq).1 (hplaces.subset hm), (h.fresh q hq).2⟩ }

theorem dequeue (n : ℕ) :
    Placed { s.modTask n fun t => { t with queued := false } with queue := s.queue.erase n } := by
  have htask := h.withTask (s.modTask n fun t => { t with queued := false }).task
    (fun q => by by_cases hq : q = n <;> simp [modTask, hq])
    (fun q => by by_cases hq : q = n <;> simp [modTask, hq])
    (fun q hm _ => by by_cases hq : q = n <;> simpa [modTask, SchedTask.Marked, hq] using hm)
  have hsub : (s.queue.erase n).Sublist s.queue := erase_sublist
  have hplaces : (places { s with queue := s.queue.erase n }).Sublist s.places :=
    hsub.append (.refl _)
  exact { htask with
    nodup := h.nodup.sublist hplaces
    queued := by
      intro q hq
      have hqn : q ≠ n := by rintro rfl; simp [modTask] at hq
      exact (mem_erase_of_ne hqn).mpr (h.queued q (by simpa [modTask, hqn] using hq))
    leaving := fun q d hq => htask.leaving q d (hsub.subset hq)
    fresh := fun q hq => ⟨fun hm => (h.fresh q hq).1 (hplaces.subset hm), (htask.fresh q hq).2⟩ }

omit h in
theorem mem_places : q ∈ s.places ↔
    q ∈ s.queue ∨ q ∈ s.sleepers ∨ q ∈ s.waiting ∨ q ∈ s.inFlight := by
  simp [places]

/-- A running task is in no list, except in `WAITERS` while it looks once more. -/
theorem notMem_places (hr : s.Running c p) (hk : ¬ (s.cont p).Rechecking) : p ∉ s.places := by
  have hown : (s.task p).owner = some c := (h.owner p c).mpr (.inl hr.2)
  have hout : s.Out c p := .inl ⟨hr.2, .inl hr.1⟩
  rw [mem_places]
  rintro (hq | hs | hw | hf)
  · have := h.leaving p c hq hown
    simp [hr.1] at this
  · exact h.awake c p hout hs
  · exact hk (h.done c p hout hw).2
  · simp [h.unowned p hf] at hown

/-- A marked task enters a parked list; one that still runs is in `WAITERS` and looks once
more. -/
theorem enlist (p : ℕ)
    (hperm : (sleeping.map Prod.snd ++ waiters.map Prod.fst).Perm (p :: (s.sleepers ++ s.waiting)))
    (hsl : ∀ q ∈ sleeping.map Prod.snd, q ∈ s.sleepers ∨ q = p ∧ ∀ d, ¬ s.Out d p)
    (hwt : ∀ q ∈ waiters.map Prod.fst, q ∈ s.waiting ∨
      q = p ∧ ∀ d, s.Out d p → s.seat d = .exec ∧ (s.cont p).Rechecking)
    (hp : p ∉ s.places) (hm : (s.task p).Marked) (ho : s.Holds c p) :
    Placed { s with sleeping := sleeping, waiters := waiters } := by
  have hplaces : (places { s with sleeping := sleeping, waiters := waiters }).Perm
      (p :: s.places) :=
    ((hperm.append_right _).append_left _).trans perm_middle
  exact { h with
    nodup := hplaces.nodup_iff.mpr (nodup_cons.mpr ⟨hp, h.nodup⟩)
    marked := by
      rintro q (hq | hq)
      · obtain hq | ⟨rfl, -⟩ := hsl q hq
        · exact h.marked q (.inl hq)
        · exact hm
      · obtain hq | ⟨rfl, -⟩ := hwt q hq
        · exact h.marked q (.inr hq)
        · exact hm
    awake := by
      intro d q hout hq
      obtain hq | ⟨rfl, hn⟩ := hsl q hq
      · exact h.awake d q hout hq
      · exact hn d hout
    done := by
      intro d q hout hq
      obtain hq | ⟨rfl, hr⟩ := hwt q hq
      · exact h.done d q hout hq
      · exact hr d hout
    fresh := by
      intro q hq
      refine ⟨fun hm => ?_, (h.fresh q hq).2⟩
      obtain rfl | hm := mem_cons.mp (hplaces.mem_iff.mp hm)
      · exact absurd (h.le_lastId ho) (Nat.not_le.mpr hq)
      · exact (h.fresh q hq).1 hm }

theorem wake {waking : List (Waker × ℕ)}
    {task : ℕ → SchedTask} (hw : Wakes s sleeping waiters waking task) :
    Placed { s with sleeping := sleeping, waiters := waiters, waking := waking, task := task } := by
  have hsl : (sleeping.map Prod.snd).Sublist s.sleepers := hw.sleeping.map _
  have hwt : (waiters.map Prod.fst).Sublist s.waiting := hw.waiters.map _
  have hplaces : (s.queue ++ (sleeping.map Prod.snd ++ waiters.map Prod.fst ++
      waking.map Prod.snd)).Perm s.places := hw.perm.append_left _
  have htask := h.withTask task
    (fun q => by rcases hw.task q with hq | hq <;> rw [hq]; rfl)
    (fun q => by rcases hw.task q with hq | hq <;> rw [hq] <;> exact id)
    (fun q hm _ => by rcases hw.task q with hq | hq <;> rw [hq] <;> exact hm)
  exact { htask with
    nodup := hplaces.nodup_iff.mpr h.nodup
    unowned := by
      intro q hq
      obtain hq | hq := hw.waking q hq
      · exact htask.unowned q hq
      · obtain ht | ht := hw.task q
        · exact (congrArg _ ht).trans hq
        · exact (congrArg _ ht).trans hq
    marked := fun q hq => htask.marked q (hq.imp (hsl.subset ·) (hwt.subset ·))
    awake := fun d q ho hq => h.awake d q ho (hsl.subset hq)
    done := fun d q ho hq => h.done d q ho (hwt.subset hq)
    fresh := fun q hq =>
      ⟨fun hm => (h.fresh q hq).1 (hplaces.mem_iff.mp hm), (htask.fresh q hq).2⟩ }

theorem notMem_of_queue (hq : q ∈ s.queue) : q ∉ s.sleepers ∧ q ∉ s.waiting ∧ q ∉ s.inFlight := by
  have hdisj : q ∉ s.sleepers ++ s.waiting ++ s.inFlight := fun hm =>
    (nodup_append.mp h.nodup).2.2 q hq q hm rfl
  simpa [not_or, and_assoc] using hdisj

theorem notMem_of_inFlight (hq : q ∈ s.inFlight) :
    q ∉ s.queue ∧ q ∉ s.sleepers ∧ q ∉ s.waiting := by
  have hn := (nodup_append.mp h.nodup).2.1
  have hpark : q ∉ s.sleepers ++ s.waiting := fun hm =>
    (nodup_append.mp hn).2.2 q hm q hq rfl
  exact ⟨fun hm => (h.notMem_of_queue hm).2.2 hq, by simpa [not_or] using hpark⟩

theorem notMem_waiting_of_sleepers (hq : q ∈ s.sleepers) : q ∉ s.waiting := fun hm =>
  have hn := (nodup_append.mp (nodup_append.mp h.nodup).2.1).1
  (nodup_append.mp hn).2.2 q hq q hm rfl

omit h in
/-- The tasks in a waker's hands and the others make up all tasks in flight. -/
theorem due_append_perm (s : Sched) (w : Waker) :
    (s.due w ++ (s.flushed w).inFlight).Perm s.inFlight := by
  have := (filter_append_perm (fun e : Waker × ℕ => decide (e.1 = w)) s.waking).map Prod.snd
  simpa [due, inFlight, flushed] using this

omit h in
theorem places_flushed_perm (s : Sched) (w : Waker) : (s.flushed w).places.Perm s.places := by
  have hperm := due_append_perm s w
  have : (s.flushed w).places = (s.queue ++ s.due w) ++ (s.sleepers ++ s.waiting ++
    (s.flushed w).inFlight) := rfl
  rw [this, places, append_assoc]
  refine List.Perm.append_left _ ?_
  calc s.due w ++ (s.sleepers ++ s.waiting ++ (s.flushed w).inFlight)
      |>.Perm (s.sleepers ++ s.waiting ++ (s.due w ++ (s.flushed w).inFlight)) := by
        simpa using perm_append_comm_assoc (s.due w) (s.sleepers ++ s.waiting)
          (s.flushed w).inFlight
    _ |>.Perm (s.sleepers ++ s.waiting ++ s.inFlight) := hperm.append_left _

omit h in
theorem flushed_owner (w : Waker) (q : ℕ) : ((s.flushed w).task q).owner = (s.task q).owner := by
  by_cases hq : q ∈ s.due w <;> simp [Sched.flushed, SchedTask.woken, hq]

/-- A parked task is not among those to be queued… -/
theorem flushed_parked {w : Waker} {q : ℕ} (hq : q ∈ s.sleepers ∨ q ∈ s.waiting) :
    (s.flushed w).task q = s.task q :=
  if_neg fun hd =>
    have := h.notMem_of_inFlight ((due_append_perm s w).mem_iff.mp (mem_append_left _ hd))
    hq.elim this.2.1 this.2.2

/-- …nor is one about to park. -/
theorem flushed_parking {w : Waker} {q : ℕ} (hdue : ∀ q ∈ s.due w, (s.task q).owner = none)
    (hq : (s.cont q).Parking) : (s.flushed w).task q = s.task q :=
  if_neg fun hd => by
    obtain ⟨-, d, hr⟩ := h.parking q hq
    have := hdue q hd
    simp [(h.owner q d).mpr (.inl hr.2)] at this

theorem flushed {w : Waker} (hdue : ∀ q ∈ s.due w, (s.task q).owner = none) :
    Placed (s.flushed w) := by
  have hperm := due_append_perm s w
  have hplaces := places_flushed_perm s w
  have howner := flushed_owner (s := s) w
  exact { h with
    nodup := hplaces.nodup_iff.mpr h.nodup
    owner := by
      intro q d
      rw [howner]
      exact h.owner q d
    queued := by
      intro q hq
      by_cases hd : q ∈ s.due w
      · exact mem_append_right _ hd
      · exact mem_append_left _ (h.queued q (by simpa [Sched.flushed, hd] using hq))
    leaving := by
      intro q d hq ho
      rw [howner] at ho
      obtain hq | hq := mem_append.mp hq
      · exact h.leaving q d hq ho
      · simp [hdue q hq] at ho
    unowned := fun q hq => (howner q).trans (h.unowned q (hperm.mem_iff.mp
      (mem_append_right _ hq)))
    marked := by
      intro q hq
      rw [h.flushed_parked hq]
      exact h.marked q hq
    parking := by
      intro q hq
      rw [h.flushed_parking hdue hq]
      exact h.parking q hq
    fresh := fun q hq => ⟨fun hm => (h.fresh q hq).1 (hplaces.mem_iff.mp hm),
      (howner q).trans (h.fresh q hq).2⟩ }

/-- **A task that is nowhere becomes a CPU's current one**, with the outgoing task still held. -/
theorem acquire (c n : ℕ) (t : SchedTask) (pc : Pc) (hn : n ∉ s.places)
    (hown : (s.task n).owner = none) (ht : t.owner = some c ∧ t.queued = false)
    (hk : ¬ (s.cont n).Parking) (hid : n ≤ s.lastId) (hcur : s.current c = none)
    (hpc : pc.seat = .leaving (s.seat c).prev ∨ s.seat c = .exec ∧ pc.seat = .exec) :
    Placed { (s.publish c (some n)).goto c pc with task := update s.task n t } := by
  have hfree : ∀ d, ¬ s.Holds d n := fun d hd => by simp [(h.owner n d).mpr hd] at hown
  have hprev : pc.seat.prev = (s.seat c).prev := by
    obtain hpc | ⟨hc, hpc⟩ := hpc
    · rw [hpc]; rfl
    · rw [hpc, hc]
  have hbare : ¬ pc.seat.Bare := by rcases hpc with hpc | ⟨-, hpc⟩ <;> simp [hpc, Seat.Bare]
  simp only [mem_places, not_or] at hn
  have hr := h.transfer c pc (some n) (some n) (update s.task n t) (fun q => ?own)
    (fun q d hd => ?other) (fun q hq => ?held) (fun q => ?queued) (fun q hm hq => ?marked)
    (fun q hq => .inl hq) (fun q hq => ?apart) (fun hb => absurd hb hbare) (fun q hq hh => ?leave)
    (fun q ho => ?out) (fun q _ hrun => absurd (hcur.symm.trans hrun.2) (by simp))
  · simpa [publish, Sched.goto] using hr
  case own =>
    by_cases hq : q = n
    · simp [hq, ht.1]
    · simp [hq, h.owner, Holds, hcur, hprev, Ne.symm hq]
  case other =>
    obtain rfl | hq := eq_or_ne q n
    · simp [ht.1, hfree d, Ne.symm hd]
    · simp [hq, h.owner]
  case held =>
    obtain hq | hq := hq
    · exact some.inj hq ▸ ⟨hn.2.2.2, hid⟩
    · have ho : s.Holds c q := .inr (hprev ▸ hq)
      exact ⟨h.notMem_inFlight ho, h.le_lastId ho⟩
  case queued => by_cases hq : q = n <;> simp [hq, ht.2]
  case marked =>
    have hqn : q ≠ n := by rintro rfl; exact hq.elim hn.2.1 fun hq => hq.elim hn.2.2.1 hk
    simpa [hqn] using hm
  case apart =>
    rw [hprev, ← some.inj hq]
    exact fun hp => hfree c (.inr hp)
  case leave =>
    obtain hh | hh := hh
    · exact absurd (some.inj hh ▸ hq) hn.1
    · have hlv := h.leaving q c hq ((h.owner q c).mpr (.inr (hprev ▸ hh)))
      obtain hpc | ⟨hc, -⟩ := hpc
      · simp [hpc, hlv, Seat.prev]
      · simp [hc] at hlv
  case out =>
    obtain rfl : n = q := by
      obtain ho | ho := ho
      · exact some.inj ho.1
      · exact absurd (ho ▸ trivial) hbare
    exact ⟨hn.2.1, fun hw => absurd hw hn.2.2.1⟩

/-- A task that is in no list joins the queue; a CPU that owns it is about to leave it. -/
theorem enqueue (p : ℕ) (t : SchedTask) (hp : p ∉ s.places)
    (ht : t.owner = (s.task p).owner) (hk : ¬ (s.cont p).Parking) (hid : p ≤ s.lastId)
    (hlv : ∀ d, (s.task p).owner = some d → s.seat d = .leaving (some p)) :
    Placed { s with queue := s.queue ++ [p], task := update s.task p t } := by
  have howner : ∀ q, (update s.task p t q).owner = (s.task q).owner := fun q => by
    obtain rfl | hq := eq_or_ne q p
    · simpa using ht
    · simp [hq]
  have hplaces : (places { s with queue := s.queue ++ [p], task := update s.task p t }).Perm
      (p :: s.places) := by
    simp only [places, append_assoc, singleton_append]
    exact perm_middle
  have hpark : p ∉ s.sleepers ∧ p ∉ s.waiting := by
    simp only [mem_places, not_or] at hp
    exact ⟨hp.2.1, hp.2.2.1⟩
  exact { h with
    nodup := hplaces.nodup_iff.mpr (nodup_cons.mpr ⟨hp, h.nodup⟩)
    owner := by
      intro q d
      show (update s.task p t q).owner = some d ↔ s.Holds d q
      rw [howner, h.owner]
    queued := by
      intro q hq
      by_cases hqp : q = p
      · simp [hqp]
      · exact mem_append_left _ (h.queued q (by simpa [hqp] using hq))
    leaving := by
      intro q d hq ho
      replace ho : (s.task q).owner = some d := (howner q).symm.trans ho
      obtain hq | hq := mem_append.mp hq
      · exact h.leaving q d hq ho
      · obtain rfl := mem_singleton.mp hq
        exact hlv d ho
    unowned := fun q hq => (howner q).trans (h.unowned q hq)
    marked := by
      intro q hq
      have hqp : q ≠ p := by rintro rfl; exact hq.elim hpark.1 hpark.2
      simpa [hqp] using h.marked q hq
    parking := by
      intro q hq
      have hqp : q ≠ p := by rintro rfl; exact hk hq
      exact ⟨by simpa [hqp] using (h.parking q hq).1, (h.parking q hq).2⟩
    fresh := by
      intro q hq
      refine ⟨fun hm => ?_, (howner q).trans (h.fresh q hq).2⟩
      obtain rfl | hm := mem_cons.mp (hplaces.mem_iff.mp hm)
      · exact absurd hid (Nat.not_le.mpr hq)
      · exact (h.fresh q hq).1 hm }

theorem grow (t : SchedTask) (ht : t.owner = none ∧ t.queued = false) : Placed { s with
      lastId := s.lastId + 1
      task := update s.task (s.lastId + 1) t
      cont := update s.cont (s.lastId + 1) .user } := by
  obtain ⟨hn, hown⟩ := h.fresh (s.lastId + 1) (Nat.lt_succ_self _)
  simp only [mem_places, not_or] at hn
  have howner : ∀ q, (update s.task (s.lastId + 1) t q).owner = (s.task q).owner := by
    intro q
    by_cases hq : q = s.lastId + 1
    · simp [hq, ht.1, hown]
    · simp [hq]
  exact { h with
    owner := by
      intro q d
      show (update s.task (s.lastId + 1) t q).owner = some d ↔ s.Holds d q
      rw [howner, h.owner]
    queued := by
      intro q hq
      have hqn : q ≠ s.lastId + 1 := by rintro rfl; simp [ht.2] at hq
      exact h.queued q (by simpa [hqn] using hq)
    leaving := fun q d hq ho => h.leaving q d hq (howner q ▸ ho)
    unowned := fun q hq => (howner q).trans (h.unowned q hq)
    marked := by
      intro q hq
      have hqn : q ≠ s.lastId + 1 := by rintro rfl; exact hq.elim hn.2.1 hn.2.2.1
      simpa [hqn] using h.marked q hq
    done := by
      intro d q ho hq
      have hqn : q ≠ s.lastId + 1 := by rintro rfl; exact hn.2.2.1 hq
      exact ⟨(h.done d q ho hq).1, by simpa [hqn] using (h.done d q ho hq).2⟩
    parking := by
      intro q hq
      have hqn : q ≠ s.lastId + 1 := by rintro rfl; simp [Cont.Parking] at hq
      obtain ⟨hm, hr⟩ := h.parking q (by simpa [hqn] using hq)
      exact ⟨by simpa [hqn] using hm, hr⟩
    fresh := fun q hq => ⟨(h.fresh q (Nat.lt_of_succ_lt hq)).1,
      (howner q).trans (h.fresh q (Nat.lt_of_succ_lt hq)).2⟩
    quiet := by
      intro q hq
      have hqn : q ≠ s.lastId + 1 := by rintro rfl; exact absurd hq (Nat.lt_irrefl _)
      simpa [hqn] using h.quiet q (Nat.lt_of_succ_lt hq) }

theorem holds_unique (hc : s.Holds c p) (hd : s.Holds d p) : d = c :=
  some.inj (((h.owner p d).mpr hd).symm.trans ((h.owner p c).mpr hc))

omit h in
theorem holds_of_out (ho : s.Out d p) : s.Holds d p := by
  obtain ho | ho := ho
  · exact .inl ho.1
  · exact .inr (ho ▸ rfl)

/-- `switch_to` has installed the next stack and releases the outgoing task. -/
theorem release (hc : s.seat c = .leaving (some p)) :
    Placed ((s.modTask p fun t => { t with owner := none }).goto c .exec) := by
  have hhold : s.Holds c p := .inr (hc ▸ rfl)
  have hr := h.transfer c .exec (s.current c) (s.mirror c)
    (update s.task p { s.task p with owner := none }) (fun q => ?own) (fun q d hd => ?other)
    (fun q hq => ?held) (fun q => ?queued) (fun q hm _ => ?marked) (fun q hq => ?mir)
    (fun q _ => by simp [Seat.prev, Pc.seat]) (fun hb => hb.elim) (fun q hq hh => ?leave)
    (fun q ho => ?out) (fun q _ hrun => ⟨rfl, hrun.2⟩)
  · simpa [Sched.modTask, Sched.goto] using hr
  case own =>
    have hne := h.apart c q
    obtain rfl | hq := eq_or_ne q p
    · simp only [hc, Seat.prev] at hne
      simpa [Seat.prev, Pc.seat] using fun hcur => hne hcur rfl
    · simp [hq, h.owner, Holds, hc, Seat.prev, Pc.seat, Ne.symm hq]
  case other =>
    obtain rfl | hq := eq_or_ne q p
    · simpa using fun hd' => hd (h.holds_unique hhold hd')
    · simp [hq, h.owner]
  case held =>
    have ho : s.Holds c q := .inl (hq.resolve_right (by simp [Seat.prev, Pc.seat]))
    exact ⟨h.notMem_inFlight ho, h.le_lastId ho⟩
  case queued => by_cases hq : q = p <;> simp [hq]
  case marked => by_cases hq : q = p <;> simpa [SchedTask.Marked, hq] using hm
  case mir => exact .inl (by simpa [hc, Seat.Bare] using h.mirror c q hq)
  case leave =>
    have hcur : s.current c = some q := hh.resolve_right (by simp [Seat.prev, Pc.seat])
    have hlv := h.leaving q c hq ((h.owner q c).mpr (.inl hcur))
    exact absurd (hlv ▸ rfl) (h.apart c q hcur)
  case out =>
    have hout : s.Out c q := .inl ⟨by simpa [OutBy, Pc.seat] using ho, .inr ⟨some p, hc⟩⟩
    refine ⟨h.awake c q hout, fun hw => ?_⟩
    have := (h.done c q hout hw).1
    simp [hc] at this

/-- A CPU that keeps its current task and its mirror changes its seat. -/
theorem turn (c : ℕ) (pc : Pc) (hprev : pc.seat.prev = (s.seat c).prev)
    (hmir : ∀ q, s.mirror c = some q → s.current c = some q ∨ pc.seat.Bare)
    (hbare : pc.seat.Bare → s.current c = none)
    (hleave : ∀ q ∈ s.queue, s.Holds c q → pc.seat = .leaving (some q))
    (hout : ∀ q, OutBy pc.seat (s.current c) q →
      q ∉ s.sleepers ∧ (q ∈ s.waiting → pc.seat = .exec ∧ (s.cont q).Rechecking))
    (hpark : ∀ q, (s.cont q).Parking → s.Running c q → pc.seat = .exec) : Placed (s.goto c pc) := by
  have hr := h.reseat c pc (s.current c) (s.mirror c) (fun q => by rw [hprev]; rfl)
    (fun q hq => (hmir q hq).imp_right fun hb => ⟨hb, by
      obtain hm | hm := h.mirror c q hq
      · simp [hbare hb] at hm
      · rw [hprev]; exact hm.2⟩)
    (fun q hq => by rw [hprev]; exact h.apart c q hq) hbare hleave hout
    (fun q hq hrun => ⟨hpark q hq hrun, hrun.2⟩)
  simpa [Sched.goto] using hr

theorem enter (hc : s.seat c = .exec)
    (hp : ∀ p, s.current c = some p → (s.task p).state = .running ∨ ¬ (s.cont p).Parking) :
    Placed (s.goto c (.sched .wake)) := by
  refine h.turn c _ (hc ▸ rfl) (fun q hq => .inl ?_) (fun hb => hb.elim) (fun q hq hh => ?_)
    (fun q ho => ?_) (fun q hk hr => ?_)
  · simpa [hc, Seat.Bare] using h.mirror c q hq
  · have := h.leaving q c hq ((h.owner q c).mpr hh)
    simp [hc] at this
  · simp [OutBy, Pc.seat, Stage.seat] at ho
  · obtain hst | hn := hp q hr.2
    · have := (h.parking q hk).1
      simp [SchedTask.Marked, hst] at this
    · exact absurd hk hn

omit h in
theorem map_eraseP {α : Type*} (f : α → ℕ) (l : List α) (p : ℕ) :
    (l.eraseP fun e => f e = p).map f = (l.map f).erase p := by
  rw [erase_eq_eraseP', eraseP_map]
  rfl

theorem nodup_parked : s.sleepers.Nodup ∧ s.waiting.Nodup := by
  have hn := (nodup_append.mp (nodup_append.mp h.nodup).2.1).1
  exact ⟨(nodup_append.mp hn).1, (nodup_append.mp hn).2.1⟩

/-- A running task's state and flags change; it stays in no parked list. -/
theorem modTask (p : ℕ) (f : SchedTask → SchedTask)
    (howner : (f (s.task p)).owner = (s.task p).owner)
    (hqueued : (f (s.task p)).queued = (s.task p).queued)
    (hm : (f (s.task p)).Marked ∨ (f (s.task p)).state = (s.task p).state ∨
      p ∉ s.sleepers ∧ p ∉ s.waiting ∧ ¬ (s.cont p).Parking) : Placed (s.modTask p f) := by
  refine h.withTask _ (fun q => ?_) (fun q => ?_) (fun q hq hin => ?_)
  · obtain rfl | hqp := eq_or_ne q p
    · simpa using howner
    · simp [hqp]
  · obtain rfl | hqp := eq_or_ne q p
    · simp [hqueued]
    · simp [hqp]
  · obtain rfl | hqp := eq_or_ne q p
    · simp only [update_self]
      obtain hm | hm | hm := hm
      · exact hm
      · rw [SchedTask.Marked, hm]; exact hq
      · exact absurd hin (by simp [hm])
    · simpa [hqp] using hq

/-! ### The moves, one by one -/

theorem pass (ht : PassTurn s c (s.pc c) pc) : Placed (s.goto c pc) :=
  h.goto c pc ht.seat_eq

/-- A running task that is not looking once more is in no parked list. -/
theorem notMem_parked (hr : s.Running c p) (hk : ¬ (s.cont p).Rechecking) :
    p ∉ s.sleepers ∧ p ∉ s.waiting := by
  have hp := h.notMem_places hr hk
  simp only [mem_places, not_or] at hp
  exact ⟨hp.2.1, hp.2.2.1⟩

theorem cont {k : Cont} (hr : s.Running c p) (ht : ContTurn s p (s.cont p) k) :
    Placed (s.setCont p k) := by
  generalize hk : s.cont p = k0 at ht
  cases ht with
  | plain h1 h2 _ =>
    have hp := h.notMem_parked hr (hk ▸ h1.notRechecking)
    exact h.setCont p _ (.inl hr.2) (fun hn => absurd hn h2.notParking) fun _ _ hw => absurd hw hp.2
  | recheck child => exact h.setCont p _ (.inl hr.2) (fun hn => hn.elim) fun _ _ _ => trivial
  | unqueue child hn =>
    exact h.advance (.inl hr.2) id hn
  | heard pid _ =>
    exact h.advance (.inl hr.2) id (h.notMem_parked hr (hk ▸ id)).2

theorem commit (hr : s.Running c p) (hk : s.cont p = .waitRecheck child) :
    Placed ((s.goto c (.sched .wake)).setCont p (.waitTake child)) := by
  have he : Placed (s.goto c (.sched .wake)) := h.enter hr.1 fun q hq => by
    obtain rfl : p = q := some.inj (hr.2.symm.trans hq)
    exact .inr (hk ▸ id)
  refine he.setCont p _ (.inl hr.2) (fun hn => hn.elim) fun d ho _ => ?_
  obtain rfl | hd := eq_or_ne d c
  · simp [Out, OutBy, seat, Sched.goto, Pc.seat, Stage.seat] at ho
  · have hdp : s.Out d p := by simpa [Out, seat, Sched.goto, hd] using ho
    exact absurd (h.holds_unique (.inl hr.2) (holds_of_out hdp)) hd

theorem idle (hc : s.seat c = .exec) (hcur : s.current c = none)
    (hpc : pc.seat = .idle) : Placed (s.goto c pc) := by
  refine h.turn c pc (by rw [hpc, hc]; rfl) (fun q hq => ?_) (fun _ => hcur) (fun q hq hh => ?_)
    (fun q ho => ?_) (fun q hk hr => ?_)
  · simpa [hc, Seat.Bare, hcur] using h.mirror c q hq
  · simp [Holds, hc, hcur, Seat.prev] at hh
  · simp [OutBy, hpc] at ho
  · exact absurd (hcur.symm.trans hr.2) (by simp)

theorem idleDone (hc : s.seat c = .idle) : Placed (s.goto c .exec) := by
  have hcur : s.current c = none := h.bare c (hc ▸ trivial)
  refine h.turn c _ (hc ▸ rfl) (fun q hq => ?_) (fun _ => hcur) (fun q hq hh => ?_)
    (fun q ho => ?_) (fun q hk hr => rfl)
  · simpa [hc, Seat.prev, hcur] using h.mirror c q hq
  · simp [Holds, hc, hcur, Seat.prev] at hh
  · simp [OutBy, hcur, Pc.seat] at ho

theorem killed : Placed (s.setState p .dead) :=
  h.modTask p _ rfl rfl (.inl (.inr rfl))

theorem mark {k : Cont} (hr : s.Running c p) (hpl : (s.cont p).Plain) :
    Placed ((s.setState p .zzz).setCont p k) := by
  have hp := h.notMem_parked hr hpl.notRechecking
  have hs : Placed (s.setState p .zzz) := h.modTask p _ rfl rfl (.inl (.inl rfl))
  refine hs.setCont p k (.inl hr.2) (fun _ => ⟨.inl ?_, c, hr⟩) fun _ _ hw => absurd hw hp.2
  simp [setState, Sched.modTask]

omit h in
theorem insertSleeper_perm (d p : ℕ) : ∀ l, (insertSleeper d p l).Perm ((d, p) :: l)
  | [] => .refl _
  | e :: l => by
    unfold insertSleeper
    split
    · exact .refl _
    · exact ((insertSleeper_perm d p l).cons e).trans (.swap _ _ _)

theorem sleepInsert (hr : s.Running c p) (hk : s.cont p = .sleepInsert d) :
    Placed { (s.setCont p .user).goto c (.sched .wake) with
      sleeping := insertSleeper d p s.sleeping } := by
  have hp := h.notMem_places hr (hk ▸ id)
  have hm := (h.parking p (hk ▸ trivial)).1
  have hwt : p ∉ s.waiting := fun hw => hp (mem_places.mpr (.inr (.inr (.inl hw))))
  have hs : Placed ((s.setCont p .user).goto c (.sched .wake)) := by
    refine (h.advance (k := .user) (.inl hr.2) id hwt).enter hr.1 fun q hq => ?_
    obtain rfl : p = q := some.inj (hr.2.symm.trans hq)
    exact .inr (by simp [Sched.setCont, Cont.Parking])
  have hperm : ((insertSleeper d p s.sleeping).map Prod.snd).Perm (p :: s.sleepers) :=
    (insertSleeper_perm d p s.sleeping).map Prod.snd
  have hno : ∀ d, ¬ ((s.setCont p .user).goto c (.sched .wake)).Out d p := by
    intro d ho
    obtain rfl | hd := eq_or_ne d c
    · simp [Out, OutBy, seat, Sched.goto, Pc.seat, Stage.seat] at ho
    · have hdp : s.Out d p := by simpa [Out, seat, Sched.goto, Sched.setCont, hd] using ho
      exact hd (h.holds_unique (.inl hr.2) (holds_of_out hdp))
  refine hs.enlist p (hperm.append_right _) (fun q hq => ?_) (fun q hq => .inl hq) hp hm
    (.inl hr.2)
  obtain rfl | hq := mem_cons.mp (hperm.mem_iff.mp hq)
  · exact .inr ⟨rfl, hno⟩
  · exact .inl hq

theorem waitPush (hr : s.Running c p) (hk : s.cont p = .waitPush child) :
    Placed { s.setCont p (.waitRecheck child) with waiters := s.waiters ++ [(p, child)] } := by
  have hp := h.notMem_places hr (hk ▸ id)
  have hm := (h.parking p (hk ▸ trivial)).1
  have hs : Placed (s.setCont p (.waitRecheck child)) :=
    h.setCont p _ (.inl hr.2) (fun hn => hn.elim) fun _ _ _ => trivial
  refine hs.enlist p ?_ (fun q hq => .inl hq) (fun q hq => ?_) hp hm (.inl hr.2)
  · simp only [map_append, map_cons, map_nil, sleepers, waiting, Sched.setCont]
    grind
  · simp only [map_append, map_cons, map_nil, mem_append,
      mem_singleton] at hq
    refine hq.imp_right fun hqp => ⟨hqp, fun d ho => ?_⟩
    obtain rfl := h.holds_unique (.inl hr.2) (holds_of_out ho : s.Holds d p)
    exact ⟨hr.1, by simp [Sched.setCont, Cont.Rechecking]⟩

/-- `wait` goes on as a running task that is in no list. -/
theorem recovered (hr : s.Running c p)
    (hp : p ∉ s.sleepers ∧ p ∉ s.waiting) (hk : ¬ (s.cont p).Parking) :
    Placed (s.recovered c p child) := by
  refine (h.modTask p _ ?_ rfl (.inr (.inr ⟨hp.1, hp.2, hk⟩))).advance (.inl hr.2) id hp.2
  exact ((h.owner p c).mpr (.inl hr.2)).symm

theorem unpark (hr : s.Running c p) (hk : s.cont p = .waitUnpark child) :
    Placed ({ s with waiters := s.waiters.eraseP fun e => e.1 = p }.recovered c p child) := by
  have ht : Placed { s with waiters := s.waiters.eraseP fun e => e.1 = p } :=
    h.thin (.refl _) eraseP_sublist
  refine ht.recovered hr ⟨h.awake c p (.inl ⟨hr.2, .inl hr.1⟩), ?_⟩ (hk ▸ id)
  show p ∉ (s.waiters.eraseP fun e => e.1 = p).map Prod.fst
  rw [map_eraseP]
  exact h.nodup_parked.2.not_mem_erase

theorem take (hc : s.pc c = .sched .take) :
    Placed { s.goto c (.sched (.killCheck (s.current c))) with
      current := update s.current c none } := by
  have hseat : s.seat c = .early := by rw [seat, hc]; rfl
  have hr := h.reseat c (.sched (.killCheck (s.current c))) none (s.mirror c)
    (fun q => by simp [Holds, hseat, Seat.prev, Pc.seat, Stage.seat])
    (fun q hq => .inr ⟨trivial, show s.current c = some q by
      simpa [hseat, Seat.Bare] using h.mirror c q hq⟩)
    (fun q hq => by simp at hq) (fun _ => rfl)
    (fun q hq hh => by simpa [hseat] using h.leaving q c hq ((h.owner q c).mpr hh))
    (fun q ho => by simp [OutBy, Pc.seat, Stage.seat] at ho)
    (fun q hk hrun => by simp [Running, hseat] at hrun)
  simpa [Sched.goto] using hr

/-- A pass has taken its outgoing task out of the parked list. -/
theorem resuming (hc : s.seat c = .taken (some p))
    (hp : p ∉ s.sleepers ∧ p ∉ s.waiting) : Placed (s.goto c (.sched (.resume p))) := by
  refine h.turn c _ (hc ▸ rfl) (fun q hq => .inr trivial)
    (fun _ => h.bare c (by rw [hc]; trivial)) (fun q hq hh => ?_) (fun q ho => ?_)
    (fun q hk hr => ?_)
  · simpa [hc] using h.leaving q c hq ((h.owner q c).mpr hh)
  · obtain rfl : p = q := by simpa [OutBy, Pc.seat, Stage.seat] using ho
    exact ⟨hp.1, fun hw => absurd hw hp.2⟩
  · simp [Running, hc] at hr

theorem unparkSleeping (hc : s.pc c = .sched (.unparkSleeping p)) (hp : p ∈ s.sleepers) :
    Placed ({ s with sleeping := s.sleeping.eraseP fun e => e.2 = p }.goto c
      (.sched (.resume p))) := by
  have ht : Placed { s with sleeping := s.sleeping.eraseP fun e => e.2 = p } :=
    h.thin eraseP_sublist (.refl _)
  refine ht.resuming (by rw [seat, hc]; rfl) ⟨?_, h.notMem_waiting_of_sleepers hp⟩
  show p ∉ (s.sleeping.eraseP fun e => e.2 = p).map Prod.snd
  rw [map_eraseP]
  exact h.nodup_parked.1.not_mem_erase

theorem unparkWaiters (hc : s.pc c = .sched (.unparkWaiters p)) (hp : p ∈ s.waiting) :
    Placed ({ s with waiters := s.waiters.eraseP fun e => e.1 = p }.goto c
      (.sched (.resume p))) := by
  have ht : Placed { s with waiters := s.waiters.eraseP fun e => e.1 = p } :=
    h.thin (.refl _) eraseP_sublist
  refine ht.resuming (by rw [seat, hc]; rfl)
    ⟨fun hs => h.notMem_waiting_of_sleepers hs hp, ?_⟩
  show p ∉ (s.waiters.eraseP fun e => e.1 = p).map Prod.fst
  rw [map_eraseP]
  exact h.nodup_parked.2.not_mem_erase

theorem back (hb : (s.seat c).Bare) (hprev : (s.seat c).prev = some p)
    (hp : p ∉ s.sleepers ∧ p ∉ s.waiting) : Placed ((s.publish c (some p)).goto c .exec) := by
  have hcur := h.bare c hb
  have hr := h.reseat c .exec (some p) (some p)
    (fun q => by rw [Holds, hcur, hprev]; simp [Seat.prev, Pc.seat])
    (fun q hq => .inl hq) (fun q hq => by simp [Seat.prev, Pc.seat]) (fun hb => hb.elim)
    (fun q hq hh => by
      have := h.leaving q c hq ((h.owner q c).mpr hh)
      simp [this, Seat.Bare] at hb)
    (fun q ho => by
      obtain rfl : p = q := by simpa [OutBy, Pc.seat] using ho
      exact ⟨hp.1, fun hw => absurd hw hp.2⟩)
    (fun q hk hrun => by simp [Running, hcur] at hrun)
  simpa [Sched.goto, publish] using hr

/-- A woken task on its way back is in no list and not about to park. -/
theorem unparked (hc : s.pc c = .sched (.resume p)) : s.seat c = .resuming p ∧
    p ∉ s.sleepers ∧ p ∉ s.waiting ∧ ¬ (s.cont p).Parking := by
  have hseat : s.seat c = .resuming p := by rw [seat, hc]; rfl
  refine ⟨hseat, h.awake c p (.inr hseat), fun hw => ?_, fun hk => ?_⟩
  · simpa [hseat] using (h.done c p (.inr hseat) hw).1
  · obtain ⟨-, d, hr⟩ := h.parking p hk
    obtain rfl := h.holds_unique (.inr (by rw [hseat]; rfl)) (.inl hr.2)
    exact absurd hr.1 (by simp [hseat])

theorem resume (hc : s.pc c = .sched (.resume p)) :
    Placed ((((s.clearWake p).setState p .running).publish c (some p)).goto c .exec) := by
  obtain ⟨hseat, hsl, hwt, hk⟩ := h.unparked hc
  have hs : Placed ((s.clearWake p).setState p .running) :=
    (h.modTask p (fun t => { t with wakePending := false }) rfl rfl (.inr (.inl rfl))).modTask p _
      rfl rfl (.inr (.inr ⟨hsl, hwt, hk⟩))
  exact hs.back (show (s.seat c).Bare by rw [hseat]; trivial)
    (show (s.seat c).prev = some p by rw [hseat]; rfl) ⟨hsl, hwt⟩

theorem keep (hc : s.pc c = .sched (.dispatch (some p)))
    (hd : (s.task p).state ≠ .dead) (hz : (s.task p).state ≠ .zzz) :
    Placed ((s.publish c (some p)).goto c .exec) := by
  have hseat : s.seat c = .taken (some p) := by rw [seat, hc]; rfl
  have hm : ¬ (s.task p).Marked := fun hm => hm.elim hz hd
  exact h.back (hseat ▸ trivial) (hseat ▸ rfl)
    ⟨fun hs => hm (h.marked p (.inl hs)), fun hw => hm (h.marked p (.inr hw))⟩

/-- A task some CPU does not own is not about to park. -/
theorem notParking_of_unowned (ho : (s.task p).owner = none) : ¬ (s.cont p).Parking := fun hk => by
  obtain ⟨-, d, hr⟩ := h.parking p hk
  simp [(h.owner p d).mpr (.inl hr.2)] at ho

theorem claim {prev : Option ℕ}
    (hc : s.pc c = .sched (.dispatch prev)) (hn : n ∈ s.queue) (ho : (s.task n).owner = none)
    (hpc : pc.seat = .leaving prev) : Placed ((s.claim c n credit).goto c pc) := by
  have hseat : s.seat c = .taken prev := by rw [seat, hc]; rfl
  have hdeq := h.dequeue n
  have hnp : n ∉ places { s.modTask n fun t => { t with queued := false } with
      queue := s.queue.erase n } := by
    have hq := h.notMem_of_queue hn
    have : n ∉ s.queue.erase n := (nodup_append.mp h.nodup).1.not_mem_erase
    rw [mem_places]
    simpa [not_or] using ⟨this, hq⟩
  have hid : n ≤ s.lastId := by
    by_contra hlt
    exact (h.fresh n (by omega)).1 (mem_places.mpr (.inl hn))
  have hacq := hdeq.acquire c n
    { (s.task n) with queued := false, owner := some c, state := .running } pc hnp
    (by simpa [Sched.modTask] using ho) ⟨rfl, rfl⟩ (h.notParking_of_unowned ho) hid
    (h.bare c (hseat ▸ trivial))
    (.inl (show pc.seat = .leaving (s.seat c).prev by rw [hpc, hseat]; rfl))
  exact { (by simpa [Sched.modTask, Sched.claim, publish, Sched.goto] using hacq :
    Placed { (s.claim c n credit).goto c pc with credit := s.credit }) with }

theorem requeue (hc : s.pc c = .sched (.switch (some p)))
    (hd : (s.task p).state ≠ .dead) (hz : (s.task p).state ≠ .zzz)
    (ho : (s.task p).owner = some c) (hq : p ∉ s.queue) : Placed (s.requeue p) := by
  have hseat : s.seat c = .leaving (some p) := by rw [seat, hc]; rfl
  have hm : ¬ (s.task p).Marked := fun hm => hm.elim hz hd
  have hp : p ∉ s.places := by
    rw [mem_places]
    rintro (hp | hp | hp | hp)
    · exact hq hp
    · exact hm (h.marked p (.inl hp))
    · exact hm (h.marked p (.inr hp))
    · simp [h.unowned p hp] at ho
  refine h.enqueue p _ hp rfl (fun hk => hm (h.parking p hk).1)
    (h.le_lastId ((h.owner p c).mp ho)) fun d hd => ?_
  obtain rfl : c = d := some.inj (ho.symm.trans hd)
  exact hseat

/-- The outgoing task of a pass is owned, and so neither queued nor picked. -/
theorem outgoing (hc : s.pc c = .sched (.dispatch (some p))) :
    (s.task p).owner = some c ∧ p ∉ s.queue := by
  have hseat : s.seat c = .taken (some p) := by rw [seat, hc]; rfl
  have hown : (s.task p).owner = some c := (h.owner p c).mpr (.inr (hseat ▸ rfl))
  refine ⟨hown, fun hq => ?_⟩
  have := h.leaving p c hq hown
  simp [hseat] at this

omit h in
theorem claim_task_of_ne (hpn : p ≠ n) : ((s.claim c n credit).goto c pc).task p = s.task p := by
  simp [Sched.claim, Sched.goto, Sched.modTask, publish, hpn]

theorem swap (hc : s.pc c = .sched (.dispatch (some p)))
    (hn : n ∈ s.queue) (ho : (s.task n).owner = none) (hd : (s.task p).state ≠ .dead)
    (hz : (s.task p).state ≠ .zzz) :
    Placed (((s.claim c n credit).goto c (.sched (.switch (some p)))).requeue p) := by
  obtain ⟨hown, hpq⟩ := h.outgoing hc
  have hpn : p ≠ n := by rintro rfl; exact hpq hn
  refine (h.claim hc hn ho rfl).requeue (c := c) (by simp [Sched.goto]) ?_ ?_ ?_ ?_
  · rw [claim_task_of_ne hpn]; exact hd
  · rw [claim_task_of_ne hpn]; exact hz
  · rw [claim_task_of_ne hpn]; exact hown
  · exact fun hq => hpq (mem_of_mem_erase hq)

theorem vacate {prev : Option ℕ} (hc : s.pc c = .sched (.dispatch prev))
    (hpc : prev = none ∧ pc.seat = .exec ∨ pc.seat = .leaving prev) :
    Placed ((s.publish c none).goto c pc) := by
  have hseat : s.seat c = .taken prev := by rw [seat, hc]; rfl
  have hcur : s.current c = none := h.bare c (hseat ▸ trivial)
  have hprev : pc.seat.prev = prev := by
    rcases hpc with ⟨rfl, hpc⟩ | hpc <;> rw [hpc] <;> rfl
  have hr := h.reseat c pc none none
    (fun q => by rw [hprev]; simp [Holds, hcur, hseat, Seat.prev])
    (fun q hq => by simp at hq) (fun q hq => by simp at hq) (fun _ => rfl)
    (fun q hq hh => by
      have := h.leaving q c hq ((h.owner q c).mpr hh)
      simp [hseat] at this)
    (fun q ho => by
      rcases hpc with ⟨rfl, hpc⟩ | hpc <;> simp [OutBy, hpc] at ho)
    (fun q hk hrun => by simp [Running, hcur] at hrun)
  simpa [Sched.goto, publish] using hr

theorem switched (hc : s.pc c = .sched (.switch none)) : Placed (s.goto c .exec) := by
  have hseat : s.seat c = .leaving none := by rw [seat, hc]; rfl
  refine h.turn c _ (hseat ▸ rfl) (fun q hq => .inl ?_) (fun hb => hb.elim)
    (fun q hq hh => ?_) (fun q ho => ?_) (fun q hk hr => rfl)
  · simpa [hseat, Seat.Bare] using h.mirror c q hq
  · have := h.leaving q c hq ((h.owner q c).mpr hh)
    simp [hseat] at this
  · have hout : s.Out c q := .inl ⟨by simpa [OutBy, Pc.seat] using ho, .inr ⟨none, hseat⟩⟩
    refine ⟨h.awake c q hout, fun hw => ?_⟩
    have := (h.done c q hout hw).1
    simp [hseat] at this

theorem killQueue (hr : s.Running c p) (hk : s.cont p = .killQueue pid) :
    Placed { (s.modTask pid fun t => { t with queued := false }).setCont p (.killPark pid) with
      queue := s.queue.erase pid } :=
  (h.dequeue pid).advance (.inl hr.2) id (h.notMem_parked hr (hk ▸ id)).2

theorem killSleeping (hr : s.Running c p) (hk : s.cont p = .killSleeping pid) :
    Placed { (s.clearWake pid).setCont p (.killPark pid) with
      sleeping := s.sleeping.eraseP fun e => e.2 = pid } :=
  ((h.modTask pid _ rfl rfl (.inr (.inl rfl))).thin eraseP_sublist (.refl _)).advance
    (.inl hr.2) id (h.notMem_parked hr (hk ▸ id)).2

theorem killWaiters (hr : s.Running c p) (hk : s.cont p = .killWaiters pid) :
    Placed { (s.clearWake pid).setCont p (.killPark pid) with
      waiters := s.waiters.eraseP fun e => e.1 = pid } :=
  ((h.modTask pid _ rfl rfl (.inr (.inl rfl))).thin (.refl _) eraseP_sublist).advance
    (.inl hr.2) id fun hw => (h.notMem_parked hr (hk ▸ id)).2
      ((eraseP_sublist.map Prod.fst).subset hw)

theorem killPark (hr : s.Running c p) (hk : s.cont p = .killPark pid) :
    Placed ((s.modTask pid fun t =>
      { t with state := .dead, exitCode := killedExitCode }).setCont p (.wakeWaiters pid)) :=
  (h.modTask pid _ rfl rfl (.inl (.inr rfl))).advance (.inl hr.2) id
    (h.notMem_parked hr (hk ▸ id)).2

theorem spawn (prio : Priority) (parent : ℕ) : Placed (s.spawn prio parent) := by
  have hg := h.grow (.new prio parent) ⟨rfl, rfl⟩
  have hn := (h.fresh (s.lastId + 1) (Nat.lt_succ_self _)).1
  have he := hg.enqueue (s.lastId + 1) { SchedTask.new prio parent with queued := true } hn
    (by simp [SchedTask.new]) (by simp [Cont.Parking]) (Nat.le_refl _) (by simp [SchedTask.new])
  simpa [Sched.spawn] using he

theorem launch (hc : s.seat c = .exec) (hcur : s.current c = none) : Placed (s.launch c) := by
  have hg := h.grow (.new .interactive 0) ⟨rfl, rfl⟩
  have hn := (h.fresh (s.lastId + 1) (Nat.lt_succ_self _)).1
  have ha := hg.acquire c (s.lastId + 1)
    { SchedTask.new .interactive 0 with owner := some c, state := .running } (s.pc c) hn
    (by simp [SchedTask.new]) ⟨rfl, rfl⟩ (by simp [Cont.Parking]) (Nat.le_refl _) hcur
    (.inr ⟨hc, hc⟩)
  simpa [Sched.launch, Sched.goto, publish] using ha

/-- **Every move keeps the tasks in their places.** -/
theorem move (m : Move R s s') : Placed s' := by
  cases m with
  | pass c pc ht => exact h.pass ht
  | cont c p k hr ht => exact h.cont hr ht
  | enter c hc hp => exact h.enter hc fun p hq => (hp p hq).imp_right Cont.Plain.notParking
  | commit c p child hr hk hz => exact h.commit hr hk
  | idle c pc hc hcur hpc => exact h.idle hc hcur (by rcases hpc with rfl | ⟨rfl, -⟩ <;> rfl)
  | idleDone c hc => exact h.idleDone (by rw [seat]; rcases hc with hc | hc <;> rw [hc] <;> rfl)
  | note p kp code => exact h.modTask p _ rfl rfl (.inr (.inl rfl))
  | exit c p hr hk | killed c p hc hz => exact h.killed
  | mark c p k hr hpl hk _ => exact h.mark hr hpl
  | wake sleeping waiters waking task hw => exact h.wake hw
  | flush w hdue => exact h.flushed fun q hq => (hdue q hq).1
  | sleepInsert c p d hr hk => exact h.sleepInsert hr hk
  | waitPush c p child hr hk => exact h.waitPush hr hk
  | unpark c p child hr hk => exact h.unpark hr hk
  | recover c p child hr hk =>
    exact h.recovered hr (h.notMem_parked hr (hk ▸ id)) (hk ▸ id)
  | take c hc => exact h.take hc
  | unparkSleeping c p hc hp => exact h.unparkSleeping hc hp
  | unparkWaiters c p hc hp => exact h.unparkWaiters hc hp
  | resume c p hc => exact h.resume hc
  | keep c p hc hd hz => exact h.keep hc hd hz
  | claim c n credit prev pc hc hn ho hpc =>
    refine h.claim hc hn ho ?_
    obtain rfl | ⟨p, rfl, rfl, -⟩ := hpc
    · rfl
    · rfl
  | swap c n credit p hc hn ho hd hz => exact h.swap hc hn ho hd hz
  | vacate c prev pc hc hpc =>
    refine h.vacate hc ?_
    obtain ⟨rfl, rfl⟩ | rfl | ⟨p, rfl, rfl, -⟩ := hpc
    · exact .inl ⟨rfl, rfl⟩
    · exact .inr rfl
    · exact .inr rfl
  | release c p hc => exact h.release (by rw [seat, hc]; rfl)
  | switched c hc => exact h.switched hc
  | parkZombie c p hc => exact { h.goto c (.sched (.parkWake p)) (by rw [seat, hc]; rfl) with }
  | killQueue c p pid hr hk hp => exact h.killQueue hr hk
  | killSleeping c p pid hr hk hp _ => exact h.killSleeping hr hk
  | killWaiters c p pid hr hk hp _ => exact h.killWaiters hr hk
  | killPark c p pid hr hk => exact { h.killPark hr hk with }
  | consume c p child hr hk hz _ _ =>
    exact { h.advance (k := .waitReclaim child) (.inl hr.2) id
      (h.notMem_parked hr (hk ▸ id)).2 with }
  | reclaim c p child hr hk =>
    exact { h.advance (k := .user) (.inl hr.2) id (h.notMem_parked hr (hk ▸ id)).2 with }
  | drain c hc => exact { h.goto c (.reap (.free s.reclaim false)) (by rw [seat, hc]; rfl) with }
  | verdict c st st' hc hv => exact h.goto c (.reap st') (by rw [seat, hc]; rfl)
  | remove c idx zombies freed hc hrm =>
    exact { h.goto c (.reap (.free freed true)) (by rw [seat, hc]; rfl) with }
  | spawn prio parent _ => exact h.spawn prio parent
  | launch c hc hcur => exact h.launch hc hcur

omit h

theorem boot (n : ℕ) : Placed (Sched.boot n) where
  nodup := nodup_nil
  owner := fun p c => by simp [Sched.boot, SchedTask.new, Holds, seat, Pc.seat, Seat.prev]
  apart := fun c p hp => by simp [Sched.boot] at hp
  bare := fun c _ => rfl
  queued := fun p hp => by simp [Sched.boot, SchedTask.new] at hp
  leaving := fun p c hp => by simp [Sched.boot] at hp
  unowned := fun p hp => by simp [Sched.boot, inFlight] at hp
  marked := fun p hp => by simp [Sched.boot, sleepers, waiting] at hp
  awake := fun c p _ hp => by simp [Sched.boot, sleepers] at hp
  done := fun c p _ hp => by simp [Sched.boot, waiting] at hp
  parking := fun p hp => hp.elim
  mirror := fun c p hp => by simp [Sched.boot] at hp
  fresh := fun p _ => ⟨by simp [mem_places, Sched.boot, sleepers, waiting, inFlight], rfl⟩
  quiet := fun _ _ => rfl

end Placed

end Sched

end Bedrock
