import Bedrock.Lib.PhaseRing
import Bedrock.Lib.Run
import Bedrock.Nvme.Submit

/-!
# Nvme/Queues — the queue pairs of a controller and their users

The namespaces of a controller share one I/O queue pair and one page for lists of pages; admin
commands have a pair of their own.  A user issues a command under the number of the slot it writes,
drops the locks, and later takes the entry at the head of the completion queue:

    build --▸ ring --▸ ⋯ --▸ take          namespace, with the lock of the list page up to `ring`
            submit --▸ ⋯ --▸ take          admin, which does not look at the number
                     ▴
           complete k   the controller, in any order and at any time

Slot numbers come round again, so a late completion can be taken for that of a later command.  A
success is always that of the command it is reported for, and the list page stable, in every run
that reuses a number only after its last command was taken off, keeps admin commands apart, has one
namespace at a time wait for a command with a list, and no such wait time out (`attributed_of_run`).
-/

namespace Bedrock.Nvme

open List Option

inductive QueueId
  | admin | io
  deriving DecidableEq, Repr

/-- Who waits for a command: a namespace, under its own lock, or a caller of an admin function. -/
inductive Caller
  | ns (n : ℕ)
  | admin (t : ℕ)
  deriving DecidableEq, Repr

def Caller.queue : Caller → QueueId
  | .ns _ => .io
  | .admin _ => .admin

/-- A completion entry, with the command that the controller completed by it. -/
structure CqEntry where
  cid : ℕ
  status : ℕ
  cmd : ℕ
  deriving DecidableEq, Repr

structure NvmeQueue where
  sqTail : ℕ
  cq : PhaseRing CqEntry

/-- A command that was issued: the number it goes by, whether it refers to the list page, the status
with which it was completed, and whether that completion was taken off the queue. -/
structure Cmd where
  queue : QueueId
  cid : ℕ
  usesList : Bool
  status : Option ℕ
  taken : Bool
  deriving DecidableEq, Repr

/-- A caller between issuing its command and looking for the completion. -/
structure Waiter where
  caller : Caller
  cmd : ℕ
  cid : ℕ
  deriving DecidableEq, Repr

/-- A report to a caller about its command. -/
structure Report where
  cmd : ℕ
  success : Bool
  deriving DecidableEq, Repr

/-- The controller with its driver.  Commands are numbered as they are issued. -/
structure Controller where
  queues : QueueId → NvmeQueue
  cmds : List Cmd
  waiting : List Waiter
  /-- The namespace that holds the lock of the list page, and whether it has written a list. -/
  building : Option (ℕ × Bool)
  reports : List Report
  /-- The list page was rewritten while a command that was not completed referred to it. -/
  rewritten : Bool

namespace Controller

/-- Two queue pairs without any commands. -/
def start (depth : QueueId → ℕ) : Controller :=
  ⟨fun q => ⟨0, .new (depth q)⟩, [], [], none, [], false⟩

variable (s : Controller)

/-- The namespace is in the middle of a request. -/
def Busy (caller : Caller) : Prop :=
  (∃ w ∈ s.waiting, w.caller = caller) ∨ s.building.any fun b => .ns b.1 = caller

instance (caller : Caller) : Decidable (s.Busy caller) := inferInstanceAs (Decidable (_ ∨ _))

def setQueue (q : QueueId) (x : NvmeQueue) : Controller :=
  { s with queues := fun q' => if q' = q then x else s.queues q' }

/-- Some command that refers to the list is not completed. -/
def listInUse : Bool := s.cmds.any fun c => c.usesList && c.status.isNone

/-- A submission entry is written and the doorbell rung. -/
def issue (caller : Caller) (usesList : Bool) : Controller :=
  let q := s.queues caller.queue
  { s.setQueue caller.queue { q with sqTail := nextSqTail q.cq.depth q.sqTail } with
    cmds := s.cmds ++ [⟨caller.queue, q.sqTail, usesList, none, false⟩]
    waiting := ⟨caller, s.cmds.length, q.sqTail⟩ :: s.waiting }

/-- Whether the entry is taken as the waiter's: an admin caller does not compare the numbers. -/
def accepts (w : Waiter) (e : CqEntry) : Bool :=
  match w.caller with
  | .ns _ => e.cid = w.cid
  | .admin _ => true

/-- The end of the wait: the entry at the head of the queue is consumed whosever it is, and without
one the command has timed out. -/
def take (w : Waiter) : Controller :=
  let q := s.queues w.caller.queue
  match q.cq.poll with
  | none => { s with waiting := s.waiting.erase w, reports := ⟨w.cmd, false⟩ :: s.reports }
  | some e =>
    { s.setQueue w.caller.queue { q with cq := q.cq.advance } with
      cmds := s.cmds.modify e.cmd fun c => { c with taken := true }
      waiting := s.waiting.erase w
      reports := ⟨w.cmd, accepts w e && cqStatusOk e.status⟩ :: s.reports }

/-- The controller completes a command. -/
def complete (k : ℕ) (c : Cmd) (status : ℕ) : Controller :=
  let q := s.queues c.queue
  { s.setQueue c.queue { q with cq := q.cq.post ⟨c.cid, status, k⟩ } with
    cmds := s.cmds.set k { c with status := some status } }

end Controller

/-- What happens: a namespace builds the pointers of a request, which may write the list page and
may fail; it rings the doorbell; it flushes; an admin command is submitted; a caller ends its wait;
the controller completes a command. -/
inductive Action
  | build (n : ℕ) (writesList ok : Bool)
  | ring (n : ℕ)
  | sync (n : ℕ)
  | adminSubmit (t : ℕ)
  | take (caller : Caller)
  | complete (cmd status : ℕ)
  deriving DecidableEq, Repr

namespace Controller

def step (s : Controller) : Action → Option Controller
  | .build n writesList ok =>
    if s.Busy (.ns n) ∨ s.building.isSome then none
    else some { s with
      building := if ok then some (n, writesList) else none
      rewritten := s.rewritten || writesList && s.listInUse }
  | .ring n =>
    match s.building with
    | some (m, usesList) =>
      if m = n then some { s.issue (.ns n) usesList with building := none } else none
    | none => none
  | .sync n => if s.Busy (.ns n) then none else some (s.issue (.ns n) false)
  | .adminSubmit t => if s.Busy (.admin t) then none else some (s.issue (.admin t) false)
  | .take caller => (s.waiting.find? fun w => w.caller = caller).map s.take
  | .complete k status =>
    match s.cmds[k]? with
    | some c =>
      if c.status = none ∧ (s.queues c.queue).cq.Room then some (s.complete k c status)
      else none
    | none => none

end Controller

/-! ## Careful runs -/

/-- A caller that waits under this number would take a completion of that queue and number as its
own. -/
def Caller.Clash (caller : Caller) (cid : ℕ) (queue : QueueId) (cid' : ℕ) : Prop :=
  match caller with
  | .ns _ => queue = .io ∧ cid' = cid
  | .admin _ => queue = .admin

instance (caller : Caller) (cid : ℕ) (queue : QueueId) (cid' : ℕ) :
    Decidable (caller.Clash cid queue cid') :=
  match caller with
  | .ns _ => inferInstanceAs (Decidable (_ ∧ _))
  | .admin _ => inferInstanceAs (Decidable (_ = _))

namespace Controller

variable {s s' : Controller}

/-- The caller may issue a command under the next number: the completion of every command it could
be confused with has been taken off, and no one waits who would take the new one's. -/
def MayIssue (s : Controller) (caller : Caller) : Prop :=
  let cid := (s.queues caller.queue).sqTail
  (∀ c ∈ s.cmds, caller.Clash cid c.queue c.cid → c.taken = true) ∧
    ∀ w ∈ s.waiting, ¬ w.caller.Clash w.cid caller.queue cid

instance (s : Controller) (caller : Caller) : Decidable (s.MayIssue caller) :=
  inferInstanceAs (Decidable (_ ∧ _))

/-- The command refers to the list page. -/
def Refers (s : Controller) (k : ℕ) : Prop := s.cmds[k]?.any Cmd.usesList

/-- The controller has completed the command. -/
def Completed (s : Controller) (k : ℕ) : Prop := s.cmds[k]?.any (·.status.isSome)

/-- The step reuses no number that is still in use and keeps admin commands apart.  A namespace
writes the list while no other one waits for a command with a list, and the wait for such a command
does not time out. -/
def Careful (s : Controller) : Action → Prop
  | .build n writesList _ =>
    writesList = true → ∀ w ∈ s.waiting, w.caller ≠ .ns n → ¬ s.Refers w.cmd
  | .ring n => s.MayIssue (.ns n)
  | .sync n => s.MayIssue (.ns n)
  | .adminSubmit t => s.MayIssue (.admin t)
  | .take caller => ∀ w ∈ s.waiting, w.caller = caller → s.Refers w.cmd → s.Completed w.cmd
  | .complete _ _ => True

instance (s : Controller) (k : ℕ) : Decidable (s.Refers k) := inferInstanceAs (Decidable (_ = _))

instance (s : Controller) (k : ℕ) : Decidable (s.Completed k) := inferInstanceAs (Decidable (_ = _))

instance (s : Controller) : ∀ a, Decidable (s.Careful a)
  | .build .. => inferInstanceAs (Decidable (_ → _))
  | .ring _ | .sync _ | .adminSubmit _ => inferInstanceAs (Decidable (MayIssue _ _))
  | .take _ => inferInstanceAs (Decidable (∀ w ∈ s.waiting, _))
  | .complete .. => inferInstanceAs (Decidable True)

/-! ## The invariant -/

/-- The entry is the completion of a command of this queue that was not taken off before. -/
def Stands (cmds : List Cmd) (q : QueueId) (e : CqEntry) : Prop :=
  ∃ c, cmds[e.cmd]? = some c ∧ c.queue = q ∧ c.cid = e.cid ∧ c.status = some e.status ∧
    c.taken = false

/-- The command was completed with a status that stands for success. -/
def Succeeded (cmds : List Cmd) (k : ℕ) : Prop :=
  ∃ c status, cmds[k]? = some c ∧ c.status = some status ∧ cqStatusOk status = true

/-- What holds in every state of a careful run: the completion queues hold the completions of
commands that are theirs, each once; a command that a waiter could take for its own and that is
still to be taken is its own; a command that refers to the list and is not completed is waited
for. -/
structure Inv (s : Controller) : Prop where
  rings : ∀ q, ∃ l, (s.queues q).cq.Holds l ∧ (l.map CqEntry.cmd).Nodup ∧
    ∀ e ∈ l, Stands s.cmds q e
  waiters : ∀ w ∈ s.waiting, w.cmd < s.cmds.length ∧ ∀ k c, s.cmds[k]? = some c →
    c.taken = false → w.caller.Clash w.cid c.queue c.cid → k = w.cmd
  untaken : ∀ c ∈ s.cmds, c.status = none → c.taken = false
  awaited : ∀ k c, s.cmds[k]? = some c → c.usesList = true → c.status = none →
    ∃ w ∈ s.waiting, w.cmd = k
  successes : ∀ r ∈ s.reports, r.success = true → Succeeded s.cmds r.cmd
  stable : s.rewritten = false

theorem inv_start {depth : QueueId → ℕ} (h : ∀ q, 0 < depth q) : (start depth).Inv where
  rings := fun q => ⟨[], PhaseRing.holds_new (h q), nodup_nil,
    fun _ he => absurd he not_mem_nil⟩
  waiters := fun _ hw => absurd hw not_mem_nil
  untaken := fun _ hc => absurd hc not_mem_nil
  awaited := by simp [start]
  successes := fun _ hr => absurd hr not_mem_nil
  stable := rfl

theorem getElem?_concat (cmds : List Cmd) (x : Cmd) (k : ℕ) :
    (cmds ++ [x])[k]? = if k = cmds.length then some x else cmds[k]? := by
  split_ifs with hk
  · simp [hk]
  · obtain hlt | hgt := Nat.lt_or_gt_of_ne hk
    · exact getElem?_append_left hlt
    · rw [getElem?_eq_none (by simpa using Nat.succ_le_of_lt hgt),
        getElem?_eq_none hgt.le]

theorem Inv.issue (h : s.Inv) {caller : Caller} (hmay : s.MayIssue caller) (usesList : Bool) :
    (s.issue caller usesList).Inv := by
  obtain ⟨hcmds, hwait⟩ := hmay
  have hold {k : ℕ} {c : Cmd} (hk : s.cmds[k]? = some c) :
      (s.issue caller usesList).cmds[k]? = some c := by
    have hlt := (List.getElem?_eq_some_iff.mp hk).1
    exact (getElem?_append_left hlt).trans hk
  refine ⟨fun q => ?_, ?_, ?_, fun k c hk huses hopen => ?_, fun r hr hs => ?_, h.stable⟩
  · obtain ⟨l, hl, hnodup, hstands⟩ := h.rings q
    refine ⟨l, ?_, hnodup, fun e he => ?_⟩
    · rw [show ((s.issue caller usesList).queues q).cq = (s.queues q).cq by
        simp only [Controller.issue, setQueue]; split_ifs with hq <;> simp [hq]]
      exact hl
    · obtain ⟨c, hc, rest⟩ := hstands e he
      exact ⟨c, hold hc, rest⟩
  · refine forall_mem_cons.mpr ⟨⟨by simp [Controller.issue], fun k c hk htaken hclash => ?_⟩,
      fun w hw => ?_⟩
    · -- the new command is the only one of its number that is open
      by_contra hne
      rw [Controller.issue, getElem?_concat, if_neg hne] at hk
      have := hcmds c (mem_of_getElem? hk) hclash
      simp [htaken] at this
    · obtain ⟨hlt, huniq⟩ := h.waiters w hw
      refine ⟨by simp only [Controller.issue, length_append]; omega,
        fun k c hk htaken hclash => ?_⟩
      rw [Controller.issue, getElem?_concat] at hk
      split_ifs at hk with hnew
      · cases hk
        exact absurd hclash (hwait w hw)
      · exact huniq k c hk htaken hclash
  · exact forall_mem_append.mpr ⟨h.untaken, by simp⟩
  · rw [Controller.issue, getElem?_concat] at hk
    split_ifs at hk with hnew
    · exact ⟨_, mem_cons_self, hnew.symm⟩
    · obtain ⟨w, hw, hcmd⟩ := h.awaited k c hk huses hopen
      exact ⟨w, mem_cons_of_mem _ hw, hcmd⟩
  · obtain ⟨c, status, hc, rest⟩ := h.successes r hr hs
    exact ⟨c, status, hold hc, rest⟩

/-- An entry that a waiter accepts is of a command it clashes with. -/
theorem clash_of_accepts {w : Waiter} {e : CqEntry} {c : Cmd}
    (hqueue : c.queue = w.caller.queue) (hcid : c.cid = e.cid) (h : accepts w e = true) :
    w.caller.Clash w.cid c.queue c.cid := by
  unfold accepts at h
  rcases hcaller : w.caller with n | t
  · rw [hcaller] at h hqueue
    exact ⟨hqueue, hcid.trans (of_decide_eq_true h)⟩
  · rwa [hcaller] at hqueue

/-- A wait that does not time out leaves every open command with a list to the others. -/
theorem Inv.awaited_erase (h : s.Inv) {w : Waiter} (hdone : s.Refers w.cmd → s.Completed w.cmd)
    {k : ℕ} {c : Cmd} (hk : s.cmds[k]? = some c) (huses : c.usesList = true)
    (hopen : c.status = none) : ∃ v ∈ s.waiting.erase w, v.cmd = k := by
  obtain ⟨v, hv, rfl⟩ := h.awaited k c hk huses hopen
  refine ⟨v, (mem_erase_of_ne ?_).mpr hv, rfl⟩
  rintro rfl
  have hcompleted := hdone (by simp [Refers, hk, huses])
  simp [Completed, hk, hopen] at hcompleted

theorem Inv.take (h : s.Inv) {w : Waiter} (hw : w ∈ s.waiting)
    (hdone : s.Refers w.cmd → s.Completed w.cmd) : (s.take w).Inv := by
  obtain ⟨l, hl, hnodup, hstands⟩ := h.rings w.caller.queue
  have hpoll := hl.poll_eq
  cases l with
  | nil =>
    -- nothing has come: the command has timed out
    rw [head?_nil] at hpoll
    simp only [Controller.take, hpoll]
    exact ⟨h.rings, fun v hv => h.waiters v (mem_of_mem_erase hv), h.untaken,
      fun _ _ => h.awaited_erase hdone,
      forall_mem_cons.mpr ⟨fun hs => absurd hs (by simp), h.successes⟩, h.stable⟩
  | cons e l =>
    rw [head?_cons] at hpoll
    obtain ⟨⟨c, hc, hqueue, hcid, hstatus, htaken⟩, hstands⟩ := forall_mem_cons.mp hstands
    rw [map_cons, nodup_cons] at hnodup
    simp only [Controller.take, hpoll]
    generalize hcmds : s.cmds.modify e.cmd (fun c => { c with taken := true }) = cmds
    have hsame {k : ℕ} (hk : k ≠ e.cmd) : cmds[k]? = s.cmds[k]? := by
      rw [← hcmds, getElem?_modify_ne _ _ hk.symm]
    have hnew : cmds[e.cmd]? = some { c with taken := true } := by
      rw [← hcmds, getElem?_modify_eq, hc]
      rfl
    have hkeeps {k : ℕ} (hk : Succeeded s.cmds k) : Succeeded cmds k := by
      obtain ⟨c', status, hc', hs, hok⟩ := hk
      by_cases hke : k = e.cmd
      · obtain rfl : c = c' := some.inj (hc.symm.trans (hke ▸ hc'))
        exact ⟨{ c with taken := true }, status, hke ▸ hnew, hs, hok⟩
      · exact ⟨c', status, (hsame hke).trans hc', hs, hok⟩
    have hopen {k : ℕ} {c' : Cmd} (hk : cmds[k]? = some c') (hnone : c'.status = none) :
        s.cmds[k]? = some c' := by
      refine (hsame ?_).symm.trans hk
      rintro rfl
      obtain rfl := some.inj (hnew.symm.trans hk)
      simp [hstatus] at hnone
    refine ⟨fun q => ?_, fun v hv => ?_, fun c' hc' hnone => ?_,
      fun k c' hk huses hnone => h.awaited_erase hdone (hopen hk hnone) huses hnone,
      forall_mem_cons.mpr ⟨fun hs => ?_, ?_⟩, h.stable⟩
    · by_cases hq : q = w.caller.queue
      · refine ⟨l, by simpa [setQueue, hq] using hl.advance, hnodup.2, fun e' he' => ?_⟩
        obtain ⟨c', hc', rest⟩ := hstands e' he'
        have hne : e'.cmd ≠ e.cmd := fun heq => hnodup.1 (heq ▸ mem_map_of_mem he')
        exact ⟨c', (hsame hne).trans hc', hq ▸ rest⟩
      · obtain ⟨l', hl', hnodup', hstands'⟩ := h.rings q
        refine ⟨l', by simpa [setQueue, hq] using hl', hnodup', fun e' he' => ?_⟩
        obtain ⟨c', hc', hqueue', rest⟩ := hstands' e' he'
        have hne : e'.cmd ≠ e.cmd := by
          intro heq
          obtain rfl : c = c' := some.inj (hc.symm.trans (heq ▸ hc'))
          exact hq (hqueue'.symm.trans hqueue)
        exact ⟨c', (hsame hne).trans hc', hqueue', rest⟩
    · obtain ⟨hlt, huniq⟩ := h.waiters v (mem_of_mem_erase hv)
      refine ⟨by simpa [← hcmds] using hlt, fun k c' hk htaken' hclash => ?_⟩
      have hne : k ≠ e.cmd := by
        rintro rfl
        obtain rfl := some.inj (hnew.symm.trans hk)
        simp at htaken'
      exact huniq k c' ((hsame hne).symm.trans hk) htaken' hclash
    · obtain ⟨k, hk⟩ := mem_iff_getElem?.mp hc'
      exact h.untaken c' (mem_of_getElem? (hopen hk hnone)) hnone
    · -- the entry is of the waiter's own command: no other that is open clashes with it
      obtain ⟨haccepts, hok⟩ := Bool.and_eq_true_iff.mp hs
      have hown := (h.waiters w hw).2 e.cmd c hc htaken (clash_of_accepts hqueue hcid haccepts)
      exact hkeeps (hown ▸ ⟨c, e.status, hc, hstatus, hok⟩)
    · exact fun r hr hs => hkeeps (h.successes r hr hs)

theorem Inv.complete (h : s.Inv) {k : ℕ} {c : Cmd} (hc : s.cmds[k]? = some c)
    (hnone : c.status = none) (hroom : (s.queues c.queue).cq.Room) (status : ℕ) :
    (s.complete k c status).Inv := by
  have htaken := h.untaken c (mem_of_getElem? hc) hnone
  have hlt := (List.getElem?_eq_some_iff.mp hc).1
  simp only [Controller.complete]
  generalize hcmds : s.cmds.set k { c with status := some status } = cmds
  have hsame {j : ℕ} (hj : j ≠ k) : cmds[j]? = s.cmds[j]? := by
    rw [← hcmds, getElem?_set_ne hj.symm]
  have hnew : cmds[k]? = some { c with status := some status } := by
    rw [← hcmds, getElem?_set_self hlt]
  -- whatever was completed before is another command
  have hother {j : ℕ} {c' : Cmd} {st : ℕ} (hj : s.cmds[j]? = some c') (hst : c'.status = some st) :
      j ≠ k := by
    rintro rfl
    obtain rfl := some.inj (hc.symm.trans hj)
    simp [hnone] at hst
  have hstands {q : QueueId} {e : CqEntry} (he : Stands s.cmds q e) : Stands cmds q e := by
    obtain ⟨c', hc', hqueue, hcid, hst, rest⟩ := he
    exact ⟨c', (hsame (hother hc' hst)).trans hc', hqueue, hcid, hst, rest⟩
  refine ⟨fun q => ?_, fun w hw => ?_, fun c' hc' hst => ?_, fun j c' hj huses hst => ?_,
    fun r hr hs => ?_, h.stable⟩
  · obtain ⟨l, hl, hnodup, hall⟩ := h.rings q
    by_cases hq : q = c.queue
    · subst hq
      refine ⟨l ++ [⟨c.cid, status, k⟩], by simpa [setQueue] using hl.post hroom _, ?_, ?_⟩
      · rw [map_append, nodup_append]
        refine ⟨hnodup, by simp, fun j hj j' hj' => ?_⟩
        obtain ⟨e, he, rfl⟩ := mem_map.mp hj
        obtain ⟨c', hc', -, -, hst, -⟩ := hall e he
        obtain rfl : j' = k := by simpa using hj'
        exact hother hc' hst
      · intro e he
        obtain he | he := mem_append.mp he
        · exact hstands (hall e he)
        · obtain rfl := mem_singleton.mp he
          exact ⟨_, hnew, rfl, rfl, rfl, htaken⟩
    · exact ⟨l, by simpa [setQueue, hq] using hl, hnodup, fun e he => hstands (hall e he)⟩
  · obtain ⟨hwlt, huniq⟩ := h.waiters w hw
    refine ⟨by simpa [← hcmds] using hwlt, fun j c' hj htaken' hclash => ?_⟩
    obtain rfl | hjk := eq_or_ne j k
    · obtain rfl := some.inj (hnew.symm.trans hj)
      exact huniq j c hc htaken hclash
    · exact huniq j c' ((hsame hjk).symm.trans hj) htaken' hclash
  · rw [← hcmds] at hc'
    obtain hold | rfl := mem_or_eq_of_mem_set hc'
    · exact h.untaken c' hold hst
    · exact htaken
  · obtain rfl | hjk := eq_or_ne j k
    · obtain rfl := some.inj (hnew.symm.trans hj)
      cases hst
    · exact h.awaited j c' ((hsame hjk).symm.trans hj) huses hst
  · obtain ⟨c', st, hc', hst, hok⟩ := h.successes r hr hs
    exact ⟨c', st, (hsame (hother hc' hst)).trans hc', hst, hok⟩

/-! ## Runs -/

/-- The list is free for a namespace that holds its own lock, once no other one waits for a command
with a list: the open commands with a list are waited for. -/
theorem Inv.listInUse_eq_false (h : s.Inv) {n : ℕ} (hidle : ¬ s.Busy (.ns n))
    (hothers : ∀ w ∈ s.waiting, w.caller ≠ .ns n → ¬ s.Refers w.cmd) : s.listInUse = false := by
  rw [listInUse, List.any_eq_false]
  intro c hc hopen
  obtain ⟨huses, hnone⟩ := (Bool.and_eq_true _ _).mp hopen
  obtain ⟨k, hk⟩ := mem_iff_getElem?.mp hc
  obtain ⟨w, hw, rfl⟩ := h.awaited k c hk huses (isNone_iff_eq_none.mp hnone)
  refine hothers w hw (fun hn => hidle (.inl ⟨w, hw, hn⟩)) ?_
  simp [Refers, hk, huses]

/-- **A careful step keeps the invariant.** -/
theorem Inv.step (h : s.Inv) {a : Action} (hcareful : s.Careful a) (hstep : s.step a = some s') :
    s'.Inv := by
  cases a with simp only [Controller.step] at hstep
  | build n writesList ok =>
    split at hstep
    · cases hstep
    · next hidle =>
      cases hstep
      have hstable : (s.rewritten || writesList && s.listInUse) = false := by
        rw [h.stable, Bool.false_or, Bool.and_eq_false_imp]
        exact h.listInUse_eq_false (fun hb => hidle (.inl hb)) ∘ hcareful
      exact ⟨h.rings, h.waiters, h.untaken, h.awaited, h.successes, hstable⟩
  | ring n =>
    split at hstep
    · split_ifs at hstep
      cases hstep
      obtain ⟨rings, waiters, untaken, awaited, successes, stable⟩ := h.issue hcareful _
      exact ⟨rings, waiters, untaken, awaited, successes, stable⟩
    · cases hstep
  | sync n | adminSubmit t =>
    split_ifs at hstep
    exact some.inj hstep ▸ h.issue hcareful _
  | take caller =>
    obtain ⟨w, hw, rfl⟩ := map_eq_some_iff.mp hstep
    exact h.take (mem_of_find?_eq_some hw)
      (hcareful w (mem_of_find?_eq_some hw) (by simpa using find?_some hw))
  | complete k status =>
    split at hstep
    · next c hc =>
      split_ifs at hstep with hguard
      exact some.inj hstep ▸ h.complete hc hguard.1 hguard.2 status
    · cases hstep

/-- Every success is of the command it was reported for, which the controller completed with status
zero, and the list was never rewritten under an open command. -/
def Attributed (s : Controller) : Prop :=
  (∀ r ∈ s.reports, r.success = true → Succeeded s.cmds r.cmd) ∧ s.rewritten = false

/-- **Along every careful run a success belongs to the command it is reported for, and the list is
not rewritten under an open command.** -/
theorem attributed_of_run (depth : QueueId → ℕ) (hdepth : ∀ q, 0 < depth q)
    (actions : List Action) (h : RunMeets Controller.step Careful (start depth) actions)
    (hrun : run Controller.step (start depth) actions = some s) : s.Attributed := by
  have hinv : s.Inv :=
    run_invariant Inv (fun _ _ _ hs hcareful hstep => hs.step hcareful hstep) actions
      (inv_start hdepth) h hrun
  exact ⟨hinv.successes, hinv.stable⟩

/-- How the wait of a namespace ends, as its loop over requests sees it. -/
def finish (s : Controller) (w : Waiter) : Finish :=
  match (s.queues w.caller.queue).cq.poll with
  | none => .timeout
  | some e => if e.cid = w.cid then .completed e.status else .cidMismatch

theorem reports_take {w : Waiter} {n : ℕ} (hns : w.caller = .ns n) : (s.take w).reports =
    ⟨w.cmd, NvmeNamespace.succeeds (s.finish w)⟩ :: s.reports := by
  simp only [take, finish]
  cases hpoll : (s.queues w.caller.queue).cq.poll with
  | none => simp only [NvmeNamespace.succeeds]
  | some e =>
    by_cases hcid : e.cid = w.cid <;> simp [accepts, hns, hcid, NvmeNamespace.succeeds]

/-- **What a namespace counts as done, the controller has completed with status zero**, if the run
was careful up to the end of its wait. -/
theorem succeeded_of_done (depth : QueueId → ℕ) (hdepth : ∀ q, 0 < depth q)
    (actions : List Action) (h : RunMeets Controller.step Careful (start depth) actions)
    (hrun : run Controller.step (start depth) actions = some s) {w : Waiter} {n : ℕ}
    (hw : w ∈ s.waiting) (hns : w.caller = .ns n) (htake : s.Careful (.take (.ns n)))
    {ns : NvmeNamespace} {p : Reply} (hp : p.finish = s.finish w) {index tail : ℕ}
    {r : Block.DriverRequest} {x : Issue} (hx : x ∈ (ns.perRequest p index tail r).2.1)
    (hdone : x.done = true) : Succeeded (s.take w).cmds w.cmd := by
  have hinv := (run_invariant Inv (fun _ _ _ hs hcareful hstep => hs.step hcareful hstep) actions
    (inv_start hdepth) h hrun).take hw (htake w hw hns)
  obtain ⟨-, -, hverdict, -⟩ := NvmeNamespace.of_mem_perRequest hx
  refine hinv.successes _ (by rw [reports_take hns]; exact mem_cons_self) ?_
  rw [← hp, ← hverdict, hdone]

/-- Two namespaces and an admin caller, with a second list after the first is done with. -/
def sharedPair : List Action :=
  [.build 0 true true, .ring 0, .sync 1, .complete 0 0, .take (.ns 0), .complete 1 0,
    .adminSubmit 0, .build 0 true true, .take (.ns 1), .ring 0, .complete 2 0, .take (.admin 0),
    .complete 3 0, .take (.ns 0)]

theorem attributed_of_run_shared : ∃ s, run Controller.step (start fun _ => 4) sharedPair = some s ∧
      s.reports = [⟨3, true⟩, ⟨2, true⟩, ⟨1, true⟩, ⟨0, true⟩] ∧ s.Attributed :=
  ⟨_, rfl, by decide +kernel,
    attributed_of_run (fun _ => 4) (fun _ => by decide) sharedPair (by decide +kernel) rfl⟩

/-- An admin command times out; its completion comes while the next caller waits. -/
def lateAdmin : List Action :=
  [.adminSubmit 0, .take (.admin 0), .adminSubmit 1, .complete 0 0, .take (.admin 1)]

/-- A flush times out; its completion comes when the slot numbers have come round. -/
def lateFlush : List Action :=
  [.sync 0, .take (.ns 0), .sync 0, .take (.ns 0), .sync 0, .complete 0 0, .take (.ns 0)]

/-- A second namespace writes the list of the first one's open command over. -/
def twoLists : List Action := [.build 0 true true, .ring 0, .build 1 true true]

/-- The command was never completed, so its success is another's. -/
theorem not_attributed_of_open {k : ℕ} {c : Cmd} (hr : ⟨k, true⟩ ∈ s.reports)
    (hc : s.cmds[k]? = some c) (hopen : c.status = none) : ¬ s.Attributed := by
  intro h
  obtain ⟨c', status, hc', hstatus, -⟩ := h.1 _ hr rfl
  obtain rfl := some.inj (hc.symm.trans hc')
  simp [hopen] at hstatus

theorem late_completions_misattributed :
    (∃ s, run Controller.step (start fun _ => 2) lateAdmin = some s ∧ ¬ s.Attributed) ∧
    (∃ s, run Controller.step (start fun _ => 2) lateFlush = some s ∧ ¬ s.Attributed) ∧
    ∃ s, run Controller.step (start fun _ => 2) twoLists = some s ∧ ¬ s.Attributed := by
  refine ⟨⟨_, rfl, ?_⟩, ⟨_, rfl, ?_⟩, ⟨_, rfl, fun h => absurd h.2 (by decide +kernel)⟩⟩
  · exact not_attributed_of_open (k := 1) (c := ⟨.admin, 1, false, none, false⟩)
      (by decide +kernel) (by decide +kernel) rfl
  · exact not_attributed_of_open (k := 2) (c := ⟨.io, 0, false, none, false⟩)
      (by decide +kernel) (by decide +kernel) rfl

end Controller

end Bedrock.Nvme
