import Bedrock.Services.TimerPlaces

/-!
# Services/Firings — timers fire as promised

The history of a run is a legal one, and tells where each entry is.

A tick reads the clock, waits for the lock and then calls back, and puts a periodic entry back for
one period after the time it has read:

    clock read --▸ lock --▸ callback                     next deadline
        |◂---------------- one period ------------------------▸|

So two firings can be closer than a period, by what the first had to wait (`late_then_early`); a run
keeps the promise if each periodic callback is called at the time its tick has read.
-/

namespace Bedrock.Services

open Function List Option

/-! ## The invariant -/

section Inv

variable {T κ : Type} {s s' : State T κ} {t : T} {c : ℕ}

/-- What each task has in its hands. -/
def State.held (s : State T κ) (t : T) : Held κ := (s.pc t).held

/-- The history is legal and tells where every entry is, and a tick fires what was due when it read
the clock. -/
structure Inv (s : State T κ) : Prop where
  exclusive : Exclusive s
  legal : Legal s.trace
  holds : Holds (status s.trace) s.entries
  carried : Carried (status s.trace) s.held
  numbered : Numbered s.trace s.nextSeq s.held
  ticking : ∀ c now, s.mode c = .ticking now → now ≤ s.clock
  firing : ∀ c now expired, s.mode c = .firing now expired →
    now ≤ s.clock ∧ ∀ e ∈ expired, e.deadline ≤ now
  spaced : Spaced s.trace

/-- A step that nothing happens in to a timer. -/
theorem Inv.quiet (h : Inv s) (hx : Exclusive s') (htrace : s'.trace = s.trace)
    (hseq : s'.nextSeq = s.nextSeq) (hheld : s'.held = s.held)
    (hentries : ∀ c, (s.entries c).Perm (s'.entries c))
    (hticking : ∀ c now, s'.mode c = .ticking now → now ≤ s'.clock)
    (hfiring : ∀ c now expired, s'.mode c = .firing now expired →
      now ≤ s'.clock ∧ ∀ e ∈ expired, e.deadline ≤ now) : Inv s' where
  exclusive := hx
  legal := htrace ▸ h.legal
  holds := htrace ▸ h.holds.perm hentries
  carried := by
    rw [htrace, hheld]
    exact h.carried
  numbered := by
    rw [htrace, hseq, hheld]
    exact h.numbered
  ticking := hticking
  firing := hfiring
  spaced := htrace ▸ h.spaced

/-- …and only a CPU goes on to something else. -/
theorem Inv.quiet_mode (h : Inv s) (hx : Exclusive s') (htrace : s'.trace = s.trace)
    (hseq : s'.nextSeq = s.nextSeq) (hheld : s'.held = s.held) (hqueue : s'.queue = s.queue)
    (hclock : s'.clock = s.clock) {m : Mode T κ} (hmode : s'.mode = update s.mode c m)
    (hold : (s.mode c).expired = []) (hnew : ∀ now expired, m ≠ .firing now expired)
    (hticking : ∀ now, m = .ticking now → now ≤ s.clock) : Inv s' := by
  refine h.quiet hx htrace hseq hheld (fun c' => ?_) (fun c' now hm => ?_)
    fun c' now expired hm => ?_
  · rw [State.entries, State.entries, hqueue, hmode]
    by_cases hc : c' = c
    · rw [hc, update_self, hold, show m.expired = [] by
        cases m with
        | firing now expired => exact absurd rfl (hnew now expired)
        | free | locked | entry => rfl
        | ticking => rfl]
    · rw [update_of_ne hc]
  · rw [hclock]
    rw [hmode] at hm
    by_cases hc : c' = c
    · rw [hc, update_self] at hm
      exact hticking now hm
    · rw [update_of_ne hc] at hm
      exact h.ticking c' now hm
  · rw [hclock]
    rw [hmode] at hm
    by_cases hc : c' = c
    · rw [hc, update_self] at hm
      exact absurd hm (hnew now expired)
    · rw [update_of_ne hc] at hm
      exact h.firing c' now expired hm

/-- What a job makes of a queue. -/
def Job.after (q : TimerQueue κ) : Job κ → TimerQueue κ
  | .insert e => q.insert e
  | .cancel id => (q.cancel id).2
  | .remove id _ => (q.remove id).2
  | .relocate e => q.insert e

/-- …what is put on record, -/
def Job.event (q : TimerQueue κ) (t : T) : Job κ → Event T κ
  | .insert e => .entered e
  | .cancel id => .cancelled id (q.cancel id).1
  | .remove id _ => .taken t id (q.remove id).1
  | .relocate e => .relocated t e

/-- …and what the task has in its hands after it. -/
def Job.left (q : TimerQueue κ) : Job κ → Held κ
  | .remove id _ => (q.remove id).1.elim .nothing .taken
  | _ => .nothing

theorem State.effect_record (s : State T κ) (t : T) (job : Job κ) :
    (s.effect t job).1.queue = update s.queue job.base (job.after (s.queue job.base)) ∧
      (s.effect t job).1.trace = job.event (s.queue job.base) t :: s.trace ∧
      (s.effect t job).2.held = job.left (s.queue job.base) := by
  cases job with
  | insert e | cancel id | relocate e =>
    dsimp only [State.effect]
    split_ifs <;> exact ⟨rfl, rfl, rfl⟩
  | remove id target =>
    refine ⟨rfl, rfl, ?_⟩
    dsimp only [State.effect, Job.left, Job.base]
    cases ((s.queue id.cpu).remove id).1 with
    | none | some e => rfl

/-- A base that a task has locked has all its entries in the queue. -/
theorem Exclusive.entries_eq (hx : Exclusive s) {job : Job κ} (hpc : s.pc t = .locked job) :
    s.entries job.base = s.queue job.base := by
  have hlock := (hx.task t job hpc).1
  rw [State.entries]
  cases hm : s.mode job.base with
  | firing now expired => cases hlock.symm.trans (hx.tick _ now expired hm)
  | free | locked | entry | ticking => rfl

variable [DecidableEq T]

theorem State.held_setPc (s : State T κ) (t : T) (pc : Pc κ) :
    (s.setPc t pc).held = update s.held t pc.held := by
  funext t'
  by_cases ht : t' = t
  · rw [ht, update_self, State.held]
    exact congrArg Pc.held (update_self ..)
  · rw [update_of_ne ht, State.held]
    exact congrArg Pc.held (update_of_ne ht ..)

theorem Exclusive.entries_perform (hx : Exclusive s) {job : Job κ} (hpc : s.pc t = .locked job) :
    (s.perform t job).entries =
      update s.entries job.base (job.after (s.queue job.base)) := by
  obtain ⟨-, -, -, hmode, hcpu, -⟩ := s.effect_frame t job
  funext c
  have hentries : (s.perform t job).entries c =
      (update (s.effect t job).1.mode ((s.effect t job).1.cpuOf t) .free c).expired ++
        (s.effect t job).1.queue c := rfl
  have hexpired : (update s.mode (s.cpuOf t) .free c).expired = (s.mode c).expired := by
    by_cases hc : c = s.cpuOf t
    · rw [hc, update_self, (hx.task t job hpc).2]
      rfl
    · rw [update_of_ne hc]
  rw [hentries, hmode, hcpu, hexpired, (s.effect_record t job).1]
  by_cases hc : c = job.base
  · rw [hc, update_self, update_self]
    have hall := hx.entries_eq hpc
    rw [State.entries, append_left_eq_self] at hall
    rw [hall, nil_append]
  · rw [update_of_ne hc, update_of_ne hc, State.entries]

/-- What a task does under a lock keeps the invariant if it fits the history. -/
theorem Inv.perform (h : Inv s) {job : Job κ} (hpc : s.pc t = .locked job)
    (hlegal : Fits s.trace (job.event (s.queue job.base) t))
    (hholds : Holds (status (job.event (s.queue job.base) t :: s.trace))
      (update s.entries job.base (job.after (s.queue job.base))))
    (hcarried : Carried (status (job.event (s.queue job.base) t :: s.trace))
      (update s.held t (job.left (s.queue job.base))))
    (hnumbered : Numbered (job.event (s.queue job.base) t :: s.trace) s.nextSeq
      (update s.held t (job.left (s.queue job.base))))
    (hspaced : Spaced (job.event (s.queue job.base) t :: s.trace)) : Inv (s.perform t job) := by
  obtain ⟨hclock, hseq, -, hmode, hcpu, hpcs⟩ := s.effect_frame t job
  obtain ⟨-, htrace, hleft⟩ := s.effect_record t job
  have hheld : (s.perform t job).held = update s.held t (job.left (s.queue job.base)) := by
    have heq : (s.perform t job).held =
        ((s.effect t job).1.setPc t (s.effect t job).2).held := rfl
    rw [heq, State.held_setPc, hleft]
    congr 1
    funext t'
    rw [State.held, State.held, hpcs]
  have hmode' : ∀ c m, (s.perform t job).mode c = m → m ≠ .free → s.mode c = m := by
    intro c m hm hne
    have hmc : update (s.effect t job).1.mode ((s.effect t job).1.cpuOf t) .free c = m := hm
    by_cases hc : c = (s.effect t job).1.cpuOf t
    · rw [hc, update_self] at hmc
      exact absurd hmc.symm hne
    · rwa [update_of_ne hc, hmode] at hmc
  have htrace' : (s.perform t job).trace = job.event (s.queue job.base) t :: s.trace := htrace
  have hseq' : (s.perform t job).nextSeq = s.nextSeq := hseq
  have hclock' : (s.perform t job).clock = s.clock := hclock
  exact
    { exclusive := h.exclusive.perform hpc
      legal := htrace' ▸ ⟨hlegal, h.legal⟩
      holds := by rwa [htrace', h.exclusive.entries_perform hpc]
      carried := by rwa [htrace', hheld]
      numbered := by rwa [htrace', hheld, hseq']
      ticking := fun c now hm => hclock' ▸ h.ticking c now (hmode' c _ hm nofun)
      firing := fun c now expired hm => hclock' ▸ h.firing c now expired (hmode' c _ hm nofun)
      spaced := htrace' ▸ hspaced }

/-! ## Tasks -/

namespace Inv

variable {e : TimerEntry κ} {id : TimerId} {target : ℕ}

variable (h : Inv s)
include h

omit [DecidableEq T] in
/-- A number that is not used is not the number that a timer was set under. -/
theorem status_eq_none {n : ℕ} (hu : Unused s.trace n) : status s.trace n = none := by
  cases hst : status s.trace n with
  | none => rfl
  | some st => exact absurd hu (h.legal.used hst).2.1

theorem insert (hpc : s.pc t = .locked (.insert e)) : Inv (s.perform t (.insert e)) := by
  have hheld : s.held t = .fresh e := congrArg Pc.held hpc
  have horigin := h.numbered.fresh t e hheld
  have hnumber : (s.held t).number = some e.id.seq := congrArg Held.number hheld
  obtain ⟨-, hunused⟩ := h.numbered.number t _ hnumber
  have hnone : status s.trace e.origin = none := h.status_eq_none (horigin ▸ hunused)
  have hentries : s.entries e.id.cpu = s.queue e.id.cpu := h.exclusive.entries_eq hpc
  refine h.perform hpc ⟨horigin, hunused⟩ ?_ ?_ (h.numbered.use hnumber rfl) ?_
  · show Holds (status (.entered e :: s.trace)) _
    rw [status_entered, Job.base, Job.after, ← hentries]
    exact h.holds.insert (fun e' he' => by cases hnone.symm.trans he') rfl
  · show Carried (status (.entered e :: s.trace)) _
    rw [status_entered]
    exact (h.carried.change (fun _ _ he' => by cases hnone.symm.trans he')
      (fun _ _ hx => by cases hx)).drop (congrArg Held.carries hheld) rfl
  · refine h.spaced.cons h.legal (by simp [Job.event]) fun o st hst => ?_
    change status (.entered e :: s.trace) o = some st at hst
    by_cases ho : e.origin = o
    · exact .inl (ho ▸ horigin ▸ hunused)
    · rw [status, if_neg ho] at hst
      exact .inr ⟨st, hst, rfl, rfl⟩

/-- `migrate` puts the entry into the base of the target. -/
theorem relocate (hpc : s.pc t = .locked (.relocate e)) : Inv (s.perform t (.relocate e)) := by
  have hheld : s.held t = .moved e := congrArg Pc.held hpc
  have hnumber : (s.held t).number = some e.id.seq := congrArg Held.number hheld
  have hcarries : (s.held t).carries = some e := congrArg Held.carries hheld
  obtain ⟨-, hunused⟩ := h.numbered.number t _ hnumber
  obtain ⟨e', hmoving, heq⟩ := h.carried.carries t e hcarries
  have hentries : s.entries e.id.cpu = s.queue e.id.cpu := h.exclusive.entries_eq hpc
  refine h.perform hpc ⟨hunused, e', hmoving, heq⟩ ?_ ?_ (h.numbered.use hnumber rfl) ?_
  · show Holds (status (.relocated t e :: s.trace)) _
    rw [status_relocated, Job.base, Job.after, ← hentries]
    exact h.holds.insert (fun e'' he'' => by cases hmoving.symm.trans he'') rfl
  · show Carried (status (.relocated t e :: s.trace)) _
    rw [status_relocated]
    exact h.carried.put hcarries
  · refine h.spaced.cons h.legal (by simp [Job.event]) fun o st hst => .inr ?_
    change status (.relocated t e :: s.trace) o = some st at hst
    by_cases ho : e.origin = o
    · rw [status, if_pos ho] at hst
      cases hst
      exact ⟨_, ho ▸ hmoving, by rw [heq]; rfl, by rw [heq]; rfl⟩
    · rw [status, if_neg ho] at hst
      exact ⟨st, hst, rfl, rfl⟩

omit [DecidableEq T] in
/-- The entry in a queue under an id is the one timer that waits under it. -/
theorem pending_iff {job : Job κ} (hpc : s.pc t = .locked job) (hbase : job.base = id.cpu) :
    Pending s.trace id ↔ ∃ e ∈ s.queue id.cpu, e.id = id := by
  have hentries := h.exclusive.entries_eq hpc
  rw [hbase] at hentries
  rw [← hentries]
  constructor
  · rintro ⟨o, e, hst, rfl⟩
    obtain rfl : e.origin = o := (h.legal.used hst).1
    exact ⟨e, (h.holds.mem _ e).mpr ⟨hst, rfl⟩, rfl⟩
  · rintro ⟨e, he, rfl⟩
    exact ⟨e.origin, e, ((h.holds.mem _ e).mp he).1, rfl⟩

omit [DecidableEq T] in
/-- …and all others of the base are others. -/
theorem id_ne_iff (he : status s.trace e.origin = some (.waiting e)) {e' : TimerEntry κ}
    (he' : e' ∈ s.entries c) : e'.id ≠ e.id ↔ e' ≠ e := by
  refine not_congr ⟨fun hid => ?_, fun heq => by rw [heq]⟩
  obtain ⟨hst, -⟩ := (h.holds.mem c e').mp he'
  have ho : e'.origin = e.origin := h.legal.waiting_inj hst he (by rw [hid])
  rw [ho, he] at hst
  exact (Status.waiting.inj (some.inj hst)).symm

theorem cancel (hpc : s.pc t = .locked (.cancel id)) : Inv (s.perform t (.cancel id)) := by
  have hheld : s.held t = .nothing := congrArg Pc.held hpc
  have hentries : s.entries id.cpu = s.queue id.cpu := h.exclusive.entries_eq hpc
  have hfits : ((s.queue id.cpu).cancel id).1 = true ↔ Pending s.trace id :=
    TimerQueue.cancel_fst.trans (h.pending_iff hpc rfl).symm
  have hcarries : (s.held t).carries = none := congrArg Held.carries hheld
  suffices hnew : Holds (status (.cancelled id ((s.queue id.cpu).cancel id).1 :: s.trace))
        (update s.entries id.cpu ((s.queue id.cpu).cancel id).2) ∧
      Carried (status (.cancelled id ((s.queue id.cpu).cancel id).1 :: s.trace)) s.held by
    refine h.perform hpc hfits hnew.1 (hnew.2.drop hcarries rfl)
      ((h.numbered.record rfl).drop rfl) ?_
    exact h.spaced.cons h.legal (fun _ _ _ hev => by cases hev)
      fun o st hst => .inr ⟨st, status_of_cancelled hst, rfl, rfl⟩
  cases hr : ((s.queue id.cpu).cancel id).1 with
  | false =>
    have hkeep : ((s.queue id.cpu).cancel id).2 = s.queue id.cpu := by
      refine filter_eq_self.mpr fun e he => decide_eq_true fun hid => ?_
      rw [TimerQueue.cancel_fst.mpr ⟨e, he, hid⟩] at hr
      cases hr
    rw [status_cancelled_false, hkeep, ← hentries, update_eq_self]
    exact ⟨h.holds, h.carried⟩
  | true =>
    obtain ⟨e, he, rfl⟩ := TimerQueue.cancel_fst.mp hr
    have hst : status s.trace e.origin = some (.waiting e) :=
      ((h.holds.mem e.id.cpu e).mp (hentries ▸ he)).1
    rw [h.legal.status_cancelled hst]
    refine ⟨h.holds.erase hst rfl ?_ (fun e' => ?_) nofun, h.carried.change ?_ nofun⟩
    · exact (hentries ▸ h.holds.nodup e.id.cpu).filter _
    · rw [TimerQueue.mem_cancel, hentries]
      exact and_congr_right fun he' => h.id_ne_iff hst (hentries ▸ he')
    · exact fun t' e' he' => by cases hst.symm.trans he'

theorem remove (hpc : s.pc t = .locked (.remove id target)) :
    Inv (s.perform t (.remove id target)) := by
  have hheld : s.held t = .nothing := congrArg Pc.held hpc
  have hentries : s.entries id.cpu = s.queue id.cpu := h.exclusive.entries_eq hpc
  have hcarries : (s.held t).carries = none := congrArg Held.carries hheld
  suffices hnew : Fits s.trace (.taken t id ((s.queue id.cpu).remove id).1) ∧
      Holds (status (.taken t id ((s.queue id.cpu).remove id).1 :: s.trace))
        (update s.entries id.cpu ((s.queue id.cpu).remove id).2) ∧
      Carried (status (.taken t id ((s.queue id.cpu).remove id).1 :: s.trace))
        (update s.held t (((s.queue id.cpu).remove id).1.elim .nothing .taken)) ∧
      (((s.queue id.cpu).remove id).1.elim (.nothing : Held κ) .taken).number = none ∧
      ∀ o st, status (.taken t id ((s.queue id.cpu).remove id).1 :: s.trace) o = some st →
        ∃ st', status s.trace o = some st' ∧ st.entry.period = st'.entry.period ∧
          st.entry.deadline = st'.entry.deadline by
    obtain ⟨hfits, hholds, hcarried, hnumber, hst⟩ := hnew
    refine h.perform hpc hfits hholds hcarried ((h.numbered.record rfl).drop hnumber) ?_
    exact h.spaced.cons h.legal (fun _ _ _ hev => by cases hev) fun o st hs => .inr (hst o st hs)
  cases hr : ((s.queue id.cpu).remove id).1 with
  | none =>
    obtain ⟨hno, hkeep⟩ := TimerQueue.remove_none hr
    refine ⟨?_, ?_, h.carried.drop hcarries rfl, rfl, fun o st hst => ⟨st, hst, rfl, rfl⟩⟩
    · show ¬ Pending s.trace id
      rw [h.pending_iff hpc rfl]
      rintro ⟨e, he, hid⟩
      exact hno e he hid
    · rw [hkeep, ← hentries, update_eq_self]
      exact h.holds
  | some e =>
    obtain ⟨rfl, hperm⟩ := TimerQueue.remove_some hr
    have hst : status s.trace e.origin = some (.waiting e) :=
      ((h.holds.mem e.id.cpu e).mp (hentries ▸ hperm.mem_iff.mpr mem_cons_self)).1
    refine ⟨⟨rfl, hst⟩, ?_, ?_, rfl, fun o st hs => ?_⟩
    · rw [status_taken]
      exact h.holds.erase_perm hst rfl (hentries ▸ hperm) (fun e' hx => by cases hx)
    · rw [status_taken]
      exact h.carried.take hcarries hst
    · rw [status_taken] at hs
      by_cases ho : o = e.origin
      · rw [ho, update_self] at hs
        cases hs
        exact ⟨.waiting e, ho ▸ hst, rfl, rfl⟩
      · rw [update_of_ne ho] at hs
        exact ⟨st, hs, rfl, rfl⟩

/-! ## Ticks -/

omit [DecidableEq T] in
theorem drain {now : ℕ} (hmode : s.mode c = .ticking now) (hlock : s.lock c = none) :
    Inv { (s.setLock c (some .tick)).setMode c (.firing now ((s.queue c).drainExpired now).1) with
      queue := update s.queue c ((s.queue c).drainExpired now).2 } := by
  obtain ⟨hperm, hdue, -⟩ := (s.queue c).drainExpired_spec now
  refine h.quiet (h.exclusive.drain hmode hlock) rfl rfl rfl (fun c' => ?_) (fun c' now' hm => ?_)
    fun c' now' expired hm => ?_
  · show ((s.mode c').expired ++ s.queue c').Perm ((update s.mode c _ c').expired ++
      update s.queue c _ c')
    by_cases hc : c' = c
    · rw [hc, update_self, update_self, hmode]
      exact hperm
    · rw [update_of_ne hc, update_of_ne hc]
  · change update s.mode c _ c' = .ticking now' at hm
    by_cases hc : c' = c
    · rw [hc, update_self] at hm
      cases hm
    · rw [update_of_ne hc] at hm
      exact h.ticking c' now' hm
  · change update s.mode c _ c' = .firing now' expired at hm
    by_cases hc : c' = c
    · rw [hc, update_self] at hm
      obtain ⟨rfl, rfl⟩ := Mode.firing.inj hm
      exact ⟨h.ticking c now hmode, hdue⟩
    · rw [update_of_ne hc] at hm
      exact h.firing c' now' expired hm

omit [DecidableEq T] in
/-- A tick calls back, and puts back what is periodic. -/
theorem fire {now : ℕ} {e : TimerEntry κ} {expired : List (TimerEntry κ)}
    (hmode : s.mode c = .firing now (e :: expired))
    (hprompt : ∀ p, e.period = some p → s.clock = now ∧ now + p < 2 ^ 64) :
    Inv ((s.changeQueue c ((s.queue c).putBack (e.again now)) (.fired e now s.clock)).setMode c
      (.firing now expired)) := by
  obtain ⟨hnow, hdue⟩ := h.firing c now _ hmode
  have hentries : s.entries c = e :: (expired ++ s.queue c) := by
    rw [State.entries, hmode]
    rfl
  obtain ⟨hst, hcpu⟩ := (h.holds.mem c e).mp (hentries ▸ mem_cons_self)
  have hdeadline := hdue e mem_cons_self
  have hfits : Fits s.trace (.fired e now s.clock) := by
    refine ⟨hst, hdeadline, hnow, fun e' now' time' hmem ho => ?_⟩
    obtain ⟨p, hp, -, hle⟩ := h.spaced e' now' time' hmem _ (ho ▸ hst)
    change time' + p ≤ e.deadline at hle
    exact ⟨p, hp, by omega⟩
  have hmode' : ∀ c' m, (∀ expired, m ≠ .firing now expired) →
      update s.mode c (.firing now expired) c' = m → s.mode c' = m := by
    intro c' m hne hm
    by_cases hc : c' = c
    · rw [hc, update_self] at hm
      exact absurd hm.symm (hne expired)
    · rwa [update_of_ne hc] at hm
  have hchanged : Exclusive (s.changeQueue c ((s.queue c).putBack (e.again now))
      (.fired e now s.clock)) := ⟨h.exclusive.task, h.exclusive.tick⟩
  refine ⟨hchanged.fire hmode, ⟨hfits, h.legal⟩, ?_, ?_, h.numbered.record rfl, fun c' now' hm =>
    h.ticking c' now' (hmode' c' _ nofun hm), fun c' now' expired' hm => ?_,
    h.spaced.fired hst hdeadline hprompt⟩
  · show Holds (status (.fired e now s.clock :: s.trace)) _
    rw [status_fired]
    have hnew : ((s.changeQueue c ((s.queue c).putBack (e.again now))
        (.fired e now s.clock)).setMode c (.firing now expired)).entries =
          update s.entries c (expired ++ (s.queue c).putBack (e.again now)) := by
      funext c'
      show (update s.mode c _ c').expired ++ update s.queue c _ c' = _
      by_cases hc : c' = c
      · rw [hc, update_self, update_self, update_self]
        rfl
      · rw [update_of_ne hc, update_of_ne hc, update_of_ne hc,
          State.entries]
    rw [hnew]
    refine h.holds.refresh hst hcpu hentries fun e' he' => ?_
    obtain ⟨p, -, rfl⟩ := map_eq_some_iff.mp he'
    exact ⟨rfl, rfl⟩
  · show Carried (status (.fired e now s.clock :: s.trace)) s.held
    rw [status_fired]
    refine h.carried.change (fun t' e' he' => by cases hst.symm.trans he') fun t' e' hx => ?_
    obtain ⟨e'', -, hw⟩ := map_eq_some_iff.mp hx
    cases hw
  · change update s.mode c (.firing now expired) c' = .firing now' expired' at hm
    by_cases hc : c' = c
    · rw [hc, update_self] at hm
      obtain ⟨rfl, rfl⟩ := Mode.firing.inj hm
      exact ⟨hnow, fun e' he' => hdue e' (mem_cons_of_mem _ he')⟩
    · rw [update_of_ne hc] at hm
      exact h.firing c' now' expired' hm

/-! ## Whole runs -/

omit h

omit [DecidableEq T] in
theorem new (cpuOf : T → ℕ) (clock : ℕ) : Inv (State.new cpuOf clock : State T κ) where
  exclusive := .new cpuOf clock
  legal := trivial
  holds := ⟨fun c e => ⟨fun he => absurd he not_mem_nil, fun he => by cases he.1⟩,
    fun c => nodup_nil⟩
  carried := ⟨nofun, nofun⟩
  numbered := ⟨nofun, nofun, nofun, fun _ _ _ hev => absurd hev not_mem_nil⟩
  ticking := nofun
  firing := nofun
  spaced := fun e now time he => absurd he not_mem_nil

end Inv

/-- **A periodic callback is called at the time its tick has read**, and the next one is due within
the range of the clock; and the counter of numbers does not wrap. -/
def Prompt (s : State T κ) : Act T κ → Prop
  | .run t =>
    match s.pc t with
    | .number .. => s.nextSeq + 1 < 2 ^ 64
    | .renumber .. => s.nextSeq + 1 < 2 ^ 64
    | _ => True
  | .tick c =>
    match s.mode c with
    | .firing now (e :: _) => ∀ p ∈ e.period, s.clock = now ∧ now + p < 2 ^ 64
    | _ => True
  | _ => True

instance (s : State T κ) : ∀ a, Decidable (Prompt s a)
  | .run t =>
    match h : s.pc t with
    | .number .. | .renumber .. =>
      decidable_of_iff (s.nextSeq + 1 < 2 ^ 64) (by rw [Prompt, h])
    | .idle | .readNow .. | .readCpu .. | .lock _ | .locked _ =>
      isTrue (by rw [Prompt, h]; trivial)
  | .tick c =>
    match h : s.mode c with
    | .firing now (e :: _) =>
      decidable_of_iff (∀ p ∈ e.period, s.clock = now ∧ now + p < 2 ^ 64) (by rw [Prompt, h])
    | .firing _ [] | .free | .locked _ | .entry | .ticking _ => isTrue (by rw [Prompt, h]; trivial)
  | .call .. | .move .. | .wait _ | .expire _ | .interrupt .. => isTrue trivial

theorem State.held_setPc_eq {pc : Pc κ} (h : pc.held = (s.pc t).held) :
    (s.setPc t pc).held = s.held := by
  rw [State.held_setPc, update_eq_self_iff]
  exact h

/-- **Every step keeps the invariant**, if callbacks are prompt. -/
theorem Inv.step {a : Act T κ} (h : Inv s) (hok : Prompt s a) (hs : s.step a = some s') :
    Inv s' := by
  have hx := h.exclusive.step hs
  cases step_cases hs with
  | @call t c hpc =>
    refine h.quiet hx rfl rfl (State.held_setPc_eq ?_) (fun c => List.Perm.refl _) h.ticking
      h.firing
    rw [hpc]
    cases c <;> rfl
  | readNow hpc | readCpu hpc =>
    refine h.quiet hx rfl rfl (State.held_setPc_eq ?_) (fun c => List.Perm.refl _) h.ticking
      h.firing
    rw [hpc]
    rfl
  | @number t cpu deadline period callback hpc =>
    rw [Prompt, hpc] at hok
    have hseq : (s.nextSeq + 1) % 2 ^ 64 = s.nextSeq + 1 := Nat.mod_eq_of_lt hok
    have hheld : s.held t = .nothing := congrArg Pc.held hpc
    refine ⟨hx, h.legal, h.holds, ?_, ?_, h.ticking, h.firing, h.spaced⟩
    · rw [State.held_setPc]
      exact h.carried.drop (congrArg Held.carries hheld) rfl
    · rw [State.held_setPc]
      have hfetch := h.numbered.fetch t
        (.fresh ⟨⟨cpu, s.nextSeq⟩, deadline, period, callback, s.nextSeq⟩) rfl
        (by rintro e ⟨⟩; rfl)
      rw [← hseq] at hfetch
      exact hfetch
  | @renumber t e target hpc =>
    rw [Prompt, hpc] at hok
    have hseq : (s.nextSeq + 1) % 2 ^ 64 = s.nextSeq + 1 := Nat.mod_eq_of_lt hok
    refine ⟨hx, h.legal, h.holds, ?_, ?_, h.ticking, h.firing, h.spaced⟩
    · rw [State.held_setPc]
      exact h.carried.renumber (congrArg Pc.held hpc) ⟨target, s.nextSeq⟩
    · rw [State.held_setPc]
      have hfetch := h.numbered.fetch t (.moved { e with id := ⟨target, s.nextSeq⟩ }) rfl nofun
      rw [← hseq] at hfetch
      exact hfetch
  | @acquire t job hpc hmode hlock =>
    refine h.quiet_mode (c := s.cpuOf t) (m := .locked t) hx rfl rfl (State.held_setPc_eq ?_) rfl
      rfl rfl (hmode ▸ rfl) nofun nofun
    rw [show ((s.setLock job.base (some (.task t))).setMode (s.cpuOf t) (.locked t)).pc t =
      .lock job from hpc]
    rfl
  | @perform t job hpc =>
    cases job with
    | insert e => exact h.insert hpc
    | cancel id => exact h.cancel hpc
    | remove id target => exact h.remove hpc
    | relocate e => exact h.relocate hpc
  | move cpu hpc | expire c => exact h.quiet hx rfl rfl rfl (fun c => .refl _) h.ticking h.firing
  | wait hle =>
    exact h.quiet hx rfl rfl rfl (fun c => .refl _)
      (fun c now hm => Nat.le_trans (h.ticking c now hm) hle)
      fun c now expired hm => (h.firing c now expired hm).imp_left fun hnow => Nat.le_trans hnow hle
  | ipi hmode | timerIrq hmode =>
    exact h.quiet_mode (m := .entry) hx rfl rfl rfl rfl rfl rfl (hmode ▸ rfl) nofun nofun
  | enter hmode =>
    refine h.quiet_mode (m := .ticking s.clock) hx rfl rfl rfl rfl rfl rfl (hmode ▸ rfl) nofun
      fun now hm => ?_
    exact Nat.le_of_eq (Mode.ticking.inj hm).symm
  | drain hmode hlock => exact h.drain hmode hlock
  | fire hmode =>
    rw [Prompt, hmode] at hok
    exact h.fire hmode hok
  | finish hmode =>
    exact h.quiet_mode (m := .free) hx rfl rfl rfl rfl rfl rfl (hmode ▸ rfl) nofun nofun

/-- **What is promised of timers**, in terms of what has happened.

* `holds`, `carried`: a timer that was set, and has not fired as a one-shot or been cancelled, has
  one entry, in one base or in the hands of the one task that migrates it;
* `due`: no callback before its deadline;
* `again`: a timer fires a second time only if it is periodic, and a period later;
* `cancel`, `migrate`: they find an entry exactly if one waits under the id, and then no callback is
  called under the id any more;
* `kept`: a migrated entry has the deadline, period and callback that it had. -/
structure Promised (s : State T κ) : Prop where
  holds : Holds (status s.trace) s.entries
  carried : Carried (status s.trace) s.held
  due : ∀ e now time, .fired e now time ∈ s.trace → e.deadline ≤ time
  again : ∀ post pre e now time e' now' time', s.trace = post ++ .fired e now time :: pre →
    .fired e' now' time' ∈ pre → e'.origin = e.origin → ∃ p, e'.period = some p ∧ time' + p ≤ time
  cancel : ∀ post pre id removed, s.trace = post ++ .cancelled id removed :: pre →
    (removed = true ↔ Pending pre id) ∧ (removed = true → Silent post id)
  migrate : ∀ post pre t id entry, s.trace = post ++ .taken t id entry :: pre →
    (entry.isSome ↔ Pending pre id) ∧ (entry.isSome → Silent post id)
  kept : ∀ post pre t e, s.trace = post ++ .relocated t e :: pre →
    ∃ e', status pre e.origin = some (.moving t e') ∧ e = { e' with id := e.id }

omit [DecidableEq T] in
theorem Inv.promised (h : Inv s) : Promised s where
  holds := h.holds
  carried := h.carried
  due := by
    intro e now time hmem
    obtain ⟨post, pre, heq⟩ := append_of_mem hmem
    obtain ⟨-, hdue, hnow, -⟩ := (heq ▸ h.legal).fits
    exact Nat.le_trans hdue hnow
  again := by
    intro post pre e now time e' now' time' heq hmem ho
    obtain ⟨-, -, -, hagain⟩ := (heq ▸ h.legal).fits
    exact hagain e' now' time' hmem ho
  cancel := by
    intro post pre id removed heq
    have hlegal := heq ▸ h.legal
    refine ⟨hlegal.fits, ?_⟩
    rintro rfl
    exact (Retired.silent hlegal (retired_of_cancelled hlegal.of_append)).1
  migrate := by
    intro post pre t id entry heq
    have hlegal := heq ▸ h.legal
    cases entry with
    | none => exact ⟨iff_of_false Bool.noConfusion hlegal.fits, fun hsome => by cases hsome⟩
    | some e =>
      obtain ⟨hid, hst⟩ := hlegal.fits
      exact ⟨iff_of_true rfl ⟨e.origin, e, hst, hid⟩,
        fun _ => (Retired.silent hlegal (retired_of_taken hlegal.of_append)).1⟩
  kept := by
    intro post pre t e heq
    exact (heq ▸ h.legal).fits.2

/-- **Timers fire as promised in every run** in which periodic callbacks are called at the time that
their tick has read. -/
theorem promised_of_prompt (cpuOf : T → ℕ) (clock : ℕ) (acts : List (Act T κ))
    (hok : RunMeets State.step Prompt (State.new cpuOf clock) acts)
    (hrun : run State.step (State.new cpuOf clock) acts = some s) : Promised s :=
  (run_invariant Inv (fun _ _ _ h hok hs => h.step hok hs) acts (.new cpuOf clock) hok
    hrun).promised

end Inv

/-! ## A late firing, and one in time -/

/-- A timer with period 10 is set at 90; the tick at 100 has to wait for its lock until `late`, and
the tick at 110 has not. -/
def twoTicks (late : ℕ) : List (Act Unit Unit) :=
  [.call () (.setPeriodic 10 ()), .run (), .run (), .run (), .run (), .run (),
    .wait 100, .expire 0, .interrupt 0 false, .tick 0, .wait late, .tick 0, .tick 0, .tick 0,
    .wait 110, .expire 0, .interrupt 0 false, .tick 0, .tick 0, .tick 0, .tick 0]

/-- Its entry, as it was set and as it was put back. -/
def tenfold (deadline : ℕ) : TimerEntry Unit := ⟨⟨0, 1⟩, deadline, some 10, (), 1⟩

/-- The callback is called at 105 and again at 110. -/
theorem late_then_early :
    ∃ s : State Unit Unit, run State.step (State.new (fun _ => 0) 90) (twoTicks 105) = some s ∧
      s.trace = [.fired (tenfold 110) 110 110, .fired (tenfold 100) 100 105,
        .entered (tenfold 100)] ∧ ¬ Promised s := by
  refine ⟨_, rfl, rfl, fun h => ?_⟩
  obtain ⟨p, hp, hle⟩ := h.again [] _ (tenfold 110) 110 110 (tenfold 100) 100 105 rfl
    mem_cons_self rfl
  cases hp
  omega

/-- …and without the wait at 100 and at 110. -/
theorem promised_of_prompt_twoTicks :
    ∃ s : State Unit Unit, run State.step (State.new (fun _ => 0) 90) (twoTicks 100) = some s ∧
      s.trace = [.fired (tenfold 110) 110 110, .fired (tenfold 100) 100 100,
        .entered (tenfold 100)] ∧ Promised s :=
  ⟨_, rfl, rfl, promised_of_prompt (fun _ => 0) 90 (twoTicks 100) (by decide) rfl⟩

end Bedrock.Services
