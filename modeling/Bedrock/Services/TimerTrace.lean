import Mathlib.Tactic
import Bedrock.Services.TimerQueue

/-!
# Services/TimerTrace — what timers promise, as a property of what happens

What happens to timers is a list of events, the newest first.  It tells where each timer is: waiting
under an id, on the way from one base to another, or gone.

    entered -▸ waiting --fired--▸ waiting (periodic), gone (one-shot)
                  |  ▴
            taken |  | relocated, under a new id          waiting --cancelled--▸ gone
                  ▾  |
                 moving

Each event has to fit what happened before it (`Fits`); all that is promised follows from that.
-/

namespace Bedrock.Services

open Function Option

/-- `saturating_add` on words. -/
def saturatingAdd (a b : ℕ) : ℕ := min (a + b) (2 ^ 64 - 1)

/-- What a periodic entry is put back as, by a tick that has read `now`. -/
def TimerEntry.again {κ : Type} (e : TimerEntry κ) (now : ℕ) : Option (TimerEntry κ) :=
  e.period.map fun p => { e with deadline := saturatingAdd now p }

/-- What happens to timers; `T` are the tasks.  A callback is called at a time on the clock, by a
tick that has read the clock before. -/
inductive Event (T κ : Type)
  | entered (e : TimerEntry κ)
  | fired (e : TimerEntry κ) (now time : ℕ)
  | cancelled (id : TimerId) (removed : Bool)
  | taken (t : T) (id : TimerId) (entry : Option (TimerEntry κ))
  | relocated (t : T) (e : TimerEntry κ)

/-- Where a timer is. -/
inductive Status (T κ : Type)
  | waiting (e : TimerEntry κ)
  | moving (t : T) (e : TimerEntry κ)

/-- The entry, as it was last in a base. -/
def Status.entry {T κ : Type} : Status T κ → TimerEntry κ
  | .waiting e => e
  | .moving _ e => e

section Trace

variable {T κ : Type}

/-- Where the timer that was set under number `o` is; nowhere if it was not set or is gone. -/
def status : List (Event T κ) → ℕ → Option (Status T κ)
  | [], _ => none
  | .entered e :: tr, o => if e.origin = o then some (.waiting e) else status tr o
  | .fired e now _ :: tr, o =>
    if e.origin = o then (e.again now).map .waiting else status tr o
  | .cancelled id removed :: tr, o =>
    match status tr o with
    | some (.waiting e) => if removed ∧ e.id = id then none else some (.waiting e)
    | st => st
  | .taken t _ (some e) :: tr, o => if e.origin = o then some (.moving t e) else status tr o
  | .taken _ _ none :: tr, o => status tr o
  | .relocated _ e :: tr, o => if e.origin = o then some (.waiting e) else status tr o

/-- A timer waits under the id. -/
def Pending (tr : List (Event T κ)) (id : TimerId) : Prop :=
  ∃ o e, status tr o = some (.waiting e) ∧ e.id = id

/-- The entry that an event puts into a base under a number of its own. -/
def Event.introduces : Event T κ → Option (TimerEntry κ)
  | .entered e => some e
  | .relocated _ e => some e
  | _ => none

/-- The number has not been the number of any entry. -/
def Unused (tr : List (Event T κ)) (n : ℕ) : Prop :=
  ∀ ev ∈ tr, ∀ e, ev.introduces = some e → e.id.seq ≠ n

/-- No callback is called under the id. -/
def Silent (tr : List (Event T κ)) (id : TimerId) : Prop :=
  ∀ e now time, .fired e now time ∈ tr → e.id ≠ id

/-- **The event may happen after these.** -/
def Fits (tr : List (Event T κ)) : Event T κ → Prop
  | .entered e => e.origin = e.id.seq ∧ Unused tr e.id.seq
  | .fired e now time =>
    status tr e.origin = some (.waiting e) ∧ e.deadline ≤ now ∧ now ≤ time ∧
      ∀ e' now' time', .fired e' now' time' ∈ tr → e'.origin = e.origin →
        ∃ p, e'.period = some p ∧ time' + p ≤ time
  | .cancelled id removed => removed = true ↔ Pending tr id
  | .taken _ id none => ¬ Pending tr id
  | .taken _ id (some e) => e.id = id ∧ status tr e.origin = some (.waiting e)
  | .relocated t e =>
    Unused tr e.id.seq ∧
      ∃ e', status tr e.origin = some (.moving t e') ∧ e = { e' with id := e.id }

/-- …and so may each of them, after the ones before it. -/
def Legal : List (Event T κ) → Prop
  | [] => True
  | ev :: tr => Fits tr ev ∧ Legal tr

/-! ## Numbers are used once -/

variable {tr pre post : List (Event T κ)} {ev : Event T κ} {o o' n : ℕ} {e e' : TimerEntry κ}
  {id : TimerId} {t : T} {st : Status T κ}

theorem Legal.of_append : ∀ {post : List (Event T κ)}, Legal (post ++ pre) → Legal pre
  | [], h => h
  | _ :: _, h => Legal.of_append h.2

theorem Legal.fits (h : Legal (post ++ ev :: pre)) : Fits pre ev := h.of_append.1

theorem Unused.of_cons (h : Unused (ev :: tr) n) : Unused tr n :=
  fun ev' hev' => h ev' (List.mem_cons_of_mem _ hev')

theorem Unused.cons (h : Unused tr n) (hev : ∀ e, ev.introduces = some e → e.id.seq ≠ n) :
    Unused (ev :: tr) n := by
  rintro ev' (_ | ⟨_, hmem⟩)
  · exact hev
  · exact h ev' hmem

theorem status_of_cancelled {removed : Bool}
    (h : status (.cancelled id removed :: tr) o = some st) : status tr o = some st := by
  rw [status] at h
  split at h
  next e he =>
    split_ifs at h
    exact he.trans h
  next => exact h

/-- Where an event leaves a timer: it stands under the number that it stood under, or the event has
put it into a base. -/
theorem status_cons (hf : Fits tr ev) (h : status (ev :: tr) o = some st) :
    (∃ st', status tr o = some st' ∧ st.entry.id = st'.entry.id ∧
        st.entry.origin = st'.entry.origin ∧ ∀ e, st = .waiting e → ∃ e', st' = .waiting e') ∨
      ∃ e, st = .waiting e ∧ e.origin = o ∧ ev.introduces = some e := by
  have hkeep : status tr o = some st →
      ∃ st', status tr o = some st' ∧ st.entry.id = st'.entry.id ∧
        st.entry.origin = st'.entry.origin ∧ ∀ e, st = .waiting e → ∃ e', st' = .waiting e' :=
    fun h => ⟨st, h, rfl, rfl, fun e he => ⟨e, he⟩⟩
  cases ev with
  | entered e | relocated t e =>
    rw [status] at h
    split_ifs at h with ho
    · exact .inr ⟨e, (some.inj h).symm, ho, rfl⟩
    · exact .inl (hkeep h)
  | fired e now time =>
    rw [status] at h
    split_ifs at h with ho
    · obtain ⟨e', hagain, rfl⟩ := map_eq_some_iff.mp h
      obtain ⟨p, -, rfl⟩ := map_eq_some_iff.mp hagain
      exact .inl ⟨.waiting e, ho ▸ hf.1, rfl, rfl, fun _ _ => ⟨e, rfl⟩⟩
    · exact .inl (hkeep h)
  | cancelled id removed => exact .inl (hkeep (status_of_cancelled h))
  | taken t id entry =>
    cases entry with
    | none => exact .inl (hkeep h)
    | some e =>
      rw [status] at h
      split_ifs at h with ho
      · cases h
        exact .inl ⟨.waiting e, ho ▸ hf.2, rfl, rfl, nofun⟩
      · exact .inl (hkeep h)

theorem not_unused_of_introduces (h : ev.introduces = some e) : ¬ Unused (ev :: tr) e.id.seq :=
  fun hu => hu ev List.mem_cons_self e h rfl

/-- An event that puts an entry into a base takes a number that is not used; if the timer is new it
is the number the timer is set under, and otherwise the timer was on its way. -/
theorem Fits.introduces (hf : Fits tr ev) (h : ev.introduces = some e) :
    Unused tr e.id.seq ∧
      (e.origin = e.id.seq ∨ ∃ t e', status tr e.origin = some (.moving t e')) := by
  cases ev with
  | entered e' =>
    cases h
    exact ⟨hf.2, .inl hf.1⟩
  | relocated t e' =>
    cases h
    obtain ⟨hu, e'', he'', -⟩ := hf
    exact ⟨hu, .inr ⟨t, e'', he''⟩⟩
  | fired | cancelled | taken => cases h

/-- **A timer is known under the number it was set under, and all its numbers have been used.** -/
theorem Legal.used : ∀ {tr : List (Event T κ)} {o : ℕ} {st : Status T κ}, Legal tr →
    status tr o = some st → st.entry.origin = o ∧ ¬ Unused tr o ∧ ¬ Unused tr st.entry.id.seq
  | [], _, _, _, h => by cases h
  | ev :: tr, o, st, ⟨hf, hl⟩, h => by
    obtain ⟨st', hst', hid, horigin, -⟩ | ⟨e, rfl, rfl, hintro⟩ := status_cons hf h
    · obtain ⟨ho, hu, hu'⟩ := hl.used hst'
      rw [horigin, hid]
      exact ⟨ho, fun h => hu h.of_cons, fun h => hu' h.of_cons⟩
    · refine ⟨rfl, ?_, not_unused_of_introduces hintro⟩
      obtain hseq | ⟨t, e', hmoving⟩ := (hf.introduces hintro).2
      · rw [hseq]
        exact not_unused_of_introduces hintro
      · exact fun h => (hl.used hmoving).2.1 h.of_cons

/-- A number that a timer stands under is not the number of an entry that is put into a base. -/
theorem Legal.seq_ne (hl : Legal tr) (hst : status tr o = some st) (hf : Fits tr ev)
    (hintro : ev.introduces = some e) : st.entry.id.seq ≠ e.id.seq := by
  intro heq
  refine (hl.used hst).2.2 ?_
  rw [heq]
  exact (hf.introduces hintro).1

/-- **No two timers wait under one number.** -/
theorem Legal.waiting_inj : ∀ {tr : List (Event T κ)} {o o' : ℕ} {e e' : TimerEntry κ}, Legal tr →
    status tr o = some (.waiting e) → status tr o' = some (.waiting e') → e.id.seq = e'.id.seq →
    o = o'
  | [], _, _, _, _, _, h, _, _ => by cases h
  | ev :: tr, o, o', e, e', ⟨hf, hl⟩, h, h', hid => by
    obtain ⟨st, hst, heq, -, hw⟩ | ⟨e1, he1, rfl, hintro⟩ := status_cons hf h <;>
    obtain ⟨st', hst', heq', -, hw'⟩ | ⟨e2, he2, rfl, hintro'⟩ := status_cons hf h'
    · obtain ⟨e1, rfl⟩ := hw e rfl
      obtain ⟨e2, rfl⟩ := hw' e' rfl
      have hseq : e1.id.seq = e2.id.seq := by
        rw [← show e.id = e1.id from heq, ← show e'.id = e2.id from heq', hid]
      exact hl.waiting_inj hst hst' hseq
    · obtain rfl := Status.waiting.inj he2
      exact absurd (heq ▸ hid) (hl.seq_ne hst hf hintro')
    · obtain rfl := Status.waiting.inj he1
      exact absurd (heq' ▸ hid.symm) (hl.seq_ne hst' hf hintro)
    · cases hintro.symm.trans hintro'
      rfl

/-! ## One timer at a time

An event changes where one timer is. -/

theorem ite_eq_update (st : ℕ → Option (Status T κ)) (o : ℕ) (x : Option (Status T κ)) :
    (fun o' => if o = o' then x else st o') = update st o x := by
  funext o'
  rw [update_apply]
  exact if_congr eq_comm rfl rfl

theorem status_entered : status (.entered e :: tr) =
    update (status tr) e.origin (some (.waiting e)) := ite_eq_update ..

theorem status_fired {now time : ℕ} : status (.fired e now time :: tr) =
    update (status tr) e.origin ((e.again now).map .waiting) := ite_eq_update ..

theorem status_taken : status (.taken t id (some e) :: tr) =
    update (status tr) e.origin (some (.moving t e)) := ite_eq_update ..

theorem status_relocated : status (.relocated t e :: tr) =
    update (status tr) e.origin (some (.waiting e)) := ite_eq_update ..

theorem status_cancelled_false : status (.cancelled id false :: tr) = status tr := by
  funext o
  rw [status]
  split
  next e he => rw [if_neg (fun h => Bool.noConfusion h.1), he]
  next => rfl

/-- A cancel ends the one timer that waits under the id. -/
theorem Legal.status_cancelled (hl : Legal tr) (he : status tr e.origin = some (.waiting e)) :
    status (.cancelled e.id true :: tr) = update (status tr) e.origin none := by
  funext o
  rw [status]
  by_cases ho : o = e.origin
  · rw [ho, he, update_self]
    exact if_pos ⟨rfl, rfl⟩
  · rw [update_of_ne ho]
    split
    next e' he' =>
      refine (if_neg fun h => ho ?_).trans he'.symm
      exact hl.waiting_inj he' he (by rw [h.2])
    next => rfl

/-! ## After a cancel, or a migrate, the id is silent -/

/-- Nothing waits under the id, and nothing will. -/
def Retired (tr : List (Event T κ)) (id : TimerId) : Prop := ¬ Pending tr id ∧ ¬ Unused tr id.seq

theorem Retired.cons (hl : Legal (ev :: tr)) (h : Retired tr id) : Retired (ev :: tr) id := by
  refine ⟨?_, fun hu => h.2 hu.of_cons⟩
  rintro ⟨o, e, hst, rfl⟩
  obtain ⟨st, hst', heq, -, hw⟩ | ⟨e', he', rfl, hintro⟩ := status_cons hl.1 hst
  · obtain ⟨e', rfl⟩ := hw e rfl
    exact h.1 ⟨o, e', hst', (show e.id = e'.id from heq).symm⟩
  · obtain rfl := Status.waiting.inj he'
    exact h.2 (hl.1.introduces hintro).1

/-- **No callback is called under an id that is retired.** -/
theorem Retired.silent : ∀ {post : List (Event T κ)}, Legal (post ++ tr) → Retired tr id →
    Silent post id ∧ Retired (post ++ tr) id
  | [], _, h => ⟨fun _ _ _ hmem => absurd hmem List.not_mem_nil, h⟩
  | ev :: post, hl, h => by
    obtain ⟨hsilent, hretired⟩ := Retired.silent hl.2 h
    refine ⟨?_, hretired.cons hl⟩
    rintro e now time (_ | ⟨_, hmem⟩)
    · exact fun hid => hretired.1 ⟨e.origin, e, hl.1.1, hid⟩
    · exact hsilent e now time hmem

theorem Pending.not_unused (hl : Legal tr) (h : Pending tr id) : ¬ Unused tr id.seq := by
  obtain ⟨o, e, hst, rfl⟩ := h
  exact (hl.used hst).2.2

/-- A cancel that has removed an entry retires the id. -/
theorem retired_of_cancelled (hl : Legal (.cancelled id true :: tr)) :
    Retired (.cancelled id true :: tr) id := by
  refine ⟨?_, fun hu => Pending.not_unused hl.2 (hl.1.mp rfl) hu.of_cons⟩
  rintro ⟨o, e, hst, rfl⟩
  rw [status] at hst
  split at hst
  next e' he' =>
    split_ifs at hst with hid
    obtain rfl := Status.waiting.inj (some.inj hst)
    exact hid ⟨rfl, rfl⟩
  next hne => exact hne e hst

/-- …and so does a migrate that has taken one. -/
theorem retired_of_taken (hl : Legal (.taken t id (some e) :: tr)) :
    Retired (.taken t id (some e) :: tr) id := by
  obtain ⟨⟨rfl, hwaiting⟩, hl'⟩ := hl
  refine ⟨?_, fun hu => Pending.not_unused hl' ⟨_, e, hwaiting, rfl⟩ hu.of_cons⟩
  rintro ⟨o, e', hst, hid⟩
  rw [status] at hst
  split_ifs at hst with ho
  · cases hst
  · exact ho (hl'.waiting_inj hwaiting hst (by rw [hid]))

/-! ## Firings of a periodic timer -/

/-- Whatever the deadline of a timer is, it is a period after each of its firings. -/
def Spaced (tr : List (Event T κ)) : Prop :=
  ∀ e now time, .fired e now time ∈ tr → ∀ st, status tr e.origin = some st →
    ∃ p, e.period = some p ∧ st.entry.period = some p ∧ time + p ≤ st.entry.deadline

theorem Legal.fired_used : ∀ {tr : List (Event T κ)} {e : TimerEntry κ} {now time : ℕ}, Legal tr →
    .fired e now time ∈ tr → ¬ Unused tr e.origin
  | ev :: tr, e, now, time, ⟨hf, hl⟩, h => by
    cases h with
    | head => exact fun hu => (hl.used hf.1).2.1 hu.of_cons
    | tail _ h => exact fun hu => hl.fired_used h hu.of_cons

/-- An event other than a firing keeps deadline and period, or sets a new timer. -/
theorem Spaced.cons (h : Spaced tr) (hl : Legal tr) (hev : ∀ e now time, ev ≠ .fired e now time)
    (hst : ∀ o st, status (ev :: tr) o = some st → Unused tr o ∨ ∃ st', status tr o = some st' ∧
      st.entry.period = st'.entry.period ∧ st.entry.deadline = st'.entry.deadline) :
    Spaced (ev :: tr) := by
  intro e now time hmem st hstatus
  cases hmem with
  | head => exact absurd rfl (hev e now time)
  | tail _ hmem =>
    obtain hu | ⟨st', hst', hperiod, hdeadline⟩ := hst _ st hstatus
    · exact absurd hu (hl.fired_used hmem)
    · rw [hperiod, hdeadline]
      exact h e now time hmem st' hst'

/-- A firing at the time that the tick has read. -/
theorem Spaced.fired {now time : ℕ} (h : Spaced tr) (he : status tr e.origin = some (.waiting e))
    (hdue : e.deadline ≤ now) (hp : ∀ p, e.period = some p → time = now ∧ now + p < 2 ^ 64) :
    Spaced (.fired e now time :: tr) := by
  intro e' now' time' hmem st hst
  rw [status] at hst
  by_cases ho : e.origin = e'.origin
  · rw [if_pos ho] at hst
    obtain ⟨e'', hagain, rfl⟩ := map_eq_some_iff.mp hst
    obtain ⟨p, hperiod, rfl⟩ := map_eq_some_iff.mp hagain
    obtain ⟨htime, hsat⟩ := hp p hperiod
    have hdeadline : saturatingAdd now p = now + p := Nat.min_eq_left (by omega)
    show ∃ p', e'.period = some p' ∧ e.period = some p' ∧ time' + p' ≤ saturatingAdd now p
    rw [hdeadline]
    cases hmem with
    | head => exact ⟨p, hperiod, hperiod, by omega⟩
    | tail _ hmem =>
      obtain ⟨p', hp', hp'', hle⟩ := h e' now' time' hmem _ (ho ▸ he)
      obtain rfl := some.inj (hp''.symm.trans hperiod)
      refine ⟨p', hp', hperiod, ?_⟩
      change time' + p' ≤ e.deadline at hle
      omega
  · rw [if_neg ho] at hst
    cases hmem with
    | head => exact absurd rfl ho
    | tail _ hmem => exact h e' now' time' hmem st hst

end Trace

end Bedrock.Services
