import Bedrock.Services.UniversalTimer
import Mathlib.Data.List.Nodup

/-!
# Services/TimerPlaces — where the entries of timers are

A timer that waits has its entry in a base, and one that is on its way has it in the hands of a
task; and so do the numbers that tasks have fetched and not yet used.

    waiting e      in the base of the CPU of its id                        `Holds`
    moving t e     in the hands of the task `t`, between two bases         `Carried`
    n              fetched by one task, and never the number of an entry   `Numbered`
-/

namespace Bedrock.Services

open Function Option

section Held

variable {T κ : Type}

/-! ## Entries in bases -/

/-- The entries of each base are those that wait under one of its ids, once each. -/
structure Holds (st : ℕ → Option (Status T κ)) (entries : ℕ → List (TimerEntry κ)) : Prop where
  mem : ∀ c e, e ∈ entries c ↔ st e.origin = some (.waiting e) ∧ e.id.cpu = c
  nodup : ∀ c, (entries c).Nodup

namespace Holds

variable {st : ℕ → Option (Status T κ)} {entries entries' : ℕ → List (TimerEntry κ)}
  {e : TimerEntry κ} {x : Option (Status T κ)} {l : List (TimerEntry κ)} {c : ℕ}

variable (h : Holds st entries)
include h

theorem perm (hperm : ∀ c, (entries c).Perm (entries' c)) : Holds st entries' :=
  ⟨fun c e => (hperm c).mem_iff.symm.trans (h.mem c e), fun c => (hperm c).nodup_iff.mp (h.nodup c)⟩

theorem erase (he : st e.origin = some (.waiting e)) (hc : e.id.cpu = c)
    (hl : l.Nodup) (hmem : ∀ e', e' ∈ l ↔ e' ∈ entries c ∧ e' ≠ e)
    (hx : ∀ e', x ≠ some (.waiting e')) : Holds (update st e.origin x) (update entries c l) := by
  constructor
  · intro c' e'
    by_cases ho : e'.origin = e.origin
    · -- no entry of this timer is left in any base
      rw [ho, update_self, iff_false_intro (hx e'), false_and, iff_false]
      have honly : ∀ c'', e' ∈ entries c'' → e' = e ∧ c'' = c := by
        intro c'' hmem''
        obtain ⟨hst, hcpu⟩ := (h.mem c'' e').mp hmem''
        rw [ho, he] at hst
        obtain rfl := Status.waiting.inj (some.inj hst)
        exact ⟨rfl, hcpu.symm.trans hc⟩
      by_cases hcc : c' = c
      · rw [hcc, update_self, hmem]
        exact fun hin => hin.2 (honly c hin.1).1
      · rw [update_of_ne hcc]
        exact fun hin => hcc (honly c' hin).2
    · rw [update_of_ne ho]
      by_cases hcc : c' = c
      · rw [hcc, update_self, hmem, h.mem]
        exact ⟨And.left, fun hin => ⟨hin, fun heq => ho (by rw [heq])⟩⟩
      · rw [update_of_ne hcc, h.mem]
  · intro c'
    by_cases hcc : c' = c
    · rw [hcc, update_self]
      exact hl
    · rw [update_of_ne hcc]
      exact h.nodup c'

theorem erase_perm (he : st e.origin = some (.waiting e)) (hc : e.id.cpu = c)
    (hperm : (entries c).Perm (e :: l)) (hx : ∀ e', x ≠ some (.waiting e')) :
    Holds (update st e.origin x) (update entries c l) := by
  have hnodup := hperm.nodup_iff.mp (h.nodup c)
  refine h.erase he hc hnodup.of_cons (fun e' => ?_) hx
  rw [hperm.mem_iff, List.mem_cons, or_and_right, and_not_self_iff, false_or]
  refine ⟨fun he' => ⟨he', ?_⟩, And.left⟩
  rintro rfl
  exact (List.nodup_cons.mp hnodup).1 he'

theorem insert (he : ∀ e', st e.origin ≠ some (.waiting e')) (hc : e.id.cpu = c) :
    Holds (update st e.origin (some (.waiting e)))
      (update entries c (e :: entries c)) := by
  have hnone : ∀ c' e', e'.origin = e.origin → e' ∉ entries c' := by
    intro c' e' ho hin
    have hst := ((h.mem c' e').mp hin).1
    rw [ho] at hst
    exact he e' hst
  constructor
  · intro c' e'
    by_cases ho : e'.origin = e.origin
    · rw [ho, update_self, some_inj, Status.waiting.injEq]
      by_cases hcc : c' = c
      · rw [hcc, update_self, List.mem_cons, or_iff_left (hnone c e' ho)]
        exact ⟨fun heq => ⟨heq.symm, by rw [heq, hc]⟩, fun heq => heq.1.symm⟩
      · rw [update_of_ne hcc, iff_false_intro (hnone c' e' ho), false_iff]
        rintro ⟨rfl, hcpu⟩
        exact hcc (hcpu.symm.trans hc)
    · rw [update_of_ne ho]
      by_cases hcc : c' = c
      · rw [hcc, update_self, List.mem_cons, or_iff_right fun heq => ho (by rw [heq]), h.mem]
      · rw [update_of_ne hcc, h.mem]
  · intro c'
    by_cases hcc : c' = c
    · rw [hcc, update_self]
      exact (h.nodup c).cons (hnone c e rfl)
    · rw [update_of_ne hcc]
      exact h.nodup c'

/-- An entry leaves its base, and comes back as another of the same timer. -/
theorem refresh (he : st e.origin = some (.waiting e)) (hc : e.id.cpu = c)
    {expired q : List (TimerEntry κ)} (hentries : entries c = e :: (expired ++ q))
    {back : Option (TimerEntry κ)}
    (hback : ∀ e', back = some e' → e'.origin = e.origin ∧ e'.id = e.id) :
    Holds (update st e.origin (back.map .waiting))
      (update entries c (expired ++ TimerQueue.putBack q back)) := by
  have herased : Holds (update st e.origin none)
      (update entries c (expired ++ q)) :=
    h.erase_perm he hc (by rw [hentries]) nofun
  cases back with
  | none => exact herased
  | some e' =>
    obtain ⟨ho, hid⟩ := hback e' rfl
    have hinserted := herased.insert (e := e') (fun e'' hx => by
      rw [ho, update_self] at hx
      cases hx) (by rw [hid, hc])
    rw [ho, update_idem, update_self, update_idem] at hinserted
    refine hinserted.perm fun c' => ?_
    by_cases hcc : c' = c
    · rw [hcc, update_self, update_self]
      exact List.perm_middle.symm
    · rw [update_of_ne hcc, update_of_ne hcc]

end Holds

/-! ## Entries in the hands of tasks -/

/-- What a task has in its hands: an entry it has taken out of a base, a new one, or one that it has
renumbered. -/
inductive Held (κ : Type)
  | nothing
  | taken (e : TimerEntry κ)
  | fresh (e : TimerEntry κ)
  | moved (e : TimerEntry κ)

/-- An entry on its way from one base to another. -/
def Held.carries : Held κ → Option (TimerEntry κ)
  | .taken e => some e
  | .moved e => some e
  | _ => none

/-- A number that no entry in a base has yet. -/
def Held.number : Held κ → Option ℕ
  | .fresh e => some e.id.seq
  | .moved e => some e.id.seq
  | _ => none

def Job.held : Job κ → Held κ
  | .insert e => .fresh e
  | .relocate e => .moved e
  | _ => .nothing

def Pc.held : Pc κ → Held κ
  | .renumber e _ => .taken e
  | .lock job => job.held
  | .locked job => job.held
  | _ => .nothing

/-- The timers on their way are in the hands of tasks, with all they have. -/
structure Carried (st : ℕ → Option (Status T κ)) (held : T → Held κ) : Prop where
  carries : ∀ t e, (held t).carries = some e →
    ∃ e', st e.origin = some (.moving t e') ∧ e = { e' with id := e.id }
  moving : ∀ o t e', st o = some (.moving t e') → ∃ e, (held t).carries = some e ∧ e.origin = o

/-- The numbers in the hands of tasks are all different, and none of an entry that was in a base. -/
structure Numbered (tr : List (Event T κ)) (nextSeq : ℕ) (held : T → Held κ) : Prop where
  fresh : ∀ t e, held t = .fresh e → e.origin = e.id.seq
  number : ∀ t n, (held t).number = some n → n < nextSeq ∧ Unused tr n
  inj : ∀ t t' n, (held t).number = some n → (held t').number = some n → t = t'
  unused : ∀ n, nextSeq ≤ n → Unused tr n

variable [DecidableEq T] {st : ℕ → Option (Status T κ)} {held : T → Held κ} {t : T}
  {e : TimerEntry κ} {x : Option (Status T κ)} {tr : List (Event T κ)} {nextSeq : ℕ} {h' : Held κ}
  {ev : Event T κ} {n : ℕ}

theorem of_update {α : Type} {g : Held κ → Option α} {t' : T} {a : α}
    (h : g (update held t h' t') = some a) :
    t' = t ∧ g h' = some a ∨ t' ≠ t ∧ g (held t') = some a := by
  by_cases ht : t' = t <;> simpa [ht] using h

namespace Carried

variable (h : Carried st held)
include h

/-- A task takes an entry out of a base. -/
theorem take (hnone : (held t).carries = none) (he : st e.origin = some (.waiting e)) :
    Carried (update st e.origin (some (.moving t e)))
      (update held t (.taken e)) := by
  constructor
  · intro t' e1 hcarries
    obtain ⟨rfl, ⟨⟩⟩ | ⟨ht, hcarries⟩ := of_update hcarries
    · exact ⟨e, update_self .., rfl⟩
    · obtain ⟨e', hst, heq⟩ := h.carries t' e1 hcarries
      have ho : e1.origin ≠ e.origin := by
        intro ho
        rw [ho, he] at hst
        cases hst
      exact ⟨e', by rw [update_of_ne ho, hst], heq⟩
  · intro o t' e' hst
    by_cases ho : o = e.origin
    · rw [ho, update_self] at hst
      obtain ⟨rfl, rfl⟩ := Status.moving.inj (some.inj hst)
      exact ⟨e, by rw [update_self]; rfl, ho.symm⟩
    · rw [update_of_ne ho] at hst
      obtain ⟨e1, hcarries, horigin⟩ := h.moving o t' e' hst
      have ht : t' ≠ t := by
        rintro rfl
        cases hnone.symm.trans hcarries
      exact ⟨e1, by rw [update_of_ne ht, hcarries], horigin⟩

/-- …and puts it into another. -/
theorem put (hcarried : (held t).carries = some e) :
    Carried (update st e.origin (some (.waiting e)))
      (update held t .nothing) := by
  obtain ⟨e0, he0, -⟩ := h.carries t e hcarried
  constructor
  · intro t' e1 hcarries
    obtain ⟨-, ⟨⟩⟩ | ⟨ht, hcarries⟩ := of_update hcarries
    obtain ⟨e', hst, heq⟩ := h.carries t' e1 hcarries
    have ho : e1.origin ≠ e.origin := by
      intro ho
      rw [ho, he0] at hst
      exact ht (Status.moving.inj (some.inj hst)).1.symm
    exact ⟨e', by rw [update_of_ne ho, hst], heq⟩
  · intro o t' e' hst
    by_cases ho : o = e.origin
    · rw [ho, update_self] at hst
      cases hst
    · rw [update_of_ne ho] at hst
      obtain ⟨e1, hcarries, horigin⟩ := h.moving o t' e' hst
      have ht : t' ≠ t := by
        rintro rfl
        obtain rfl := some.inj (hcarried.symm.trans hcarries)
        exact ho horigin.symm
      exact ⟨e1, by rw [update_of_ne ht, hcarries], horigin⟩

omit [DecidableEq T] in
theorem change {o : ℕ} (ho : ∀ t e', st o ≠ some (.moving t e'))
    (hx : ∀ t e', x ≠ some (.moving t e')) : Carried (update st o x) held := by
  constructor
  · intro t' e1 hcarries
    obtain ⟨e', hst, heq⟩ := h.carries t' e1 hcarries
    have hne : e1.origin ≠ o := by
      rintro rfl
      exact ho t' e' hst
    exact ⟨e', by rw [update_of_ne hne, hst], heq⟩
  · intro o' t' e' hst
    by_cases heq : o' = o
    · rw [heq, update_self] at hst
      exact absurd hst (hx t' e')
    · rw [update_of_ne heq] at hst
      exact h.moving o' t' e' hst

/-- A task has something else in its hands that it does not carry. -/
theorem drop (hnone : (held t).carries = none) (h'none : h'.carries = none) :
    Carried st (update held t h') := by
  constructor
  · intro t' e1 hcarries
    obtain ⟨-, h'some⟩ | ⟨-, hcarries⟩ := of_update hcarries
    · cases h'none.symm.trans h'some
    · exact h.carries t' e1 hcarries
  · intro o t' e' hst
    obtain ⟨e1, hcarries, horigin⟩ := h.moving o t' e' hst
    have ht : t' ≠ t := by
      rintro rfl
      cases hnone.symm.trans hcarries
    exact ⟨e1, by rw [update_of_ne ht, hcarries], horigin⟩

theorem renumber (hheld : held t = .taken e) (id : TimerId) :
    Carried st (update held t (.moved { e with id := id })) := by
  have hcarried : (held t).carries = some e := by rw [hheld]; rfl
  constructor
  · intro t' e1 hcarries
    obtain ⟨rfl, ⟨⟩⟩ | ⟨-, hcarries⟩ := of_update hcarries
    · obtain ⟨e', hst, heq⟩ := h.carries t' e hcarried
      exact ⟨e', hst, by rw [heq]⟩
    · exact h.carries t' e1 hcarries
  · intro o t' e' hst
    obtain ⟨e1, hcarries, horigin⟩ := h.moving o t' e' hst
    by_cases ht : t' = t
    · rw [ht, hcarried] at hcarries
      cases hcarries
      exact ⟨{ e with id := id }, by rw [ht, update_self]; rfl, horigin⟩
    · exact ⟨e1, by rw [update_of_ne ht, hcarries], horigin⟩

end Carried

namespace Numbered

variable (h : Numbered tr nextSeq held)
include h

theorem fetch (t : T) (h' : Held κ)
    (hnumber : h'.number = some nextSeq) (hfresh : ∀ e, h' = .fresh e → e.origin = e.id.seq) :
    Numbered tr (nextSeq + 1) (update held t h') := by
  have hnew : ∀ t' n, h'.number = some n → (held t').number ≠ some n := by
    intro t' n hn ho
    obtain rfl := some.inj (hnumber.symm.trans hn)
    exact Nat.lt_irrefl _ (h.number t' _ ho).1
  constructor
  · intro t' e he
    by_cases ht : t' = t
    · rw [ht, update_self] at he
      exact hfresh e he
    · rw [update_of_ne ht] at he
      exact h.fresh t' e he
  · intro t' n hn
    obtain ⟨-, hn⟩ | ⟨-, hn⟩ := of_update hn
    · obtain rfl := some.inj (hnumber.symm.trans hn)
      exact ⟨Nat.lt_succ_self _, h.unused _ (Nat.le_refl _)⟩
    · exact ⟨Nat.lt_succ_of_lt (h.number t' n hn).1, (h.number t' n hn).2⟩
  · intro t1 t2 n h1 h2
    obtain ⟨ht1, h1⟩ | ⟨-, h1⟩ := of_update h1 <;> obtain ⟨ht2, h2⟩ | ⟨-, h2⟩ := of_update h2
    · rw [ht1, ht2]
    · exact absurd h2 (hnew t2 n h1)
    · exact absurd h1 (hnew t1 n h2)
    · exact h.inj t1 t2 n h1 h2
  · exact fun n hn => h.unused n (Nat.le_of_succ_le hn)

theorem use (hnumber : (held t).number = some e.id.seq) (hev : ev.introduces = some e) :
    Numbered (ev :: tr) nextSeq (update held t .nothing) := by
  have hself : ∀ t' n, (update held t .nothing t').number = some n →
      t' ≠ t ∧ (held t').number = some n := by
    intro t' n hn
    obtain ⟨-, ⟨⟩⟩ | hn := of_update hn
    exact hn
  constructor
  · intro t' e' he'
    by_cases ht : t' = t
    · rw [ht, update_self] at he'
      cases he'
    · rw [update_of_ne ht] at he'
      exact h.fresh t' e' he'
  · intro t' n hn
    obtain ⟨ht, hn⟩ := hself t' n hn
    refine ⟨(h.number t' n hn).1, (h.number t' n hn).2.cons fun e' he' hseq => ?_⟩
    obtain rfl := some.inj (hev.symm.trans he')
    exact ht (h.inj t' t n hn (hseq ▸ hnumber))
  · intro t1 t2 n h1 h2
    exact h.inj t1 t2 n (hself t1 n h1).2 (hself t2 n h2).2
  · intro n hn
    refine (h.unused n hn).cons fun e' he' hseq => ?_
    obtain rfl := some.inj (hev.symm.trans he')
    exact absurd (h.number t _ hnumber).1 (by omega)

omit [DecidableEq T] in
theorem record (hev : ev.introduces = none) : Numbered (ev :: tr) nextSeq held := by
  have hcons : ∀ {n}, Unused tr n → Unused (ev :: tr) n :=
    fun hu => hu.cons fun e he => by cases hev.symm.trans he
  exact ⟨h.fresh, fun t n hn => ⟨(h.number t n hn).1, hcons (h.number t n hn).2⟩, h.inj,
    fun n hn => hcons (h.unused n hn)⟩

/-- A task has something without a number in its hands. -/
theorem drop (hnumber : h'.number = none) : Numbered tr nextSeq (update held t h') := by
  have hself : ∀ t' n, (update held t h' t').number = some n →
      (held t').number = some n := by
    intro t' n hn
    obtain ⟨-, hn⟩ | ⟨-, hn⟩ := of_update hn
    · cases hnumber.symm.trans hn
    · exact hn
  refine ⟨fun t' e' he' => ?_, fun t' n hn => h.number t' n (hself t' n hn),
    fun t1 t2 n h1 h2 => h.inj t1 t2 n (hself t1 n h1) (hself t2 n h2), h.unused⟩
  by_cases ht : t' = t
  · rw [ht, update_self] at he'
    rw [he'] at hnumber
    cases hnumber
  · rw [update_of_ne ht] at he'
    exact h.fresh t' e' he'

end Numbered

end Held

end Bedrock.Services
