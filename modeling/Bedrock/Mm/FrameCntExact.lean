import Bedrock.Mm.FrameCnt

/-!
# Mm/FrameCntExact — the counts are exact while an owner holds on

Everything the counters promise about one frame is a relation between a dozen numbers: its entry,
its owners, the calls in flight on it, its allocations and returns (`View`).  A step changes the
view of one frame, and by an amount that is plain arithmetic (`View.Ok`).

The one thing a step can do wrong is to let the last holder go while a share or an unshare of the
same frame is in flight: its exchange then runs on a frame that is already free.  `Clean` excludes
that, and `exact_of_clean` is the rest.
-/

namespace Bedrock

open List Option

namespace FrameCnt

/-! ## Counting calls -/

/-- How many calls in flight on `f` are at a position of the given kind. -/
def inFlight (s : State) (p : Pc → Bool) (f : ℕ) : ℕ :=
  s.calls.countP fun c => c.frame = f ∧ p c.pc = true

/-- **The owners of a frame**: those that hold it, and those whose release has not taken effect. -/
def owners (s : State) (f : ℕ) : ℕ := s.hold f + inFlight s Pc.releases f

/-- **Reference counting is exact.**  Two or more owners are counted exactly, one is an entry of 0
or 1; a frame is back in the allocator as often as it was allocated, once less while it is owned or
on the way back, and it goes back only after its last owner has gone. -/
structure Exact (s : State) : Prop where
  shared : ∀ f, 2 ≤ owners s f → s.counts.entry f = owners s f
  sole : ∀ f, owners s f = 1 → s.counts.entry f ≤ 1
  owned : ∀ f, 0 < owners s f → s.born f = s.freed f + 1 ∧ inFlight s Pc.frees f = 0
  returned : ∀ f, owners s f = 0 →
    s.born f = s.freed f + inFlight s Pc.frees f ∧ inFlight s Pc.frees f ≤ 1

variable {s s' : State} {f g : ℕ} {p : Pc → Bool} {c : Call}

/-- One call in flight is replaced by what it has become. -/
theorem countP_replace {q : Call → Bool} (hc : c ∈ s.calls) (next : List Call) :
    (next ++ s.calls.erase c).countP q + (if q c then 1 else 0) = s.calls.countP q + next.countP q
    := by
  have hperm := (perm_cons_erase hc).countP_eq q
  rw [countP_cons] at hperm
  rw [countP_append]
  omega

/-! ## The numbers of one frame -/

/-- Everything the counting says about one frame. -/
structure View where
  entry : ℕ
  hold : ℕ
  releasing : ℕ
  sharing : ℕ
  undoing : ℕ
  freeing : ℕ
  born : ℕ
  freed : ℕ
  used : ℕ
  built : ℕ
  inRange : ℕ

def view (s : State) (f : ℕ) : View where
  entry := s.counts.entry f
  hold := s.hold f
  releasing := inFlight s Pc.releases f
  sharing := inFlight s Pc.shares f
  undoing := inFlight s Pc.undoes f
  freeing := inFlight s Pc.frees f
  born := s.born f
  freed := s.freed f
  used := (s.used f).toNat
  built := s.counts.built.toNat
  inRange := (Nat.blt f s.counts.total).toNat

/-- **The invariant of one frame.** -/
structure View.Ok (v : View) : Prop where
  shared : 2 ≤ v.hold + v.releasing → v.entry = v.hold + v.releasing
  sole : v.hold + v.releasing = 1 → v.entry ≤ 1
  none : v.hold + v.releasing = 0 → v.entry = 0 ∧ v.used = v.freeing
  owned : 0 < v.hold + v.releasing → v.used = 1 ∧ v.freeing = 0 ∧ v.inRange = 1
  used_le : v.used ≤ 1
  born_eq : v.born = v.freed + v.used
  held : 0 < v.sharing + v.undoing → 1 ≤ v.hold
  unbuilt : v.built = 0 → v.hold + v.releasing ≤ 1 ∧ v.entry = 0

/-! …and the ways it can change. -/

namespace View.Ok

variable {v : View}

variable (h : v.Ok)
include h

theorem build : ({ v with built := 1 } : View).Ok :=
  ⟨h.shared, h.sole, h.none, h.owned, h.used_le, h.born_eq, h.held, fun hb => absurd hb one_ne_zero⟩

/-- A share takes effect: its frame is held, so the entry it exchanges counts that owner. -/
theorem share (hb : v.built = 1) (h1 : 1 ≤ v.sharing) (hlt : v.entry + 1 < 2 ^ 32) :
    ({ v with
      entry := Counts.bump v.entry, hold := v.hold + 1, sharing := v.sharing - 1 } : View).Ok := by
  obtain ⟨hsh, hso, hno, how, hul, hbe, hhe, hun⟩ := h
  have hbump : Counts.bump v.entry = if v.entry = 0 then 2 else v.entry + 1 := by
    unfold Counts.bump
    rw [Nat.mod_eq_of_lt hlt]
  rw [hbump]
  constructor <;> simp only <;> (try split) <;> omega

variable (h1 : 1 ≤ v.releasing)
include h1

/-- A counted reference is dropped; the one dropped from 1 was the last. -/
theorem drop (h0 : v.entry ≠ 0) : ({ v with
        entry := v.entry - 1
        releasing := v.releasing - 1
        freeing := v.freeing + if v.entry = 1 then 1 else 0 } : View).Ok := by
  obtain ⟨hsh, hso, hno, how, hul, hbe, hhe, hun⟩ := h
  constructor <;> simp only <;> (try split) <;> omega

/-- An untracked reference is dropped: it was the only one. -/
theorem dropUntracked (h0 : v.entry = 0) :
    ({ v with releasing := v.releasing - 1, freeing := v.freeing + 1 } : View).Ok := by
  obtain ⟨hsh, hso, hno, how, hul, hbe, hhe, hun⟩ := h
  constructor <;> simp only <;> omega

/-- While a share is being undone its frame has an owner besides it. -/
theorem two_le_entry (h2 : 1 ≤ v.undoing) : 2 ≤ v.entry := by
  have := h.held (by omega)
  have := h.shared (by omega)
  omega

theorem undo (h2 : 1 ≤ v.undoing) : ({ v with
        entry := v.entry - 1
        releasing := v.releasing - 1
        undoing := v.undoing - 1 } : View).Ok := by
  have := h.two_le_entry h1 h2
  obtain ⟨hsh, hso, hno, how, hul, hbe, hhe, hun⟩ := h
  constructor <;> simp only <;> omega

omit h1

theorem free (h1 : 1 ≤ v.freeing) :
    ({ v with freeing := v.freeing - 1, freed := v.freed + 1, used := 0 } : View).Ok := by
  obtain ⟨hsh, hso, hno, how, hul, hbe, hhe, hun⟩ := h
  constructor <;> simp only <;> omega

theorem normalize : ({ v with entry := if v.entry = 1 then 0 else v.entry } : View).Ok := by
  obtain ⟨hsh, hso, hno, how, hul, hbe, hhe, hun⟩ := h
  constructor <;> simp only <;> (try split) <;> omega

theorem alloc (hu : v.used = 0) (hr : v.inRange = 1) :
    ({ v with hold := v.hold + 1, used := 1, born := v.born + 1 } : View).Ok := by
  obtain ⟨hsh, hso, hno, how, hul, hbe, hhe, hun⟩ := h
  have hzero : v.hold + v.releasing = 0 := by omega
  constructor <;> simp only [true_and] <;> omega

theorem beginShare (hh : 1 ≤ v.hold) : ({ v with sharing := v.sharing + 1 } : View).Ok :=
  ⟨h.shared, h.sole, h.none, h.owned, h.used_le, h.born_eq, fun _ => hh, h.unbuilt⟩

/-- An owner begins to let go, and is not the last to hold on to a frame being shared. -/
theorem beginDecref (hh : 1 ≤ v.hold) (hlast : v.hold = 1 → v.sharing = 0 ∧ v.undoing = 0) :
    ({ v with hold := v.hold - 1, releasing := v.releasing + 1 } : View).Ok := by
  obtain ⟨hsh, hso, hno, how, hul, hbe, hhe, hun⟩ := h
  constructor <;> simp only <;> omega

/-- An unshare begins, and leaves an owner that holds. -/
theorem beginUnshare (hh : 2 ≤ v.hold) : ({ v with
        hold := v.hold - 1
        releasing := v.releasing + 1
        undoing := v.undoing + 1 } : View).Ok := by
  obtain ⟨hsh, hso, hno, how, hul, hbe, hhe, hun⟩ := h
  constructor <;> simp only <;> omega

end View.Ok

/-- What a position presupposes: a call past its slot has a table, and an exchange was prepared
from a value its function accepts. -/
def Pc.Ok (t : Counts) : Pc → Prop
  | .shareLoad | .shareCas _ | .decLoad | .unLoad => t.built = true
  | .decCas cur => t.built = true ∧ cur ≠ 0
  | .unCas cur => t.built = true ∧ 2 ≤ cur
  | _ => True

structure Inv (s : State) : Prop where
  frames : ∀ f, (view s f).Ok
  calls : ∀ c ∈ s.calls, c.pc.Ok s.counts

theorem Inv.exact (h : Inv s) : Exact s where
  shared f := (h.frames f).shared
  sole f := (h.frames f).sole
  owned f hf := by
    have hv := h.frames f
    have ho := hv.owned hf
    have hb := hv.born_eq
    simp only [view] at ho hb
    omega
  returned f hf := by
    have hv := h.frames f
    have hn := hv.none hf
    have hb := hv.born_eq
    have hu := hv.used_le
    simp only [view] at hn hb hu
    omega

theorem inv_init (total : ℕ) : Inv (State.init total) where
  frames f := by
    constructor <;> simp [view, State.init, inFlight]
  calls c hc := by simp [State.init] at hc

/-- A share about to be counted fits the `u32`. -/
def Pc.Fits : Pc → Prop
  | .shareCas cur => cur + 1 < 2 ^ 32
  | _ => True

instance : ∀ pc : Pc, Decidable pc.Fits
  | .shareCas cur => inferInstanceAs (Decidable (cur + 1 < 2 ^ 32))
  | .shareTable | .shareLoad | .decTable | .decLoad | .decCas _ | .decFree | .unTable | .unLoad
  | .unCas _ | .unNorm | .soleTable | .soleLoad | .privTable | .privCas => isTrue trivial

/-- The condition on a step: the last holder of a frame does not begin to let go while a share or
an unshare of it is in flight, and no share is counted past the `u32`. -/
def Clean (s : State) : Action → Prop
  | .decref f => s.hold f = 1 → inFlight s Pc.shares f = 0 ∧ inFlight s Pc.undoes f = 0
  | .advance c _ => c.pc.Fits
  | _ => True

instance (s : State) : ∀ a, Decidable (Clean s a)
  | .decref f => inferInstanceAs
      (Decidable (s.hold f = 1 → inFlight s Pc.shares f = 0 ∧ inFlight s Pc.undoes f = 0))
  | .advance c _ => inferInstanceAs (Decidable c.pc.Fits)
  | .alloc _ | .share _ | .unshare _ | .checkSole _ => isTrue trivial

/-! ## One access of one call -/

/-- What an access does to the views, before the call itself is moved on: the frame of the call
changes as said, and the others at most see the table being built. -/
theorem view_other {fail : Bool} {pc : Pc} (h : Inv s) (hc : c ∈ s.calls) (hne : g ≠ c.frame)
    (next : Option Pc) (hs : s' = { (advance s c.frame fail pc).1 with
      calls := (next.map (.mk c.frame)).toList ++ s.calls.erase c }) : (view s' g).Ok := by
  have hv := h.frames g
  have hcount : ∀ p, inFlight s' p g = inFlight s p g := by
    intro p
    have hrep := countP_replace (q := fun c => decide (c.frame = g ∧ p c.pc = true)) hc
      (next.map (.mk c.frame)).toList
    have hself : decide (c.frame = g ∧ p c.pc = true) = false := by
      simp [hne.symm]
    have hnext : ((next.map (Call.mk c.frame)).toList).countP
        (fun c => decide (c.frame = g ∧ p c.pc = true)) = 0 := by
      cases next <;> simp [hne.symm]
    rw [hnext, hself] at hrep
    subst hs
    simpa [inFlight] using hrep
  have hent : s'.counts.entry g = s.counts.entry g ∧ s'.hold g = s.hold g ∧ s'.born g = s.born g ∧
      s'.freed g = s.freed g ∧ s'.used g = s.used g ∧ s'.counts.total = s.counts.total ∧
      (s'.counts.built = s.counts.built ∨ s'.counts.built = true) := by
    have hb : s.counts.built = false → s.counts.entry g = 0 := fun hb =>
      (hv.unbuilt (by simp [view, hb])).2
    subst hs
    cases pc with
    | shareTable =>
      simp only [advance]
      split <;> simp [Counts.build_entry hb, hne]
    | shareCas cur | decCas cur | unCas cur => simp only [advance]; split <;> simp [hne]
    | _ => simp [advance, hne]
  obtain ⟨he, hh, hbo, hf, hu, ht, hbuilt⟩ := hent
  have hveq : view s' g = { view s g with built := s'.counts.built.toNat } := by
    simp only [view, hcount, he, hh, hbo, hf, hu, ht]
  rw [hveq]
  refine ⟨hv.shared, hv.sole, hv.none, hv.owned, hv.used_le, hv.born_eq, hv.held, fun hb => ?_⟩
  obtain hb' | hb' := hbuilt
  · exact hv.unbuilt (by simpa [view, hb'] using hb)
  · simp [hb'] at hb

theorem inFlight_pos {pc : Pc} (hc : (⟨f, pc⟩ : Call) ∈ s.calls) (hp : p pc = true) :
    1 ≤ inFlight s p f :=
  countP_pos_iff.mpr ⟨_, hc, by simp [hp]⟩

/-- The calls of each kind on the frame, once the call has moved on to `next`. -/
theorem inFlight_self (hc : c ∈ s.calls) (next : Option Pc) (p : Pc → Bool)
    (hs : s'.calls = (next.map (Call.mk c.frame)).toList ++ s.calls.erase c) :
    inFlight s' p c.frame + (p c.pc).toNat
      = inFlight s p c.frame + next.elim 0 fun pc => (p pc).toNat := by
  have hrep := countP_replace (q := fun d => decide (d.frame = c.frame ∧ p d.pc = true)) hc
    (next.map (.mk c.frame)).toList
  rw [← hs] at hrep
  unfold inFlight
  cases next with
  | none => cases hp : p c.pc <;> simpa [hp] using hrep
  | some pc => cases hp : p c.pc <;> cases hp' : p pc <;> simpa [hp, hp'] using hrep

/-- The numbers of the call's frame after an access, from what the access did to the state. -/
theorem view_eq {next : Option Pc} {pc : Pc} {t : State} (hc : (⟨f, pc⟩ : Call) ∈ s.calls)
    (hs : s' = { t with calls := (next.map (.mk f)).toList ++ s.calls.erase ⟨f, pc⟩ }) :
    view s' f = { view t f with
      releasing := inFlight s Pc.releases f - pc.releases.toNat +
        next.elim 0 fun q => q.releases.toNat
      sharing := inFlight s Pc.shares f - pc.shares.toNat + next.elim 0 fun q => q.shares.toNat
      undoing := inFlight s Pc.undoes f - pc.undoes.toNat + next.elim 0 fun q => q.undoes.toNat
      freeing := inFlight s Pc.frees f - pc.frees.toNat + next.elim 0 fun q => q.frees.toNat } := by
  have hcall : s'.calls = (next.map (Call.mk f)).toList ++ s.calls.erase ⟨f, pc⟩ := by rw [hs]
  have hpos : ∀ p : Pc → Bool, (p pc).toNat ≤ inFlight s p f := by
    intro p
    cases hp : p pc with
    | false => exact Nat.zero_le _
    | true => exact inFlight_pos hc hp
  have hcount : ∀ p : Pc → Bool, inFlight s' p f
      = inFlight s p f - (p pc).toNat + next.elim 0 fun q => (p q).toNat := by
    intro p
    have hself := inFlight_self hc next p hcall
    have := hpos p
    simp only at hself
    omega
  simp only [view, hcount]
  rw [hs]

/-- A call that stays of its kind leaves the numbers to the rest of the state. -/
theorem view_move {next : Option Pc} {pc : Pc} {t : State} (hc : (⟨f, pc⟩ : Call) ∈ s.calls)
    (ht : t.calls = s.calls)
    (hr : next.elim false Pc.releases = pc.releases) (hsh : next.elim false Pc.shares = pc.shares)
    (hu : next.elim false Pc.undoes = pc.undoes) (hf : next.elim false Pc.frees = pc.frees)
    (hs : s' = { t with calls := (next.map (.mk f)).toList ++ s.calls.erase ⟨f, pc⟩ }) :
    view s' f = view t f := by
  have hkeep : ∀ p : Pc → Bool, next.elim false p = p pc →
      inFlight s p f - (p pc).toNat + (next.elim 0 fun q => (p q).toNat) = inFlight t p f := by
    intro p hp
    have hn : (next.elim 0 fun q => (p q).toNat) = (next.elim false p).toNat := by
      cases next <;> rfl
    have hle : (p pc).toNat ≤ inFlight s p f := by
      cases hpc : p pc with
      | false => exact Nat.zero_le _
      | true => exact inFlight_pos hc hpc
    rw [hn, hp, Nat.sub_add_cancel hle]
    simp only [inFlight, ht]
  rw [view_eq hc hs]
  simp only [hkeep _ hr, hkeep _ hsh, hkeep _ hu, hkeep _ hf]
  rfl

section Access

variable {fail : Bool} {pc : Pc}

/-- An untracked reference is dropped at the access that finds the entry 0, or no table. -/
theorem view_decUntracked (h : Inv s) (hc : (⟨f, pc⟩ : Call) ∈ s.calls)
    (hpc : pc.releases = true) (hun : pc.undoes = false) (hsh : pc.shares = false)
    (hfr : pc.frees = false) (h0 : s.counts.entry f = 0) (hs : s' = { s with
      calls := ((some Pc.decFree).map (.mk f)).toList ++ s.calls.erase ⟨f, pc⟩ }) :
    (view s' f).Ok := by
  have := (h.frames f).dropUntracked (inFlight_pos hc hpc) h0
  rw [view_eq hc hs, hpc, hun, hsh, hfr]
  exact this

section Kinds

variable (h : Inv s) (hc : (⟨f, pc⟩ : Call) ∈ s.calls)
  (hs : s' = { (advance s f fail pc).1 with
    calls := ((advance s f fail pc).2.map (Call.mk f)).toList ++ s.calls.erase ⟨f, pc⟩ })
include h hc hs

theorem view_share (hpc : pc.shares = true) (hlt : pc.Fits) : (view s' f).Ok := by
  have hv := h.frames f
  have h1 : 1 ≤ (view s f).sharing := inFlight_pos hc hpc
  have hhold := hv.held (by omega)
  have hok := h.calls _ hc
  cases pc with
  | shareTable =>
    have hr : f < s.counts.total := by
      have := (hv.owned (by omega)).2.2
      simpa [view] using this
    have hent := s.counts.build_entry (f := f) fun hb => (hv.unbuilt (by simp [view, hb])).2
    simp only [advance, if_pos hr] at hs
    rw [view_move (t := { s with counts := s.counts.build }) hc rfl rfl rfl rfl rfl hs]
    have heq : view { s with counts := s.counts.build } f = { view s f with built := 1 } := by
      simp [view, hent, inFlight]
    rw [heq]
    exact hv.build
  | shareLoad =>
    rw [view_move hc rfl rfl rfl rfl rfl hs]
    exact hv
  | shareCas cur =>
    simp only [advance] at hs
    split at hs
    · rename_i hcas
      have hb : (view s f).built = 1 := by
        have : s.counts.built = true := hok
        simp [view, this]
      have := hv.share hb h1 (by simpa [view, hcas.2, Pc.Fits] using hlt)
      rw [view_eq hc hs]
      simpa [view, hcas.2, Pc.releases, Pc.shares, Pc.undoes, Pc.frees] using this
    · rw [view_move hc rfl rfl rfl rfl rfl hs]
      exact hv
  | _ => simp [Pc.shares] at hpc

/-- An access of `decref_or_free` before its reference is dropped. -/
theorem view_decref (hpc : pc.releases = true) (hun : pc.undoes = false) : (view s' f).Ok := by
  have hv := h.frames f
  have h1 : 1 ≤ (view s f).releasing := inFlight_pos hc hpc
  have hok := h.calls _ hc
  cases pc with
  | decTable =>
    simp only [advance] at hs
    split at hs
    · rename_i hslot
      refine view_decUntracked h hc hpc hun rfl rfl ?_ hs
      have hr := (hv.owned (by omega)).2.2
      have hb : s.counts.built = false := by
        by_contra hb
        simp only [Bool.not_eq_false] at hb
        have : f < s.counts.total := by simpa [view] using hr
        simp [Counts.slot, hb, this] at hslot
      exact (hv.unbuilt (by simp [view, hb])).2
    · rw [view_move hc rfl rfl rfl rfl rfl hs]
      exact hv
  | decLoad =>
    simp only [advance, decTry] at hs
    split at hs
    · rename_i h0
      exact view_decUntracked h hc hpc hun rfl rfl h0 hs
    · rw [view_move hc rfl rfl rfl rfl rfl hs]
      exact hv
  | decCas cur =>
    simp only [advance, decTry] at hs
    split at hs
    · rename_i hcas
      have hdrop := hv.drop h1 (by have := hok.2; simpa [view, hcas.2] using this)
      rw [view_eq hc hs]
      by_cases hcur : cur = 1 <;>
        simpa [view, hcas.2, hcur, Pc.releases, Pc.shares, Pc.undoes, Pc.frees] using hdrop
    · split at hs
      · rename_i h0
        exact view_decUntracked h hc hpc hun rfl rfl h0 hs
      · rw [view_move hc rfl rfl rfl rfl rfl hs]
        exact hv
  | _ => simp [Pc.releases, Pc.undoes] at hpc hun

/-- An access of `unshare` before its share is dropped: it always finds one to drop. -/
theorem view_unshare (hpc : pc.undoes = true) : (view s' f).Ok := by
  have hv := h.frames f
  have hrel : pc.releases = true := by cases pc <;> simp_all [Pc.releases, Pc.undoes]
  have h1 : 1 ≤ (view s f).releasing := inFlight_pos hc hrel
  have h2 : 1 ≤ (view s f).undoing := inFlight_pos hc hpc
  have hge : 2 ≤ s.counts.entry f := hv.two_le_entry h1 h2
  cases pc with
  | unTable =>
    have hslot : s.counts.slot f ≠ none := by
      have hr : f < s.counts.total := by
        have := (hv.owned (by omega)).2.2
        simpa [view] using this
      have hb : s.counts.built = true := by
        by_contra hb
        have := (hv.unbuilt (by simp [view, hb])).2
        simp only [view] at this
        omega
      simp [Counts.slot, hb, hr]
    simp only [advance, if_neg hslot] at hs
    rw [view_move hc rfl rfl rfl rfl rfl hs]
    exact hv
  | unLoad =>
    simp only [advance, unTry, if_pos hge] at hs
    rw [view_move hc rfl rfl rfl rfl rfl hs]
    exact hv
  | unCas cur =>
    simp only [advance, unTry, if_pos hge] at hs
    split at hs
    · rename_i hcas
      have hundo := hv.undo h1 h2
      rw [view_eq hc hs]
      by_cases hcur : cur = 2 <;>
        simpa [view, hcas.2, hcur, Pc.releases, Pc.shares, Pc.undoes, Pc.frees] using hundo
    · rw [view_move hc rfl rfl rfl rfl rfl hs]
      exact hv
  | _ => simp [Pc.undoes] at hpc

/-- Any other access: a return to the allocator, a normalisation, or none of the counting's. -/
theorem view_rest (hsh : pc.shares = false) (hrel : pc.releases = false) : (view s' f).Ok := by
  have hv := h.frames f
  have hnorm : view { s with counts := s.counts.normalize f } f
      = { view s f with entry := if (view s f).entry = 1 then 0 else (view s f).entry } := by
    simp [view, inFlight, Counts.normalize_entry_self]
  cases pc with
  | decFree =>
    have hfree := hv.free (inFlight_pos hc rfl)
    rw [view_eq hc hs]
    simpa [advance, view, Pc.releases, Pc.shares, Pc.undoes, Pc.frees] using hfree
  | unNorm | privCas =>
    rw [view_move (t := { s with counts := s.counts.normalize f }) hc rfl rfl rfl rfl rfl hs, hnorm]
    exact hv.normalize
  | soleTable | soleLoad | privTable =>
    simp only [advance] at hs
    split at hs <;> (rw [view_move hc rfl rfl rfl rfl rfl hs]; exact hv)
  | shareTable | shareLoad | shareCas cur => simp [Pc.shares] at hsh
  | decTable | decLoad | decCas cur => simp [Pc.releases] at hrel
  | unTable | unLoad | unCas cur => simp [Pc.releases, Pc.undoes] at hrel

end Kinds

theorem Pc.Ok.mono {t t' : Counts} (h : pc.Ok t) (hb : t.built = true → t'.built = true) :
    pc.Ok t' := by
  cases pc <;> simp_all [Pc.Ok]

theorem slot_built {t : Counts} (h : ¬ t.slot f = none) : t.built = true := by
  by_contra hb
  simp [Counts.slot, hb] at h

/-- Where an access leaves its call is a good position again. -/
theorem pcOk_advance {next : Pc} (hok : pc.Ok s.counts)
    (hn : (advance s f fail pc).2 = some next) : next.Ok (advance s f fail pc).1.counts := by
  have hdec : ∀ c, s.counts.built = true → (decTry c).Ok s.counts := by
    intro c hb
    unfold decTry
    split
    · trivial
    · exact ⟨hb, ‹_›⟩
  have hundo : ∀ c q, s.counts.built = true → unTry c = some q → q.Ok s.counts := by
    intro c q hb hq
    unfold unTry at hq
    split at hq
    · cases hq
      exact ⟨hb, ‹_›⟩
    · cases hq
  cases pc with
  | shareTable =>
    simp only [advance] at hn ⊢
    split at hn
    · rename_i hr
      cases hn
      rw [if_pos hr]
      exact Counts.build_built
    · cases hn
  | shareLoad => obtain rfl := some.inj hn; exact hok
  | shareCas cur =>
    simp only [advance] at hn ⊢
    split_ifs at hn with hcas
    cases hn
    rw [if_neg hcas]
    exact hok
  | decTable =>
    simp only [advance, some.injEq] at hn
    subst hn
    split
    · trivial
    · exact slot_built ‹_›
  | decLoad => obtain rfl := some.inj hn; exact hdec _ hok
  | decCas cur =>
    simp only [advance] at hn ⊢
    split at hn
    · rename_i hcas
      rw [if_pos hcas]
      split at hn
      · obtain rfl := some.inj hn; trivial
      · cases hn
    · rename_i hcas
      cases hn
      rw [if_neg hcas]
      exact hdec _ hok.1
  | unTable =>
    simp only [advance] at hn
    split_ifs at hn
    · obtain rfl := some.inj hn; exact slot_built ‹_›
  | unLoad => exact hundo _ _ hok hn
  | unCas cur =>
    simp only [advance] at hn ⊢
    split at hn
    · rename_i hcas
      rw [if_pos hcas]
      split at hn
      · obtain rfl := some.inj hn; trivial
      · cases hn
    · rename_i hcas
      rw [if_neg hcas]
      exact hundo _ _ hok.1 hn
  | soleTable =>
    simp only [advance, some.injEq] at hn
    subst hn
    split <;> trivial
  | soleLoad =>
    simp only [advance] at hn
    split at hn
    · obtain rfl := some.inj hn; trivial
    · cases hn
  | privTable =>
    simp only [advance] at hn
    split_ifs at hn
    · obtain rfl := some.inj hn; trivial
  | decFree | unNorm | privCas => cases hn

theorem advance_built (hb : s.counts.built = true) :
    (advance s f fail pc).1.counts.built = true := by
  cases pc <;> simp only [advance] <;> (try split) <;> simp [hb]

end Access

theorem Inv.advance {fail : Bool} (h : Inv s) (hc : c ∈ s.calls)
    (hclean : Clean s (.advance c fail)) (hs : s' = { (FrameCnt.advance s c.frame fail c.pc).1 with
      calls := ((FrameCnt.advance s c.frame fail c.pc).2.map (Call.mk c.frame)).toList ++
        s.calls.erase c }) : Inv s' := by
  refine ⟨fun g => ?_, fun d hd => ?_⟩
  · obtain rfl | hne := eq_or_ne g c.frame
    · obtain ⟨f, pc⟩ := c
      cases hsh : pc.shares with
      | true => exact view_share h hc hs hsh hclean
      | false =>
        cases hrel : pc.releases with
        | false => exact view_rest h hc hs hsh hrel
        | true =>
          cases hun : pc.undoes with
          | false => exact view_decref h hc hs hrel hun
          | true => exact view_unshare h hc hs hun
    · exact view_other h hc hne _ hs
  · have hcounts : s'.counts = (FrameCnt.advance s c.frame fail c.pc).1.counts := by rw [hs]
    rw [hcounts]
    rw [hs] at hd
    obtain hd | hd := mem_append.mp hd
    · obtain ⟨next, hn, rfl⟩ : ∃ next, (FrameCnt.advance s c.frame fail c.pc).2 = some next ∧
          d = ⟨c.frame, next⟩ := by
        cases hn : (FrameCnt.advance s c.frame fail c.pc).2 with
        | none => simp [hn] at hd
        | some next => exact ⟨next, rfl, by simpa [hn] using hd⟩
      exact pcOk_advance (h.calls c hc) hn
    · exact (h.calls d (mem_of_mem_erase hd)).mono advance_built

/-! ## Every clean step -/

theorem view_begin {pc : Pc} {hold : ℕ → ℕ} (hh : ∀ g, g ≠ f → hold g = s.hold g) :
    (∀ g, g ≠ f → view { s with hold := hold, calls := ⟨f, pc⟩ :: s.calls } g = view s g) ∧
    view { s with hold := hold, calls := ⟨f, pc⟩ :: s.calls } f = { view s f with
      hold := hold f
      releasing := inFlight s Pc.releases f + pc.releases.toNat
      sharing := inFlight s Pc.shares f + pc.shares.toNat
      undoing := inFlight s Pc.undoes f + pc.undoes.toNat
      freeing := inFlight s Pc.frees f + pc.frees.toNat } := by
  refine ⟨fun g hg => ?_, ?_⟩
  · simp [view, inFlight, hh g hg, hg.symm]
  · simp only [view, inFlight, countP_cons, true_and, decide_eq_true_eq]
    cases pc.releases <;> cases pc.shares <;> cases pc.undoes <;> cases pc.frees <;> rfl

theorem Inv.begin {pc : Pc} {hold : ℕ → ℕ} (h : Inv s) (hh : ∀ g, g ≠ f → hold g = s.hold g)
    (hpc : pc.Ok s.counts)
    (hok : (view { s with hold := hold, calls := ⟨f, pc⟩ :: s.calls } f).Ok) :
    Inv { s with hold := hold, calls := ⟨f, pc⟩ :: s.calls } := by
  refine ⟨fun g => ?_, fun d hd => ?_⟩
  · obtain rfl | hne := eq_or_ne g f
    · exact hok
    · rw [(view_begin hh).1 g hne]
      exact h.frames g
  · obtain rfl | hd := mem_cons.mp hd
    · exact hpc
    · exact h.calls d hd

/-- **A clean step keeps the invariant.** -/
theorem step_inv {a : Action} (h : Inv s) (hclean : Clean s a) (hstep : step s a = some s') :
    Inv s' := by
  have hupd : ∀ f g, g ≠ f → Function.update s.hold f (s.hold f - 1) g = s.hold g :=
    fun f g hg => Function.update_of_ne hg _ _
  cases a with
    (simp only [step, ite_none_right_eq_some, some.injEq] at hstep; obtain ⟨hh, rfl⟩ := hstep)
  | alloc f =>
    obtain ⟨hr, hu⟩ := hh
    refine ⟨fun g => ?_, h.calls⟩
    obtain rfl | hne := eq_or_ne g f
    · have := (h.frames g).alloc (by simp [view, hu]) (by simp [view, hr])
      simpa [view, inFlight] using this
    · have := h.frames g
      simpa [view, inFlight, hne] using this
  | share f =>
    refine h.begin (fun _ _ => rfl) trivial ?_
    rw [(view_begin fun _ _ => rfl).2]
    exact (h.frames f).beginShare hh
  | decref f =>
    refine h.begin (hupd f) trivial ?_
    rw [(view_begin (hupd f)).2, Function.update_self]
    exact (h.frames f).beginDecref hh hclean
  | unshare f =>
    refine h.begin (hupd f) trivial ?_
    rw [(view_begin (hupd f)).2, Function.update_self]
    exact (h.frames f).beginUnshare hh
  | checkSole f =>
    refine h.begin (fun _ _ => rfl) trivial ?_
    rw [(view_begin fun _ _ => rfl).2]
    exact h.frames f
  | advance c fail => exact h.advance hh hclean rfl

/-- **In a run of clean steps reference counting is exact.** -/
theorem exact_of_clean (total : ℕ) (as : List Action) (s : State)
    (hclean : RunMeets step Clean (State.init total) as)
    (hrun : run step (State.init total) as = some s) : Exact s :=
  (run_invariant Inv (fun _ _ _ h hc hs => step_inv h hc hs) as (inv_init total) hclean
    hrun).exact

/-- Frame 1 is allocated, shared, and given up by both of its owners. -/
def shareAndDrop : List Action :=
  [.alloc 1, .share 1, .advance ⟨1, .shareTable⟩ false, .advance ⟨1, .shareLoad⟩ false,
    .advance ⟨1, .shareCas 0⟩ false, .decref 1, .advance ⟨1, .decTable⟩ false,
    .advance ⟨1, .decLoad⟩ false, .advance ⟨1, .decCas 2⟩ true, .advance ⟨1, .decCas 2⟩ false,
    .decref 1, .advance ⟨1, .decTable⟩ false, .advance ⟨1, .decLoad⟩ false,
    .advance ⟨1, .decCas 1⟩ false, .advance ⟨1, .decFree⟩ false]

/-- That run is clean, its frame was returned once, and its counts are exact. -/
theorem shareAndDrop_exact : RunMeets step Clean (State.init 2) shareAndDrop ∧
    ∃ s, run step (State.init 2) shareAndDrop = some s ∧ s.freed 1 = 1 ∧ Exact s := by
  have hclean : RunMeets step Clean (.init 2) shareAndDrop := by decide +kernel
  refine ⟨hclean, exists_of_any (fun s => s.freed 1 = 1) (by decide +kernel) fun s hs hfreed => ?_⟩
  exact ⟨hfreed, exact_of_clean 2 shareAndDrop s hclean hs⟩

/-- Frame 1's only owner lets go between a share's load and its exchange. -/
def shareFreed : List Action :=
  [.alloc 1, .share 1, .advance ⟨1, .shareTable⟩ false, .advance ⟨1, .shareLoad⟩ false,
    .decref 1, .advance ⟨1, .decTable⟩ false, .advance ⟨1, .decLoad⟩ false,
    .advance ⟨1, .decFree⟩ false, .advance ⟨1, .shareCas 0⟩ false]

/-- The exchange `0 → 2` succeeds on the frame just freed: one owner, an entry of 2. -/
theorem shareFreed_not_exact : ∃ s, run step (State.init 2) shareFreed = some s ∧ ¬ Exact s := by
  refine exists_of_any (fun s => owners s 1 = 1 ∧ s.counts.entry 1 = 2) (by decide +kernel)
    fun s _ hbad hex => ?_
  have := hex.sole 1 hbad.1
  omega

end FrameCnt

end Bedrock
