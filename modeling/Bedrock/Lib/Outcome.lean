import Mathlib.Tactic

/-!
# Lib/Outcome — code that may fail and may panic

An error is a result; a panic is not.  The operations that panic are those of the machine: a number
that does not fit a word, a difference below zero, a division by zero, a place outside a list.

    Ensures p Q          `p` does not panic, and its value, if it has one, is one of the `Q`
    Yields p Q           the value of `p`, if it has one, is one of the `Q`

Both have a rule for each way in which code is put together, so that what one part checks is at hand
where the next part relies on it.
-/

namespace Bedrock

open List

/-- The end of a piece of code: with a value, with an error, or in the middle. -/
inductive Outcome (ε α : Type) : Type
  | ok (a : α)
  | err (e : ε)
  | panic
  deriving DecidableEq

namespace Outcome

variable {ε α β : Type}

def bind : Outcome ε α → (α → Outcome ε β) → Outcome ε β
  | ok a, f => f a
  | err e, _ => err e
  | panic, _ => panic

instance : Monad (Outcome ε) where
  pure := ok
  bind := bind

/-- An error if the condition holds. -/
def failIf (c : Prop) [Decidable c] (e : ε) : Outcome ε Unit := if c then err e else ok ()

def ofOption (e : ε) : Option α → Outcome ε α
  | some a => ok a
  | none => err e

/-- A number of the machine. -/
def word (n : ℕ) : Outcome ε ℕ := if n < 2 ^ 64 then ok n else panic

def sub (m n : ℕ) : Outcome ε ℕ := if n ≤ m then ok (m - n) else panic

def div (m n : ℕ) : Outcome ε ℕ := if n = 0 then panic else ok (m / n)

def index (l : List α) (i : ℕ) : Outcome ε α :=
  match l[i]? with
  | some a => ok a
  | none => panic

def setAt (l : List α) (i : ℕ) (a : α) : Outcome ε (List α) :=
  if i < l.length then ok (l.set i a) else panic

/-- The part of a list from one place up to another. -/
def slice (l : List α) (lo hi : ℕ) : Outcome ε (List α) :=
  if lo ≤ hi ∧ hi ≤ l.length then ok ((l.take hi).drop lo) else panic

@[simp] theorem pure_eq (a : α) : (pure a : Outcome ε α) = ok a := rfl

@[simp] theorem ok_bind (a : α) (f : α → Outcome ε β) : (ok a >>= f) = f a := rfl

@[simp] theorem err_bind (e : ε) (f : α → Outcome ε β) : (err e >>= f) = err e := rfl

@[simp] theorem panic_bind (f : α → Outcome ε β) : ((panic : Outcome ε α) >>= f) = panic := rfl

theorem bind_bind {γ : Type} (p : Outcome ε α) (f : α → Outcome ε β) (g : β → Outcome ε γ) :
    p >>= f >>= g = p >>= fun a => f a >>= g := by
  cases p <;> rfl

theorem failIf_pos {c : Prop} [Decidable c] (h : c) (e : ε) : failIf c e = err e := if_pos h

theorem failIf_neg {c : Prop} [Decidable c] (h : ¬ c) (e : ε) : failIf c e = ok () := if_neg h

theorem word_of_lt {n : ℕ} (h : n < 2 ^ 64) : (word n : Outcome ε ℕ) = ok n := if_pos h

theorem sub_of_le {m n : ℕ} (h : n ≤ m) : (sub m n : Outcome ε ℕ) = ok (m - n) := if_pos h

theorem div_of_ne {m n : ℕ} (h : n ≠ 0) : (div m n : Outcome ε ℕ) = ok (m / n) := if_neg h

theorem index_of_lt {l : List α} {i : ℕ} (h : i < l.length) :
    (index l i : Outcome ε α) = ok l[i] := by
  rw [index, getElem?_eq_getElem h]

theorem setAt_of_lt {l : List α} {i : ℕ} (h : i < l.length) (a : α) :
    (setAt l i a : Outcome ε (List α)) = ok (l.set i a) := if_pos h

theorem slice_of_le {l : List α} {lo hi : ℕ} (h : lo ≤ hi) (hl : hi ≤ l.length) :
    (slice l lo hi : Outcome ε (List α)) = ok ((l.take hi).drop lo) := if_pos ⟨h, hl⟩

/-! ## What is ensured -/

/-- No panic, and a value, if there is one, with the property. -/
def Ensures (p : Outcome ε α) (Q : α → Prop) : Prop :=
  match p with
  | ok a => Q a
  | err _ => True
  | panic => False

namespace Ensures

variable {p : Outcome ε α} {Q R : α → Prop}

theorem ne_panic (h : Ensures p Q) : p ≠ panic := by
  rintro rfl
  exact h

theorem of_ok {a : α} (h : Ensures p Q) (hp : p = ok a) : Q a := by
  subst hp
  exact h

theorem mono (h : Ensures p Q) (hQ : ∀ a, Q a → R a) : Ensures p R := by
  cases p with
  | ok a => exact hQ a h
  | err e => trivial
  | panic => exact h

theorem pure {a : α} (h : Q a) : Ensures (Pure.pure a : Outcome ε α) Q := h

theorem err (e : ε) : Ensures (Outcome.err e : Outcome ε α) Q := trivial

theorem bind {f : α → Outcome ε β} {Q : β → Prop} (hp : Ensures p R)
    (hf : ∀ a, R a → Ensures (f a) Q) : Ensures (p >>= f) Q := by
  cases p with
  | ok a => exact hf a hp
  | err e => trivial
  | panic => exact hp

variable {c : Prop} {n : ℕ} {l : List α}

theorem ite [Decidable c] {q : Outcome ε α} (hp : c → Ensures p Q)
    (hq : ¬ c → Ensures q Q) : Ensures (if c then p else q) Q := by
  split
  · exact hp ‹_›
  · exact hq ‹_›

theorem failIf [Decidable c] (e : ε) : Ensures (Outcome.failIf c e) fun _ => ¬ c := by
  by_cases h : c
  · rw [failIf_pos h]
    trivial
  · rw [failIf_neg h]
    exact h

/-- What follows a check runs only if the check passes. -/
theorem guard [Decidable c] {e : ε} {f : Unit → Outcome ε α}
    (hf : ¬ c → Ensures (f ()) Q) : Ensures (Outcome.failIf c e >>= f) Q :=
  (failIf e).bind fun _ => hf

theorem ofOption (e : ε) (o : Option α) : Ensures (Outcome.ofOption e o) fun a => o = some a := by
  cases o with
  | none => trivial
  | some a => rfl

theorem word (h : n < 2 ^ 64) : Ensures (Outcome.word n : Outcome ε ℕ) (· = n) := by
  rw [word_of_lt h]
  rfl

theorem sub {m : ℕ} (h : n ≤ m) : Ensures (Outcome.sub m n : Outcome ε ℕ) (· = m - n) := by
  rw [sub_of_le h]
  rfl

theorem div {m : ℕ} (h : n ≠ 0) : Ensures (Outcome.div m n : Outcome ε ℕ) (· = m / n) := by
  rw [div_of_ne h]
  rfl

theorem index {i : ℕ} (h : i < l.length) :
    Ensures (Outcome.index l i : Outcome ε α) fun a => a ∈ l := by
  rw [index_of_lt h]
  exact getElem_mem h

theorem setAt {i : ℕ} (h : i < l.length) (a : α) :
    Ensures (Outcome.setAt l i a : Outcome ε (List α)) (· = l.set i a) := by
  rw [setAt_of_lt h]
  rfl

theorem slice {lo hi : ℕ} (h : lo ≤ hi) (hl : hi ≤ l.length) :
    Ensures (Outcome.slice l lo hi : Outcome ε (List α))
      fun s => s = (l.take hi).drop lo ∧ s.length = hi - lo := by
  rw [slice_of_le h hl]
  exact ⟨rfl, by rw [length_drop, length_take, Nat.min_eq_left hl]⟩

/-- A loop keeps what each of its rounds keeps. -/
theorem foldlM {f : β → α → Outcome ε β} {I : β → Prop} : ∀ {l : List α} {b : β},
    (∀ b, ∀ a ∈ l, I b → Ensures (f b a) I) → I b → Ensures (l.foldlM f b) I
  | [], _, _, hb => hb
  | a :: l, b, hf, hb => by
    refine (hf b a mem_cons_self hb).bind fun b' hb' => ?_
    exact foldlM (fun b a ha => hf b a (mem_cons_of_mem _ ha)) hb'

end Ensures

/-! ## What a value has, if there is one -/

/-- The value, if there is one, has the property. -/
def Yields (p : Outcome ε α) (Q : α → Prop) : Prop := ∀ a, p = ok a → Q a

namespace Yields

variable {p : Outcome ε α} {Q R : α → Prop}

theorem of_true (p : Outcome ε α) : Yields p fun _ => True := fun _ _ => trivial

theorem pure {a : α} (h : Q a) : Yields (Pure.pure a : Outcome ε α) Q := by
  rintro _ ⟨⟩
  exact h

theorem err (e : ε) : Yields (Outcome.err e : Outcome ε α) Q := fun _ h => nomatch h

theorem bind {f : α → Outcome ε β} {Q : β → Prop} (hp : Yields p R)
    (hf : ∀ a, R a → Yields (f a) Q) : Yields (p >>= f) Q := by
  cases p with
  | ok a => exact hf a (hp a rfl)
  | err e => exact Yields.err e
  | panic => exact fun _ h => nomatch h

theorem ite {c : Prop} [Decidable c] {q : Outcome ε α} (hp : c → Yields p Q)
    (hq : ¬ c → Yields q Q) : Yields (if c then p else q) Q := by
  split
  · exact hp ‹_›
  · exact hq ‹_›

theorem failIf {c : Prop} [Decidable c] (e : ε) : Yields (Outcome.failIf c e) fun _ => ¬ c := by
  intro _ h hc
  rw [failIf_pos hc] at h
  cases h

theorem word (n : ℕ) : Yields (Outcome.word n : Outcome ε ℕ) (· = n) := by
  intro a h
  rw [Outcome.word] at h
  split at h
  · exact (Outcome.ok.inj h).symm
  · cases h

/-- A loop keeps what each of its rounds keeps. -/
theorem foldlM {f : β → α → Outcome ε β} {I : β → Prop} : ∀ {l : List α} {b : β},
    (∀ b, ∀ a ∈ l, I b → Yields (f b a) I) → I b → Yields (l.foldlM f b) I
  | [], _, _, hb => Yields.pure hb
  | a :: l, b, hf, hb => by
    refine (hf b a mem_cons_self hb).bind fun b' hb' => ?_
    exact foldlM (fun b a ha => hf b a (mem_cons_of_mem _ ha)) hb'

end Yields

end Outcome

end Bedrock
