import Mathlib.Tactic
import Bedrock.Lib.Run

/-!
# Input/Queue — the queue of input events

Positions `head` and `tail` grow without bound; position `x` is slot `x % 256` in round `x / 256`.
Any number of producers claim positions by a compare-and-swap of `head`, one consumer takes them in
order, and each slot counts its half-rounds.

    tail ≤ x < head      claimed, then written and published       2·round  →  2·round + 1
    x < tail             read and released                         2·round + 2

Each load, store and swap is a step of its own, and the steps of all threads interleave at will.
A producer reads `head` before `tail`: if the consumer has gone past the head it has read, the
difference wraps and the queue looks full (`NotOvertaken`).
-/

namespace Bedrock.Input

open Function List Option

def CAPACITY : ℕ := 256

/-- `wrapping_sub` on words. -/
def wrappingSub (a b : ℕ) : ℕ := (a + 2 ^ 64 - b) % 2 ^ 64

/-- Where a producer is in `push`: what it will do next. -/
inductive Producer (α : Type)
  | idle
  | loadHead (ev : α)
  | loadTail (ev : α) (head : ℕ)
  | swap (ev : α) (head : ℕ)
  | spin (ev : α) (pos : ℕ)
  | write (ev : α) (pos : ℕ)
  | publish (ev : α) (pos : ℕ)

/-- Where the consumer is in `pop`. -/
inductive Consumer (α : Type)
  | idle
  | loadHead (tail : ℕ)
  | spin (tail : ℕ)
  | read (tail : ℕ)
  | release (tail : ℕ) (ev : α)
  | advance (tail : ℕ) (ev : α)

/-- The queue and its users.  Three fields keep a record: the events claimed and popped, each in
order, and for each push that was refused how many positions were claimed and not popped. -/
structure State (P α : Type) where
  seq : ℕ → ℕ
  event : ℕ → α
  head : ℕ
  tail : ℕ
  producer : P → Producer α
  consumer : Consumer α
  claimed : List α
  popped : List α
  refused : List ℕ

/-- One step of a thread.  A swap may fail for no reason. -/
inductive Act (P α : Type)
  | push (p : P) (ev : α)
  | step (p : P)
  | fail (p : P)
  | pop

section Step

variable {P α : Type} [DecidableEq P]

/-- `InputQueue::new`. -/
def init (zero : α) : State P α :=
  ⟨fun _ => 0, fun _ => zero, 0, 0, fun _ => .idle, .idle, [], [], []⟩

def State.setProducer (s : State P α) (p : P) (c : Producer α) : State P α := {
  s with producer := update s.producer p c }

/-- The next step of a producer in `push`. -/
def State.stepProducer (s : State P α) (p : P) : Option (State P α) :=
  match s.producer p with
  | .idle => none
  | .loadHead ev => some (s.setProducer p (.loadTail ev s.head))
  | .loadTail ev head =>
    if CAPACITY ≤ wrappingSub head s.tail then
      some { s.setProducer p .idle with refused := s.refused ++ [s.head - s.tail] }
    else some (s.setProducer p (.swap ev head))
  | .swap ev head =>
    -- `head + 1` is computed whether the swap succeeds or not
    if 2 ^ 64 ≤ head + 1 then none
    else if s.head = head then
      some { s.setProducer p (.spin ev head) with
        head := head + 1, claimed := s.claimed ++ [ev] }
    else some (s.setProducer p (.loadHead ev))
  | .spin ev pos =>
    if s.seq (pos % CAPACITY) = 2 * (pos / CAPACITY) then some (s.setProducer p (.write ev pos))
    else some s
  | .write ev pos =>
    some { s.setProducer p (.publish ev pos) with
      event := update s.event (pos % CAPACITY) ev }
  | .publish _ pos =>
    some { s.setProducer p .idle with
      seq := update s.seq (pos % CAPACITY) (2 * (pos / CAPACITY) + 1) }

/-- The next step of the consumer; `pop` returns none if the queue is empty. -/
def State.stepConsumer (s : State P α) : State P α :=
  match s.consumer with
  | .idle => { s with consumer := .loadHead s.tail }
  | .loadHead tail =>
    if tail = s.head then { s with consumer := .idle } else { s with consumer := .spin tail }
  | .spin tail =>
    if s.seq (tail % CAPACITY) = 2 * (tail / CAPACITY) + 1 then { s with consumer := .read tail }
    else s
  | .read tail => { s with consumer := .release tail (s.event (tail % CAPACITY)) }
  | .release tail ev =>
    { s with
      seq := update s.seq (tail % CAPACITY) (2 * (tail / CAPACITY) + 2)
      consumer := .advance tail ev }
  | .advance tail ev => {
    s with tail := tail + 1, consumer := .idle, popped := s.popped ++ [ev] }

/-- One step of the system. -/
def step (s : State P α) : Act P α → Option (State P α)
  | .push p ev =>
    match s.producer p with
    | .idle => some (s.setProducer p (.loadHead ev))
    | _ => none
  | .step p => s.stepProducer p
  | .fail p =>
    match s.producer p with
    | .swap ev head => if 2 ^ 64 ≤ head + 1 then none else some (s.setProducer p (.loadHead ev))
    | _ => none
  | .pop => some s.stepConsumer

/-- The position and the event of a producer between its swap and the end of `push`. -/
def Producer.owns : Producer α → Option (ℕ × α)
  | spin ev pos => some (pos, ev)
  | write ev pos => some (pos, ev)
  | publish ev pos => some (pos, ev)
  | _ => none

/-- A producer is still at work on the position. -/
def State.Owned (s : State P α) (x : ℕ) : Prop := ∃ p ev, (s.producer p).owns = some (x, ev)

/-- The consumer has read the event at the position, and not yet moved on. -/
def Consumer.HasRead (c : Consumer α) (x : ℕ) : Prop :=
  ∃ ev, c = .release x ev ∨ c = .advance x ev

/-- The position has been published and not been read. -/
def State.Unread (s : State P α) (x : ℕ) : Prop :=
  s.tail ≤ x ∧ x < s.head ∧ ¬ s.Owned x ∧ ¬ s.consumer.HasRead x

end Step

/-! ## The invariant -/

section Inv

variable {P α : Type} {s s' : State P α} {p : P} {x y t : ℕ} {ev : α}

/-- What is so at each stage of `pop`. -/
def State.ConsumerOk (s : State P α) : Consumer α → Prop
  | .idle => True
  | .loadHead t => t = s.tail
  | .spin t => t = s.tail ∧ t < s.head
  | .read t => t = s.tail ∧ t < s.head ∧ ¬ s.Owned t
  | .release t ev => t = s.tail ∧ t < s.head ∧ ¬ s.Owned t ∧ s.claimed[t]? = some ev
  | .advance t ev => t = s.tail ∧ t < s.head ∧ ¬ s.Owned t ∧ s.claimed[t]? = some ev ∧
      s.seq (t % CAPACITY) = 2 * (t / CAPACITY) + 2

/-- The steps of producers leave the consumer where it may be. -/
theorem State.ConsumerOk.transfer {c : Consumer α} (h : s.ConsumerOk c) (ht : s'.tail = s.tail)
    (hh : s.head ≤ s'.head) (ho : ¬ s.Owned s.tail → s.tail < s.head → ¬ s'.Owned s.tail ∧
      s'.claimed[s.tail]? = s.claimed[s.tail]? ∧
      s'.seq (s.tail % CAPACITY) = s.seq (s.tail % CAPACITY)) : s'.ConsumerOk c := by
  cases c with
  | idle => trivial
  | loadHead t => exact h.trans ht.symm
  | spin t => exact ⟨h.1.trans ht.symm, lt_of_lt_of_le h.2 hh⟩
  | read t =>
    obtain ⟨rfl, hlt, hno⟩ := h
    exact ⟨ht.symm, lt_of_lt_of_le hlt hh, (ho hno hlt).1⟩
  | release t ev =>
    obtain ⟨rfl, hlt, hno, hev⟩ := h
    obtain ⟨hno', hcl, -⟩ := ho hno hlt
    exact ⟨ht.symm, lt_of_lt_of_le hlt hh, hno', hcl.trans hev⟩
  | advance t ev =>
    obtain ⟨rfl, hlt, hno, hev, hseq⟩ := h
    obtain ⟨hno', hcl, hseq'⟩ := ho hno hlt
    exact ⟨ht.symm, lt_of_lt_of_le hlt hh, hno', hcl.trans hev, hseq'.trans hseq⟩

/-- Each position of the window from `tail` on has the count of its stage, and the slot of a
published one has its event. -/
structure Inv (s : State P α) : Prop where
  length_claimed : s.claimed.length = s.head
  le : s.tail ≤ s.head
  room : s.head ≤ s.tail + CAPACITY
  bound : s.head < 2 ^ 64
  popped : s.popped = s.claimed.take s.tail
  loaded : ∀ p ev h, s.producer p = .loadTail ev h → h ≤ s.head
  checked : ∀ p ev h, s.producer p = .swap ev h → h < s.tail + CAPACITY
  owned : ∀ p x ev, (s.producer p).owns = some (x, ev) → s.tail ≤ x ∧ x < s.head ∧
    s.claimed[x]? = some ev ∧ s.seq (x % CAPACITY) = 2 * (x / CAPACITY)
  written : ∀ p x ev, s.producer p = .publish ev x → s.event (x % CAPACITY) = ev
  one_owner : ∀ p q x ev ev', (s.producer p).owns = some (x, ev) →
    (s.producer q).owns = some (x, ev') → p = q
  published : ∀ x, s.tail ≤ x → x < s.head → ¬ s.Owned x → (∀ ev, s.consumer ≠ .advance x ev) →
    s.seq (x % CAPACITY) = 2 * (x / CAPACITY) + 1 ∧ s.claimed[x]? = some (s.event (x % CAPACITY))
  free : ∀ x, s.head ≤ x → x < s.tail + CAPACITY → s.seq (x % CAPACITY) = 2 * (x / CAPACITY)
  consumer : s.ConsumerOk s.consumer

/-- Different positions of one window have different slots. -/
theorem slot_ne (hx : t ≤ x) (hx' : x < t + CAPACITY) (hy : t ≤ y) (hy' : y < t + CAPACITY)
    (h : x ≠ y) : x % CAPACITY ≠ y % CAPACITY := by
  rw [CAPACITY] at *
  omega

theorem slot_add (x : ℕ) : (x + CAPACITY) % CAPACITY = x % CAPACITY ∧
    (x + CAPACITY) / CAPACITY = x / CAPACITY + 1 := by
  rw [CAPACITY]
  omega

theorem inv_init (zero : α) : Inv (init zero : State P α) where
  length_claimed := rfl
  le := le_rfl
  room := Nat.zero_le _
  bound := Nat.two_pow_pos 64
  popped := rfl
  loaded := nofun
  checked := nofun
  owned := nofun
  written := nofun
  one_owner := nofun
  published x _ h := absurd h (Nat.not_lt_zero x)
  free x _ h := by
    have hx : x < CAPACITY := by simpa [init] using h
    simp [init, Nat.div_eq_of_lt hx]
  consumer := trivial

variable (h : Inv s)
include h

/-- No other position of the window has the slot of an owned one. -/
theorem Inv.owned_slot_ne (hx : s.Owned x) (hy : s.tail ≤ y)
    (hy' : y < s.tail + CAPACITY) (hne : y ≠ x) : y % CAPACITY ≠ x % CAPACITY := by
  obtain ⟨p, ev, hp⟩ := hx
  obtain ⟨h1, h2, -⟩ := h.owned p x ev hp
  exact slot_ne hy hy' h1 (lt_of_lt_of_le h2 h.room) hne

/-! ### The consumer -/

theorem Inv.setConsumer {c : Consumer α} (hc : s.ConsumerOk c)
    (hadv : ∀ t ev, s.consumer ≠ .advance t ev) : Inv { s with consumer := c } := { h with
    published := fun x hx hx' ho _ => h.published x hx hx' ho (hadv x)
    consumer := by cases c <;> exact hc }

theorem Inv.release (hc : s.consumer = .release t ev) : Inv { s with
      seq := update s.seq (t % CAPACITY) (2 * (t / CAPACITY) + 2)
      consumer := .advance t ev } := by
  have hcons := h.consumer
  rw [hc] at hcons
  obtain ⟨ht, hlt, hno, hev⟩ := hcons
  have hroom := h.room
  have hseq : ∀ {y : ℕ}, s.tail ≤ y → y < s.tail + CAPACITY → y ≠ t →
      update s.seq (t % CAPACITY) (2 * (t / CAPACITY) + 2) (y % CAPACITY) =
        s.seq (y % CAPACITY) := fun hy hy' hne =>
    update_of_ne (slot_ne hy hy' (by omega) (by omega) hne) _ _
  exact { h with
    owned := by
      intro q y ev' hq
      obtain ⟨h1, h2, h3, h4⟩ := h.owned q y ev' hq
      have hne : y ≠ t := by
        rintro rfl
        exact hno ⟨q, ev', hq⟩
      exact ⟨h1, h2, h3, (hseq h1 (by omega) hne).trans h4⟩
    published := by
      intro y hy hy' ho hadv
      have hne : y ≠ t := by
        rintro rfl
        exact hadv ev rfl
      obtain ⟨hs, hevy⟩ := h.published y hy hy' ho (hc ▸ nofun)
      exact ⟨(hseq hy (lt_of_lt_of_le hy' hroom) hne).trans hs, hevy⟩
    free := fun y hy hy' => by
      have : s.head ≤ y := hy
      exact (hseq (le_trans h.le hy) hy' (by omega)).trans (h.free y hy hy')
    consumer := ⟨ht, hlt, hno, hev, update_self _ _ _⟩ }

/-- The tail moves on: the event is popped, and the slot is free for the next round. -/
theorem Inv.advance (hc : s.consumer = .advance t ev) :
    Inv { s with tail := t + 1, consumer := .idle, popped := s.popped ++ [ev] } := by
  have hcons := h.consumer
  rw [hc] at hcons
  obtain ⟨ht, hlt, hno, hev, hseq⟩ := hcons
  have hroom := h.room
  exact { h with
    le := hlt
    room := by
      change s.head ≤ t + 1 + CAPACITY
      omega
    popped := by
      change s.popped ++ [ev] = s.claimed.take (t + 1)
      rw [take_add_one, hev, h.popped, ht]
      rfl
    checked := fun q e x hq => by
      have := h.checked q e x hq
      change x < t + 1 + CAPACITY
      omega
    owned := by
      intro q y ev' hq
      obtain ⟨h1, h2, h3, h4⟩ := h.owned q y ev' hq
      have hne : y ≠ t := by
        rintro rfl
        exact hno ⟨q, ev', hq⟩
      refine ⟨?_, h2, h3, h4⟩
      change t + 1 ≤ y
      omega
    published := by
      intro y hy hy' ho _
      have hy : t + 1 ≤ y := hy
      refine h.published y (by omega) hy' ho ?_
      rintro ev' heq
      rw [hc] at heq
      obtain ⟨rfl, -⟩ : t = y ∧ ev = ev' := by simpa using heq
      omega
    free := fun y hy hy' => by
      have hy' : y < t + 1 + CAPACITY := hy'
      by_cases hlast : y = t + CAPACITY
      · subst hlast
        obtain ⟨hmod, hdiv⟩ := slot_add t
        change s.seq _ = _
        rw [hmod, hdiv, hseq]
        omega
      · exact h.free y hy (by omega)
    consumer := trivial }

theorem Inv.stepConsumer : Inv s.stepConsumer := by
  have hcons := h.consumer
  rw [State.stepConsumer]
  split
  · rename_i hc
    exact h.setConsumer rfl (hc ▸ nofun)
  · rename_i t hc
    rw [hc] at hcons
    have hle := h.le
    split
    · exact h.setConsumer trivial (hc ▸ nofun)
    · refine h.setConsumer ⟨hcons, ?_⟩ (hc ▸ nofun)
      have : t = s.tail := hcons
      omega
  · rename_i t hc
    rw [hc] at hcons
    split
    · rename_i hseq
      -- the count is odd, so that no producer is at work on the position
      refine h.setConsumer ⟨hcons.1, hcons.2, ?_⟩ (hc ▸ nofun)
      rintro ⟨q, ev, hq⟩
      have := (h.owned q t ev hq).2.2.2
      omega
    · exact h
  · rename_i t hc
    rw [hc] at hcons
    obtain ⟨rfl, hlt, hno⟩ := hcons
    refine h.setConsumer ⟨rfl, hlt, hno, ?_⟩ (hc ▸ nofun)
    exact (h.published s.tail le_rfl hlt hno (hc ▸ nofun)).2
  · exact h.release ‹_›
  · exact h.advance ‹_›

/-- Writing the event touches no published slot, and none that another producer has written. -/
theorem Inv.writeEvent (hp : s.producer p = .write ev x) :
    Inv { s with event := update s.event (x % CAPACITY) ev } := by
  have howns : (s.producer p).owns = some (x, ev) := by rw [hp]; rfl
  have hx : s.Owned x := ⟨p, ev, howns⟩
  have hroom := h.room
  exact { h with
    written := by
      intro q y ev' hq
      have hy : (s.producer q).owns = some (y, ev') := by
        rw [show s.producer q = .publish ev' y from hq]
        rfl
      obtain ⟨h1, h2, -⟩ := h.owned q y ev' hy
      have hne : y ≠ x := by
        rintro rfl
        obtain rfl := h.one_owner q p y ev' ev hy howns
        exact nomatch hp.symm.trans hq
      change update s.event _ ev _ = ev'
      rw [update_of_ne (h.owned_slot_ne hx h1 (by omega) hne)]
      exact h.written q y ev' hq
    published := by
      intro y hy hy' ho hadv
      obtain ⟨hseq, hev⟩ := h.published y hy hy' ho hadv
      have hne : y ≠ x := by
        rintro rfl
        exact ho hx
      refine ⟨hseq, ?_⟩
      change s.claimed[y]? = some (update s.event _ ev _)
      rw [update_of_ne (h.owned_slot_ne hx hy (lt_of_lt_of_le hy' hroom) hne)]
      exact hev
    consumer := h.consumer.transfer rfl le_rfl fun hno _ => ⟨hno, rfl, rfl⟩ }

/-- Where the loaded head is not behind the tail, the queue looks full only if it is. -/
theorem Inv.full_iff_of_refused {k : ℕ} (hk : k ≤ s.head)
    (hfull : CAPACITY ≤ wrappingSub k s.tail) :
    s.head - s.tail = CAPACITY ↔ (k < s.tail → s.head = s.tail + CAPACITY) := by
  have hle := h.le
  have hroom := h.room
  have hbound := h.bound
  constructor
  · intro heq _
    omega
  · intro hok
    obtain hlt | hge := Nat.lt_or_ge k s.tail
    · have := hok hlt
      omega
    · have hsub : wrappingSub k s.tail = k - s.tail := by
        rw [wrappingSub]
        omega
      omega

/-! ### Steps that move a producer only -/

variable [DecidableEq P]

omit h in
theorem producer_setProducer (s : State P α) (p q : P) (c : Producer α) :
    (s.setProducer p c).producer q = if q = p then c else s.producer q := by
  rw [State.setProducer]
  exact update_apply _ _ _ _

omit h in
theorem owns_setProducer {c : Producer α} (h : c.owns = (s.producer p).owns) (q : P) :
    ((s.setProducer p c).producer q).owns = (s.producer q).owns := by
  rw [producer_setProducer]
  split
  · subst_vars
    exact h
  · rfl

/-- A producer that keeps its position, or has none before and after, and may be where it is. -/
theorem Inv.setProducer {c : Producer α} (hc : c.owns = (s.producer p).owns)
    (hload : ∀ ev x, c = .loadTail ev x → x ≤ s.head)
    (hswap : ∀ ev x, c = .swap ev x → x < s.tail + CAPACITY)
    (hpub : ∀ ev x, c = .publish ev x → s.event (x % CAPACITY) = ev) : Inv (s.setProducer p c) := by
  have howned : ∀ x, (s.setProducer p c).Owned x ↔ s.Owned x := fun x =>
    exists_congr fun q => exists_congr fun ev => by rw [owns_setProducer hc]
  have hstage : ∀ (Q : Producer α → Prop), Q c → ∀ q, (q ≠ p → Q (s.producer q)) →
      Q ((s.setProducer p c).producer q) := by
    intro Q hQ q hq
    rw [producer_setProducer]
    split
    · exact hQ
    · exact hq ‹_›
  exact { h with
    loaded := fun q ev x => hstage (fun c => c = .loadTail ev x → x ≤ s.head) (hload ev x) q
      fun _ => h.loaded q ev x
    checked := fun q ev x => hstage (fun c => c = .swap ev x → x < s.tail + CAPACITY) (hswap ev x)
      q fun _ => h.checked q ev x
    owned := fun q x ev hq => h.owned q x ev (by rwa [owns_setProducer hc] at hq)
    written := fun q x ev => hstage (fun c => c = .publish ev x → s.event (x % CAPACITY) = ev)
      (hpub ev x) q fun _ => h.written q x ev
    one_owner := fun q q' x ev ev' hq hq' => h.one_owner q q' x ev ev'
      (by rwa [owns_setProducer hc] at hq) (by rwa [owns_setProducer hc] at hq')
    published := fun x hx hx' ho => h.published x hx hx' fun hs => ho ((howned x).mpr hs)
    consumer := h.consumer.transfer rfl le_rfl fun hno _ =>
      ⟨fun hs => hno ((howned _).mp hs), rfl, rfl⟩ }

/-! ### Claiming, writing and publishing -/

omit h in
theorem wrappingSub_lt {h t : ℕ} (hlt : wrappingSub h t < CAPACITY) (hh : h < 2 ^ 64) :
    h < t + CAPACITY := by
  rw [wrappingSub, CAPACITY] at hlt
  rw [CAPACITY]
  omega

/-- A swap that succeeds makes the producer the owner of the position. -/
theorem Inv.claim (hp : s.producer p = .swap ev s.head) (hb : s.head + 1 < 2 ^ 64) :
    Inv { s.setProducer p (.spin ev s.head) with
      head := s.head + 1, claimed := s.claimed ++ [ev] } := by
  have hlen := h.length_claimed
  have hno : (s.producer p).owns = none := by rw [hp]; rfl
  have hroom := h.checked p ev s.head hp
  have hle := h.le
  have hold : ∀ {x : ℕ}, x < s.head → (s.claimed ++ [ev])[x]? = s.claimed[x]? := fun hx =>
    getElem?_append_left (by omega)
  have howns : ∀ q x ev', ((s.setProducer p (.spin ev s.head)).producer q).owns = some (x, ev') →
      q = p ∧ x = s.head ∧ ev' = ev ∨ q ≠ p ∧ (s.producer q).owns = some (x, ev') := by
    intro q x ev' hq
    rw [producer_setProducer] at hq
    split at hq
    · cases hq
      exact .inl ⟨‹_›, rfl, rfl⟩
    · exact .inr ⟨‹_›, hq⟩
  have hkeep : ∀ {x : ℕ}, s.Owned x → (s.setProducer p (.spin ev s.head)).Owned x := by
    rintro x ⟨q, ev', hq⟩
    refine ⟨q, ev', ?_⟩
    rw [producer_setProducer, if_neg]
    · exact hq
    · rintro rfl
      cases hno.symm.trans hq
  have hstage : ∀ {c : Producer α} {q : P}, c.owns = none →
      (s.setProducer p (.spin ev s.head)).producer q = c → s.producer q = c := by
    intro c q hc hq
    rw [producer_setProducer] at hq
    split at hq
    · subst hq
      cases hc
    · exact hq
  exact {
    length_claimed := by
      change (s.claimed ++ [ev]).length = s.head + 1
      rw [length_append, length_singleton, hlen]
    le := le_trans h.le (Nat.le_succ _)
    room := hroom
    bound := hb
    popped := by
      change s.popped = (s.claimed ++ [ev]).take s.tail
      rw [take_append_of_le_length (by omega), h.popped]
    loaded := fun q e x hq => le_trans (h.loaded q e x (hstage rfl hq)) (Nat.le_succ _)
    checked := fun q e x hq => h.checked q e x (hstage rfl hq)
    owned := by
      intro q x ev' hq
      obtain ⟨-, rfl, rfl⟩ | ⟨-, hq⟩ := howns q x ev' hq
      · refine ⟨h.le, Nat.lt_succ_self _, ?_, h.free s.head le_rfl hroom⟩
        change (s.claimed ++ [ev'])[s.head]? = some ev'
        rw [← hlen, getElem?_concat_length]
      · obtain ⟨h1, h2, h3, h4⟩ := h.owned q x ev' hq
        exact ⟨h1, Nat.lt_succ_of_lt h2, (hold h2).trans h3, h4⟩
    written := by
      intro q x ev' hq
      rw [show (_ : State P α).producer q = (s.setProducer p (.spin ev s.head)).producer q
        from rfl, producer_setProducer] at hq
      split at hq
      · cases hq
      · exact h.written q x ev' hq
    one_owner := by
      intro q q' x e e' hq hq'
      obtain ⟨hqp, hx, -⟩ | ⟨-, hold⟩ := howns q x e hq
      · obtain ⟨hqp', -, -⟩ | ⟨-, hold'⟩ := howns q' x e' hq'
        · exact hqp.trans hqp'.symm
        · exact absurd (h.owned q' x e' hold').2.1 (by omega)
      · obtain ⟨-, hx, -⟩ | ⟨-, hold'⟩ := howns q' x e' hq'
        · exact absurd (h.owned q x e hold).2.1 (by omega)
        · exact h.one_owner q q' x e e' hold hold'
    published := by
      intro x hx hx' ho hadv
      have hne : x ≠ s.head := by
        rintro rfl
        exact ho ⟨p, ev, by
          change ((s.setProducer p (.spin ev s.head)).producer p).owns = _
          rw [producer_setProducer, if_pos rfl]
          rfl⟩
      have hlt : x < s.head := by
        have : x < s.head + 1 := hx'
        omega
      obtain ⟨hseq, hev⟩ := h.published x hx hlt (fun hs => ho (hkeep hs)) hadv
      exact ⟨hseq, (hold hlt).trans hev⟩
    free := fun x hx hx' => h.free x (le_trans (Nat.le_succ _) hx) hx'
    consumer := h.consumer.transfer rfl (Nat.le_succ _) fun hno' hlt => by
      refine ⟨?_, hold hlt, rfl⟩
      rintro ⟨q, ev', hq⟩
      obtain ⟨-, hx, -⟩ | ⟨-, hq⟩ := howns q _ ev' hq
      · omega
      · exact hno' ⟨q, ev', hq⟩ }

/-- A published position is no longer owned, and its slot has its event. -/
theorem Inv.publish (hp : s.producer p = .publish ev x) : Inv { s.setProducer p .idle with
      seq := update s.seq (x % CAPACITY) (2 * (x / CAPACITY) + 1) } := by
  have howns : (s.producer p).owns = some (x, ev) := by rw [hp]; rfl
  have hx : s.Owned x := ⟨p, ev, howns⟩
  have hroom := h.room
  obtain ⟨hx1, hx2, hxev, -⟩ := h.owned p x ev howns
  have hseq : ∀ {y : ℕ}, s.tail ≤ y → y < s.tail + CAPACITY → y ≠ x →
      update s.seq (x % CAPACITY) (2 * (x / CAPACITY) + 1) (y % CAPACITY) =
        s.seq (y % CAPACITY) := fun hy hy' hne =>
    update_of_ne (h.owned_slot_ne hx hy hy' hne) _ _
  have hother : ∀ {c : Producer α} {q : P}, c ≠ .idle →
      (s.setProducer p .idle).producer q = c → s.producer q = c ∧ q ≠ p := by
    intro c q hc hq
    rw [producer_setProducer] at hq
    split at hq
    · exact absurd hq.symm hc
    · exact ⟨hq, ‹_›⟩
  have hfew : ∀ q y ev', ((s.setProducer p .idle).producer q).owns = some (y, ev') →
      (s.producer q).owns = some (y, ev') ∧ y ≠ x := by
    intro q y ev' hq
    rw [producer_setProducer] at hq
    split at hq
    · cases hq
    rename_i hqp
    refine ⟨hq, ?_⟩
    rintro rfl
    exact hqp (h.one_owner q p y ev' ev hq howns)
  have hmore : ∀ {y : ℕ}, y ≠ x → ¬ (s.setProducer p .idle).Owned y → ¬ s.Owned y := by
    rintro y hne ho ⟨q, ev', hq⟩
    refine ho ⟨q, ev', ?_⟩
    rw [producer_setProducer, if_neg]
    · exact hq
    · rintro rfl
      rw [howns] at hq
      exact hne (Prod.mk.inj (some.inj hq)).1.symm
  exact { h with
    loaded := fun q e y hq => h.loaded q e y (hother (by simp) hq).1
    checked := fun q e y hq => h.checked q e y (hother (by simp) hq).1
    owned := by
      intro q y ev' hq
      obtain ⟨hq, hne⟩ := hfew q y ev' hq
      obtain ⟨h1, h2, h3, h4⟩ := h.owned q y ev' hq
      exact ⟨h1, h2, h3, (hseq h1 (by omega) hne).trans h4⟩
    written := fun q y e hq => h.written q y e (hother (by simp) hq).1
    one_owner := fun q q' y e e' hq hq' =>
      h.one_owner q q' y e e' (hfew q y e hq).1 (hfew q' y e' hq').1
    published := by
      intro y hy hy' ho hadv
      obtain rfl | hne := eq_or_ne y x
      · refine ⟨update_self _ _ _, hxev.trans ?_⟩
        rw [← h.written p y ev hp]
        rfl
      · obtain ⟨hs, hev⟩ := h.published y hy hy' (hmore hne ho) hadv
        exact ⟨(hseq hy (lt_of_lt_of_le hy' hroom) hne).trans hs, hev⟩
    free := fun y hy hy' => by
      have hxy : y ≠ x := by
        have : s.head ≤ y := hy
        omega
      exact (hseq (le_trans h.le hy) hy' hxy).trans (h.free y hy hy')
    consumer := h.consumer.transfer rfl le_rfl fun hno hlt => by
      have hne : s.tail ≠ x := by
        rintro heq
        exact hno (heq ▸ hx)
      refine ⟨?_, rfl, hseq le_rfl (by rw [CAPACITY]; omega) hne⟩
      rintro ⟨q, ev', hq⟩
      exact hno ⟨q, ev', (hfew q _ ev' hq).1⟩ }

/-! ### Every step -/

theorem Inv.stepProducer (hs : s.stepProducer p = some s') : Inv s' := by
  rw [State.stepProducer] at hs
  split at hs
  · cases hs
  · rename_i ev hp
    cases hs
    refine h.setProducer (hp ▸ rfl) ?_ nofun nofun
    rintro _ _ ⟨⟩
    exact le_rfl
  · rename_i ev hd hp
    split at hs
    · cases hs
      have hidle := h.setProducer (p := p) (c := .idle) (hp ▸ rfl) nofun nofun nofun
      exact { hidle with }
    · rename_i hroom
      cases hs
      refine h.setProducer (hp ▸ rfl) nofun ?_ nofun
      rintro _ _ ⟨⟩
      exact wrappingSub_lt (not_le.mp hroom) (lt_of_le_of_lt (h.loaded p ev hd hp) h.bound)
  · rename_i ev hd hp
    split at hs
    · cases hs
    split at hs
    · rename_i hb heq
      cases hs
      subst heq
      exact h.claim hp (not_le.mp hb)
    · cases hs
      exact h.setProducer (hp ▸ rfl) nofun nofun nofun
  · rename_i ev pos hp
    split at hs
    · cases hs
      exact h.setProducer (hp ▸ rfl) nofun nofun nofun
    · cases hs
      exact h
  · rename_i ev pos hp
    cases hs
    refine (h.writeEvent hp).setProducer (by rw [show _ = _ from hp]; rfl) nofun nofun ?_
    rintro _ _ ⟨⟩
    exact update_self _ _ _
  · rename_i ev pos hp
    cases hs
    exact h.publish hp

/-- **Every step of every thread keeps the invariant.** -/
theorem Inv.step (a : Act P α) (hs : step s a = some s') : Inv s' := by
  cases a with
  | push p ev =>
    rw [Input.step] at hs
    split at hs
    · rename_i hp
      cases hs
      exact h.setProducer (hp ▸ rfl) nofun nofun nofun
    · cases hs
  | step p => exact h.stepProducer hs
  | fail p =>
    rw [Input.step] at hs
    split at hs
    · rename_i ev hd hp
      split at hs
      · cases hs
      · cases hs
        exact h.setProducer (hp ▸ rfl) nofun nofun nofun
    · cases hs
  | pop =>
    cases hs
    exact h.stepConsumer

/-! ## Runs -/

/-- A push that loads the tail does not find it past the head it has loaded, or the queue is
full. -/
def NotOvertaken (s : State P α) : Act P α → Prop
  | .step p => ∀ ev h, s.producer p = .loadTail ev h → h < s.tail →
      CAPACITY ≤ wrappingSub h s.tail → s.head = s.tail + CAPACITY
  | _ => True

omit h in
/-- The record of refused pushes grows at the load of a tail, and nowhere else. -/
theorem refused_step (a : Act P α) (hs : step s a = some s') :
    (∃ p ev h, a = .step p ∧ s.producer p = .loadTail ev h ∧ CAPACITY ≤ wrappingSub h s.tail ∧
      s'.refused = s.refused ++ [s.head - s.tail]) ∨
    s'.refused = s.refused ∧ ∀ p ev h, a = .step p → s.producer p = .loadTail ev h →
      ¬ CAPACITY ≤ wrappingSub h s.tail := by
  cases a with
  | push p ev =>
    rw [step] at hs
    split at hs
    · cases hs
      exact .inr ⟨rfl, nofun⟩
    · cases hs
  | fail p =>
    rw [step] at hs
    split at hs
    · split at hs
      · cases hs
      · cases hs
        exact .inr ⟨rfl, nofun⟩
    · cases hs
  | pop =>
    cases hs
    refine .inr ⟨?_, nofun⟩
    rw [State.stepConsumer]
    split
    case h_2 => split <;> rfl
    case h_3 => split <;> rfl
    all_goals rfl
  | step p =>
    rw [step, State.stepProducer] at hs
    split at hs
    · cases hs
    case h_3 ev h hp =>
      split at hs
      · cases hs
        exact .inl ⟨p, ev, h, rfl, hp, ‹_›, rfl⟩
      · cases hs
        refine .inr ⟨rfl, ?_⟩
        rintro _ _ _ ⟨⟩ hp'
        obtain ⟨rfl, rfl⟩ : ev = _ ∧ h = _ := by simpa [hp] using hp'
        assumption
    all_goals
      rename_i hp
      refine .inr ⟨?_, ?_⟩
      · try split_ifs at hs
        all_goals exact some.inj hs ▸ rfl
      · rintro _ _ _ ⟨⟩ hp'
        cases hp.symm.trans hp'

/-- **A step keeps the refusals honest exactly if it meets the condition.** -/
theorem Inv.honest_step (a : Act P α) (hs : Input.step s a = some s') :
    (∀ n ∈ s'.refused, n = CAPACITY) ↔ (∀ n ∈ s.refused, n = CAPACITY) ∧ NotOvertaken s a := by
  obtain ⟨p, ev, k, rfl, hp, hfull, hr⟩ | ⟨hr, hno⟩ := refused_step a hs
  · have hok : NotOvertaken s (.step p) ↔ (k < s.tail → s.head = s.tail + CAPACITY) := by
      constructor
      · exact fun hn hlt => hn ev k hp hlt hfull
      · intro hn ev' k' hp' hlt _
        obtain ⟨rfl, rfl⟩ : ev = ev' ∧ k = k' := by simpa [hp] using hp'
        exact hn hlt
    rw [hr, hok, ← h.full_iff_of_refused (h.loaded p ev k hp) hfull, forall_mem_append,
      forall_mem_singleton]
  · have hok : NotOvertaken s a := by
      cases a with
      | step p => exact fun ev k hp _ hfull => absurd hfull (hno p ev k rfl hp)
      | _ => trivial
    rw [hr, and_iff_left hok]

omit h

/-- The refusals of a run are honest exactly if every step meets the condition. -/
theorem honest_iff (zero : α) (acts : List (Act P α)) (s : State P α)
    (h : run step (init zero) acts = some s) :
    (∀ n ∈ s.refused, n = CAPACITY) ↔ RunMeets step NotOvertaken (init zero) acts := by
  have hiff := run_iff Inv (fun s : State P α => ∀ n ∈ s.refused, n = CAPACITY)
    (fun _ a _ hi hs => hi.step a hs) (fun _ a _ hi hs => hi.honest_step a hs) acts
    (inv_init zero) h
  rw [hiff]
  exact and_iff_right nofun

/-- A push that loads the tail does not find it past the head it has loaded. -/
def TailBehind (s : State P α) : Act P α → Prop
  | .step p => ∀ ev h, s.producer p = .loadTail ev h → s.tail ≤ h
  | _ => True

/-- In particular they are if the consumer never gets past a head that a push has loaded. -/
theorem honest_of_tailBehind (zero : α) (acts : List (Act P α)) (s : State P α)
    (h : run step (init zero) acts = some s)
    (hacts : RunMeets step TailBehind (init zero) acts) : ∀ n ∈ s.refused, n = CAPACITY := by
  refine (honest_iff zero acts s h).mpr (hacts.mono fun s a ha => ?_)
  cases a with
  | step p => exact fun ev k hp hlt => absurd hlt (Nat.not_lt_of_le (ha ev k hp))
  | _ => trivial

/-- **The queue is a bounded first-in first-out queue.**  The events popped are the first ones
claimed, at most `CAPACITY` are in flight, no unread slot is written, and every refusal met a full
queue exactly if no push was overtaken between its two loads. -/
theorem queue_fifo_iff (zero : α) (acts : List (Act P α)) (s : State P α)
    (h : run step (init zero) acts = some s) :
    s.popped <+: s.claimed ∧ s.claimed.length ≤ s.popped.length + CAPACITY ∧
    (∀ p ev x, s.producer p = .write ev x → ∀ y, s.Unread y → y % CAPACITY ≠ x % CAPACITY) ∧
    ((∀ n ∈ s.refused, n = CAPACITY) ↔ RunMeets step NotOvertaken (init zero) acts) := by
  have hinv : Inv s :=
    run_invariant Inv (fun _ a _ hi _ hs => hi.step a hs) acts (inv_init zero)
      (RunMeets.of_forall (fun _ _ => trivial) _ acts) h
  refine ⟨?_, ?_, ?_, ?_⟩
  · rw [hinv.popped]
    exact take_prefix _ _
  · have hle := hinv.le
    have hroom := hinv.room
    rw [hinv.popped, length_take, hinv.length_claimed]
    omega
  · rintro p ev x hp y ⟨hty, hyh, hno, -⟩ hmod
    obtain ⟨htx, hxh, -, -⟩ := hinv.owned p x ev (hp ▸ rfl)
    have hroom := hinv.room
    have : y = x := by
      unfold CAPACITY at hmod hroom
      omega
    exact hno ⟨p, ev, by rw [hp, this]; rfl⟩
  · exact honest_iff zero acts s h

end Inv

/-- The first producer loads the head; the second pushes, the consumer pops; the first loads the
tail. -/
def overtaking : List (Act (Fin 2) ℕ) :=
  [Act.push 0 7, .step 0, .push 1 8] ++ List.replicate 6 (Act.step 1) ++
    List.replicate 6 Act.pop ++ [Act.step 0]

/-- **A push is refused by an empty queue.** -/
theorem overtaking_refused :
    ∃ s, run step (init 0) overtaking = some s ∧ s.head = s.tail ∧ s.refused = [0] :=
  ⟨_, rfl, rfl, rfl⟩

theorem queue_fifo_iff_overtaking :
    ∃ s, run step (init 0) overtaking = some s ∧ s.popped = [8] ∧ s.popped <+: s.claimed ∧
      ¬ RunMeets step NotOvertaken (init 0) overtaking := by
  refine ⟨_, rfl, rfl, ?_⟩
  obtain ⟨hpre, -, -, hiff⟩ := queue_fifo_iff 0 overtaking _ rfl
  exact ⟨hpre, fun hmeets => absurd (hiff.mpr hmeets 0 (mem_singleton.mpr rfl)) (by decide)⟩

end Bedrock.Input
