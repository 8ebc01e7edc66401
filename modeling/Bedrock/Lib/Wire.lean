import Mathlib.Tactic

/-!
# Lib/Wire — reading back what was written

A reader takes bytes from the front of its input and leaves the rest.  Three statements connect a
reader with the bytes it takes:

    Reads r bs a      from `bs ++ rest` it reads `a` and leaves `rest`
    Exact r P w       whatever it reads, it is one of the `P`, read from the bytes `w a`
    Takes r size      whatever it reads, it reads from `size a` bytes

`Reads` is what a round trip asks for, `Exact` says that nothing has two encodings, and `Takes`
counts.  Each is closed under sequencing and repetition.
-/

namespace Bedrock.Wire

open List

variable {ε α β : Type} {bs bs' d rest : List UInt8} {a : α} {b : β} {n : ℕ}

/-- Takes something from the front of the bytes, or fails. -/
abbrev Reader (ε α : Type) := StateT (List UInt8) (Except ε) α

variable {r : Reader ε α} {f : α → Reader ε β}

theorem run_bind_eq_ok {x : β × List UInt8} : (r >>= f).run d = .ok x ↔
    ∃ a d', r.run d = .ok (a, d') ∧ (f a).run d' = .ok x := by
  rw [StateT.run_bind]
  cases r.run d with
  | error e => simp [bind, Except.bind]
  | ok p =>
    obtain ⟨a, d'⟩ := p
    simp [bind, Except.bind]

theorem run_pure_eq_ok {b : α} :
    (pure a : Reader ε α).run d = .ok (b, rest) ↔ b = a ∧ rest = d := by
  rw [StateT.run_pure]
  simp [pure, Except.pure, eq_comm]

theorem run_map_eq_ok {g : α → β} : (r >>= fun a => pure (g a)).run d = .ok (b, rest) ↔
    ∃ a, r.run d = .ok (a, rest) ∧ g a = b := by
  simp only [run_bind_eq_ok, run_pure_eq_ok]
  constructor
  · rintro ⟨a, _, h, rfl, rfl⟩
    exact ⟨a, h, rfl⟩
  · rintro ⟨a, h, rfl⟩
    exact ⟨a, rest, h, rfl, rfl⟩

/-! ## Little-endian numbers -/

/-- The `k` low bytes of `n`, the lowest first. -/
def leBytes : ℕ → ℕ → List UInt8
  | 0, _ => []
  | k + 1, n => UInt8.ofNat n :: leBytes k (n / 256)

/-- The number that these bytes spell, the lowest first. -/
def leNat : List UInt8 → ℕ
  | [] => 0
  | b :: bs => b.toNat + 256 * leNat bs

@[simp] theorem length_leBytes : ∀ k n, (leBytes k n).length = k
  | 0, _ => rfl
  | k + 1, n => by rw [leBytes, length_cons, length_leBytes]

theorem leNat_lt : ∀ bs, leNat bs < 256 ^ bs.length
  | [] => by simp [leNat]
  | b :: bs => by
    have hb := b.toNat_lt
    have ih := leNat_lt bs
    rw [leNat, length_cons]
    omega

/-- The bytes of a number spell it… -/
theorem leNat_leBytes : ∀ k n, leNat (leBytes k n) = n % 256 ^ k
  | 0, n => by simp [leBytes, leNat, Nat.mod_one]
  | k + 1, n => by
    rw [leBytes, leNat, leNat_leBytes k, UInt8.toNat_ofNat', pow_succ' 256 k, Nat.mod_mul]

/-- …and are the only ones that do. -/
theorem leBytes_leNat : ∀ bs, leBytes bs.length (leNat bs) = bs
  | [] => rfl
  | b :: bs => by
    have hb := b.toNat_lt
    have hlow : UInt8.ofNat (b.toNat + 256 * leNat bs) = b := by
      refine UInt8.toNat_inj.mp ?_
      rw [UInt8.toNat_ofNat']
      omega
    have hhigh : (b.toNat + 256 * leNat bs) / 256 = leNat bs := by omega
    rw [length_cons, leBytes, leNat, hlow, hhigh, leBytes_leNat bs]

/-! ## Repetition -/

/-- The same reader `n` times. -/
def times (r : Reader ε α) : ℕ → Reader ε (List α)
  | 0 => pure []
  | n + 1 => do
    let a ← r
    let as ← times r n
    pure (a :: as)

/-! ## Round trips -/

/-- From `bs`, whatever follows, the reader reads `a`. -/
def Reads (r : Reader ε α) (bs : List UInt8) (a : α) : Prop :=
  ∀ rest, r.run (bs ++ rest) = .ok (a, rest)

theorem Reads.nil (h : Reads r bs a) : r.run bs = .ok (a, []) := by simpa using h []

theorem Reads.pure (a : α) : Reads (Pure.pure a : Reader ε α) [] a := fun _ => rfl

theorem Reads.bind (h : Reads r bs a) (h' : Reads (f a) bs' b) : Reads (r >>= f) (bs ++ bs') b :=
  fun rest => run_bind_eq_ok.mpr ⟨a, bs' ++ rest, by rw [append_assoc]; exact h _, h' rest⟩

theorem Reads.run_bind (h : Reads r bs a) (rest : List UInt8) :
    (r >>= f).run (bs ++ rest) = (f a).run rest := by
  rw [StateT.run_bind, h rest]
  rfl

/-- A last step that takes nothing. -/
theorem Reads.map (h : Reads r bs a) (g : α → β) :
    Reads (r >>= fun a => Pure.pure (g a)) bs (g a) :=
  append_nil bs ▸ h.bind (Reads.pure (g a))

variable {w : α → List UInt8} {size : α → ℕ}

theorem Reads.times : ∀ {as : List α}, (∀ a ∈ as, Reads r (w a) a) →
    Reads (times r as.length) (as.flatMap w) as
  | [], _ => Reads.pure []
  | a :: as, h => by
    exact (h a (by simp)).bind
      ((Reads.times fun b hb => h b (mem_cons_of_mem _ hb)).map (a :: ·))

/-- The same, but only before a rest with a property: some readers look at all that is left. -/
def ReadsBefore (P : List UInt8 → Prop) (r : Reader ε α) (bs : List UInt8) (a : α) : Prop :=
  ∀ ⦃rest⦄, P rest → r.run (bs ++ rest) = .ok (a, rest)

theorem Reads.before {P : List UInt8 → Prop} (h : Reads r bs a) : ReadsBefore P r bs a :=
  fun rest _ => h rest

theorem ReadsBefore.reads {P : List UInt8 → Prop} (h : ReadsBefore P r bs a) (hP : ∀ rest, P rest) :
    Reads r bs a := fun rest => h (hP rest)

theorem ReadsBefore.bind {P Q : List UInt8 → Prop} (h : ReadsBefore P r bs a)
    (h' : ReadsBefore Q (f a) bs' b) (hP : ∀ rest, Q rest → P (bs' ++ rest)) :
    ReadsBefore Q (r >>= f) (bs ++ bs') b := fun rest hQ =>
  run_bind_eq_ok.mpr ⟨a, bs' ++ rest, by rw [append_assoc]; exact h (hP rest hQ), h' hQ⟩

theorem ReadsBefore.map {P : List UInt8 → Prop} (h : ReadsBefore P r bs a) (g : α → β) :
    ReadsBefore P (r >>= fun a => Pure.pure (g a)) bs (g a) :=
  append_nil bs ▸ h.bind (Reads.pure (g a)).before fun _ hP => hP

/-! ## One encoding only -/

/-- What is read is one of the `P`, and it is read from its encoding. -/
def Exact (r : Reader ε α) (P : α → Prop) (w : α → List UInt8) : Prop :=
  ∀ ⦃d a rest⦄, r.run d = .ok (a, rest) → P a ∧ d = w a ++ rest

theorem Exact.times {P : α → Prop} (h : Exact r P w) : ∀ n ⦃d as rest⦄,
    (times r n).run d = .ok (as, rest) →
      as.length = n ∧ (∀ a ∈ as, P a) ∧ d = as.flatMap w ++ rest
  | 0, d, as, rest, hrun => by
    obtain ⟨rfl, rfl⟩ := run_pure_eq_ok.mp hrun
    exact ⟨rfl, by simp, rfl⟩
  | n + 1, d, as, rest, hrun => by
    obtain ⟨a, d1, h1, hrun⟩ := run_bind_eq_ok.mp hrun
    obtain ⟨as', h2, rfl⟩ := run_map_eq_ok.mp hrun
    obtain ⟨hP, rfl⟩ := h h1
    obtain ⟨rfl, hP', rfl⟩ := h.times n h2
    refine ⟨rfl, fun b hb => ?_, by rw [flatMap_cons, append_assoc]⟩
    obtain rfl | hb := mem_cons.mp hb
    exacts [hP, hP' b hb]

/-! ## Counting -/

/-- What is read is read from `size a` bytes. -/
def Takes (r : Reader ε α) (size : α → ℕ) : Prop :=
  ∀ ⦃d a rest⦄, r.run d = .ok (a, rest) → d.length = size a + rest.length

theorem Takes.le (h : Takes r size) (hrun : r.run d = .ok (a, rest)) : rest.length ≤ d.length := by
  rw [h hrun]
  exact Nat.le_add_left _ _

theorem Exact.takes {P : α → Prop} (h : Exact r P w) : Takes r fun a => (w a).length := by
  intro d a rest hrun
  rw [(h hrun).2, length_append]

theorem Takes.map {g : α → β} {size' : β → ℕ} (h : Takes r size)
    (hg : ∀ a, size' (g a) = size a) : Takes (r >>= fun a => Pure.pure (g a)) size' := by
  intro d b rest hrun
  obtain ⟨a, h1, rfl⟩ := run_map_eq_ok.mp hrun
  rw [h h1, hg]

theorem Takes.times (h : Takes r size) : ∀ n ⦃d as rest⦄, (times r n).run d = .ok (as, rest) →
      as.length = n ∧ d.length = (as.map size).sum + rest.length
  | 0, d, as, rest, hrun => by
    obtain ⟨rfl, rfl⟩ := run_pure_eq_ok.mp hrun
    exact ⟨rfl, by simp⟩
  | n + 1, d, as, rest, hrun => by
    obtain ⟨a, d1, h1, hrun⟩ := run_bind_eq_ok.mp hrun
    obtain ⟨as', h2, rfl⟩ := run_map_eq_ok.mp hrun
    obtain ⟨rfl, hlen⟩ := h.times n h2
    exact ⟨rfl, by rw [h h1, map_cons, sum_cons]; omega⟩

/-- What a sequence does depends on its parts only where they read. -/
theorem bind_congr {r' : Reader ε α} {k k' : α → Reader ε β} (h : r.run d = r'.run d)
    (hk : ∀ a d', r.run d = .ok (a, d') → (k a).run d' = (k' a).run d') :
    (r >>= k).run d = (r' >>= k').run d := by
  rw [StateT.run_bind, StateT.run_bind, ← h]
  cases hrun : r.run d with
  | error e => rfl
  | ok p => exact hk p.1 p.2 hrun

/-- …and a repetition reads no longer input than it gets. -/
theorem times_congr {r' : Reader ε α} (h : Takes r size) {k : ℕ}
    (he : ∀ d : List UInt8, d.length ≤ k → r.run d = r'.run d) : ∀ n (d : List UInt8),
    d.length ≤ k → (times r n).run d = (times r' n).run d
  | 0, _, _ => rfl
  | n + 1, d, hd => bind_congr (he d hd) fun _ d' hrun =>
      bind_congr (times_congr h he n d' ((h.le hrun).trans hd)) fun _ _ _ => rfl

end Bedrock.Wire
