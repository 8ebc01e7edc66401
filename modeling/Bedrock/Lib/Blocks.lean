import Mathlib.Tactic

/-!
# Lib/Blocks — blocks of memory, and chains of them

A block is a half-open range of addresses.  `cover l x` counts the blocks of `l` that contain `x`,
so "`l` partitions a set" is an equation between counts, and cutting a block in two or joining two
neighbours does not change it.

    [---b---)[--c--)      ↦      [-----b+c-----)          joinRight

`insertFree` puts a block into an address-ordered list and joins it to both neighbours.  `Seg` is
the same list laid out in memory, a size word and a next word at the start of each block:

    p -▸ ⟨size, ·⟩ -▸ ⟨size, ·⟩ -▸ q
-/

namespace Bedrock

open List Nat

/-- A range of `size` bytes from `addr`. -/
structure Block where
  addr : ℕ
  size : ℕ
  deriving DecidableEq

namespace Block

/-- One past the last byte. -/
def stop (b : Block) : ℕ := b.addr + b.size

/-- Whether a byte lies in the block. -/
def contains (b : Block) (x : ℕ) : Bool := decide (b.addr ≤ x) && decide (x < b.addr + b.size)

@[simp] theorem contains_iff {b : Block} {x : ℕ} :
    b.contains x = true ↔ b.addr ≤ x ∧ x < b.addr + b.size := by
  simp [contains]

end Block

variable {b c p : Block} {l l₁ l₂ : List Block} {x : ℕ}

/-! ## Counting owners -/

/-- How many blocks of `l` contain the byte `x`. -/
def cover (l : List Block) (x : ℕ) : ℕ := l.countP (·.contains x)

@[simp] theorem cover_nil : cover [] x = 0 := rfl

@[simp] theorem cover_cons : cover (b :: l) x = (b.contains x).toNat + cover l x := by
  unfold cover
  rw [countP_cons]
  cases b.contains x <;> simp [add_comm]

@[simp] theorem cover_append : cover (l₁ ++ l₂) x = cover l₁ x + cover l₂ x :=
  countP_append

theorem cover_perm (h : l₁.Perm l₂) : cover l₁ x = cover l₂ x := h.countP_eq _

theorem cover_eq_zero : cover l x = 0 ↔ ∀ b ∈ l, b.contains x = false := by
  rw [cover, countP_eq_zero]
  simp only [Bool.not_eq_true]

theorem one_le_cover (hb : b ∈ l) (hx : b.contains x = true) : 1 ≤ cover l x :=
  countP_pos_iff.mpr ⟨b, hb, hx⟩

/-- Two neighbours contain what the block they form contains. -/
theorem contains_split (a m n x : ℕ) :
    (Block.contains ⟨a, m⟩ x).toNat + (Block.contains ⟨a + m, n⟩ x).toNat
      = (Block.contains ⟨a, m + n⟩ x).toNat := by
  simp only [Block.contains, ← add_assoc]
  by_cases h1 : a ≤ x <;> by_cases h2 : x < a + m <;> by_cases h3 : x < a + m + n <;>
    simp [h1, h2, h3] <;> omega

/-- Where no byte has two owners, another member of the list is disjoint from this one. -/
theorem not_contains_of_cover (h : cover (b :: l) x ≤ 1) (hc : c ∈ l) (hcx : c.contains x = true) :
    b.contains x = false := by
  have := one_le_cover hc hcx
  rw [cover_cons] at h
  cases hb : b.contains x with
  | false => rfl
  | true => rw [hb, Bool.toNat_true] at h; omega

/-- Two non-empty blocks that share no byte lie one before the other. -/
theorem before_or_after (hb : 0 < b.size) (hc : 0 < c.size)
    (h : ∀ x, c.contains x = true → b.contains x = false) : b.stop ≤ c.addr ∨ c.stop ≤ b.addr := by
  by_contra hno
  simp only [Block.stop] at hno
  have hx := h (max b.addr c.addr) (by rw [Block.contains_iff]; omega)
  have : b.contains (max b.addr c.addr) = true := by rw [Block.contains_iff]; omega
  rw [this] at hx
  cases hx

/-! ## Ordered lists with gaps -/

/-- Address order, with a gap after every block. -/
def Apart (l : List Block) : Prop := l.Pairwise fun b c => b.stop < c.addr

/-- Put `b` in front of a list, joined to its head if that is its neighbour. -/
def joinRight (b : Block) : List Block → List Block
  | [] => [b]
  | c :: l => if b.stop = c.addr then ⟨b.addr, b.size + c.size⟩ :: l else b :: c :: l

/-- Insert a block in address order, joined to its neighbours on both sides. -/
def insertFree (b : Block) : List Block → List Block
  | [] => [b]
  | c :: l => if c.addr < b.addr then joinRight c (insertFree b l) else joinRight b (c :: l)

theorem joinRight_cons : joinRight b (c :: l)
    = if b.stop = c.addr then ⟨b.addr, b.size + c.size⟩ :: l else b :: c :: l := rfl

@[simp] theorem cover_joinRight : cover (joinRight b l) x = cover (b :: l) x := by
  cases l with
  | nil => rfl
  | cons c l =>
    rw [joinRight_cons]
    split
    · rename_i h
      obtain ⟨ba, bs⟩ := b
      obtain ⟨ca, cs⟩ := c
      obtain rfl : ba + bs = ca := h
      have := contains_split ba bs cs x
      simp only [cover_cons] at ⊢
      omega
    · rfl

/-- **Inserting a block adds its bytes and no others.** -/
theorem cover_insertFree : ∀ l : List Block, cover (insertFree b l) x = cover (b :: l) x
  | [] => rfl
  | c :: l => by
    unfold insertFree
    split
    · rw [cover_joinRight, cover_cons, cover_insertFree l]
      simp only [cover_cons]
      omega
    · rw [cover_joinRight]

theorem joinRight_of_gap (h : ∀ c ∈ l, b.stop < c.addr) : joinRight b l = b :: l := by
  cases l with
  | nil => rfl
  | cons c l =>
    have := h c (by simp)
    rw [joinRight, if_neg (by omega)]

/-- What an ordered list with gaps becomes when a block that may touch its head comes before it. -/
theorem apart_joinRight (hl : Apart l) (h : ∀ c ∈ l, b.stop ≤ c.addr)
    (hpos : ∀ c ∈ l, 0 < c.size) : Apart (joinRight b l) := by
  cases l with
  | nil => simp [joinRight, Apart]
  | cons c l =>
    have hc := h c (by simp)
    obtain ⟨hcl, hl'⟩ := pairwise_cons.mp hl
    rw [joinRight_cons]
    split
    · rename_i heq
      refine pairwise_cons.mpr ⟨fun d hd => ?_, hl'⟩
      have := hcl d hd
      simp only [Block.stop] at this heq ⊢
      omega
    · refine pairwise_cons.mpr ⟨fun d hd => ?_, hl⟩
      obtain rfl | hd := mem_cons.mp hd
      · omega
      · have := hcl d hd
        simp only [Block.stop] at this hc ⊢
        omega

/-- The blocks of a joined list start where those of the list did. -/
theorem addr_of_mem_joinRight (hd : p ∈ joinRight b l) :
    p.addr = b.addr ∨ ∃ c ∈ l, p.addr = c.addr := by
  cases l with
  | nil => left; simpa using congrArg Block.addr (mem_singleton.mp hd)
  | cons c l =>
    rw [joinRight_cons] at hd
    split at hd
    · obtain rfl | hd := mem_cons.mp hd
      · exact Or.inl rfl
      · exact Or.inr ⟨p, mem_cons_of_mem c hd, rfl⟩
    · obtain rfl | hd := mem_cons.mp hd
      · exact Or.inl rfl
      · exact Or.inr ⟨p, hd, rfl⟩

theorem addr_of_mem_insertFree : ∀ (l : List Block) {p : Block}, p ∈ insertFree b l →
    p.addr = b.addr ∨ ∃ c ∈ l, p.addr = c.addr
  | [], p, hp => Or.inl (congrArg Block.addr (mem_singleton.mp hp))
  | c :: l, p, hp => by
    unfold insertFree at hp
    split at hp
    · obtain h | ⟨d, hd, h⟩ := addr_of_mem_joinRight hp
      · exact Or.inr ⟨c, by simp, h⟩
      · obtain h' | ⟨e, he, h'⟩ := addr_of_mem_insertFree l hd
        · exact Or.inl (h.trans h')
        · exact Or.inr ⟨e, mem_cons_of_mem c he, h.trans h'⟩
    · exact addr_of_mem_joinRight hp

/-- A joined block is at least as long as the one it starts with. -/
theorem size_pos_joinRight (hb : 0 < b.size) (hl : ∀ c ∈ l, 0 < c.size) :
    ∀ c ∈ joinRight b l, 0 < c.size := by
  intro d hd
  cases l with
  | nil => simpa [mem_singleton.mp hd] using hb
  | cons c l =>
    rw [joinRight_cons] at hd
    split at hd
    · obtain rfl | hd := mem_cons.mp hd
      · exact lt_of_lt_of_le hb (le_add_right _ _)
      · exact hl d (mem_cons_of_mem c hd)
    · obtain rfl | hd := mem_cons.mp hd
      · exact hb
      · exact hl d hd

theorem size_pos_insertFree (hb : 0 < b.size) : ∀ l : List Block, (∀ c ∈ l, 0 < c.size) →
    ∀ c ∈ insertFree b l, 0 < c.size
  | [], _ => by simpa [insertFree] using hb
  | c :: l, hl => by
    unfold insertFree
    split
    · exact size_pos_joinRight (hl c (by simp))
        (size_pos_insertFree hb l fun d hd => hl d (mem_cons_of_mem c hd))
    · exact size_pos_joinRight hb hl

/-- **Inserting a block that overlaps none keeps the list ordered with gaps.** -/
theorem apart_insertFree (hb : 0 < b.size) : ∀ l : List Block, Apart l → (∀ c ∈ l, 0 < c.size) →
    (∀ c ∈ l, c.stop ≤ b.addr ∨ b.stop ≤ c.addr) → Apart (insertFree b l)
  | [], _, _, _ => by simp [insertFree, Apart]
  | c :: l, hl, hpos, hdis => by
    obtain ⟨hcl, hl'⟩ := pairwise_cons.mp hl
    have hpos' : ∀ d ∈ l, 0 < d.size := fun d hd => hpos d (mem_cons_of_mem c hd)
    have hdis' : ∀ d ∈ l, d.stop ≤ b.addr ∨ b.stop ≤ d.addr :=
      fun d hd => hdis d (mem_cons_of_mem c hd)
    have hc := hdis c (by simp)
    unfold insertFree
    split
    · have hcb : c.stop ≤ b.addr := by
        simp only [Block.stop] at hc ⊢
        omega
      refine apart_joinRight (apart_insertFree hb l hl' hpos' hdis') (fun d hd => ?_)
        (size_pos_insertFree hb l hpos')
      obtain h | ⟨e, he, h⟩ := addr_of_mem_insertFree l hd
      · omega
      · have := hcl e he
        omega
    · refine apart_joinRight hl (fun d hd => ?_) hpos
      have hbc : b.stop ≤ c.addr := by
        have := hpos c (by simp)
        simp only [Block.stop] at hc ⊢
        omega
      obtain rfl | hd := mem_cons.mp hd
      · exact hbc
      · have := hcl d hd
        simp only [Block.stop] at this hbc ⊢
        omega

theorem insertFree_of_le (h : ∀ d ∈ l, b.addr ≤ d.addr) : insertFree b l = joinRight b l := by
  cases l with
  | nil => rfl
  | cons d l => rw [insertFree, if_neg (by have := h d (by simp); omega)]

/-- Past the blocks before it, an insertion happens between its two neighbours. -/
theorem insertFree_append : ∀ l₁ : List Block, (∀ c ∈ l₁, c.addr < b.addr) → c.addr < b.addr →
    (∀ d ∈ l₂, b.addr ≤ d.addr) → Apart (l₁ ++ c :: l₂) → (∀ d ∈ l₁ ++ c :: l₂, 0 < d.size) →
    insertFree b (l₁ ++ c :: l₂) = l₁ ++ joinRight c (joinRight b l₂)
  | [], _, hc, hl2, _, _ => by
    rw [nil_append, insertFree, if_pos hc, insertFree_of_le hl2, nil_append]
  | e :: l₁, hl1, hc, hl2, hap, hpos => by
    obtain ⟨he, hap'⟩ := pairwise_cons.mp hap
    have ih := insertFree_append l₁ (fun d hd => hl1 d (mem_cons_of_mem e hd)) hc hl2 hap'
      fun d hd => hpos d (mem_cons_of_mem e hd)
    have hlt : e.stop < b.addr := (he c (by simp)).trans hc
    rw [cons_append, insertFree, if_pos (hl1 e (by simp)), ih, joinRight_of_gap,
      cons_append]
    intro d hd
    rw [← ih] at hd
    obtain h | ⟨f, hf, h⟩ := addr_of_mem_insertFree _ hd
    · omega
    · have := he f hf
      omega

/-! ## The list in memory -/

/-- The words of `mem` link the blocks of `l` from pointer `p` to pointer `q`: each block starts
with its size and a pointer to the next, and no block is at the null pointer. -/
def Seg (mem : ℕ → ℕ) : ℕ → List Block → ℕ → Prop
  | p, [], q => p = q
  | p, b :: l, q => p = b.addr ∧ b.addr ≠ 0 ∧ mem b.addr = b.size ∧ Seg mem (mem (b.addr + 8)) l q

variable {mem mem' : ℕ → ℕ} {q r s : ℕ}

theorem seg_append : ∀ (l₁ : List Block) {r : ℕ},
    Seg mem r (l₁ ++ l₂) q ↔ ∃ s, Seg mem r l₁ s ∧ Seg mem s l₂ q
  | [], r => by simp [Seg]
  | b :: l₁, r => by
    rw [cons_append, Seg, seg_append l₁]
    constructor
    · rintro ⟨h1, h2, h3, s, h4, h5⟩
      exact ⟨s, ⟨h1, h2, h3, h4⟩, h5⟩
    · rintro ⟨s, ⟨h1, h2, h3, h4⟩, h5⟩
      exact ⟨h1, h2, h3, s, h4, h5⟩

/-- A last block links to where the list ends. -/
theorem seg_concat : Seg mem r (l ++ [b]) q ↔
      Seg mem r l b.addr ∧ b.addr ≠ 0 ∧ mem b.addr = b.size ∧ mem (b.addr + 8) = q := by
  rw [seg_append]
  constructor
  · rintro ⟨s, h, rfl, h2, h3, h4⟩
    exact ⟨h, h2, h3, h4⟩
  · rintro ⟨h, h2, h3, h4⟩
    exact ⟨b.addr, h, rfl, h2, h3, h4⟩

/-- **Frame**: writes outside the header words of its blocks leave a list as it is. -/
theorem Seg.congr : ∀ (l : List Block) {r : ℕ}, Seg mem r l q →
    (∀ b ∈ l, mem' b.addr = mem b.addr ∧ mem' (b.addr + 8) = mem (b.addr + 8)) → Seg mem' r l q
  | [], _, h, _ => h
  | b :: l, r, ⟨h1, h2, h3, h4⟩, hmem => by
    obtain ⟨ha, hn⟩ := hmem b (by simp)
    refine ⟨h1, h2, ha.trans h3, ?_⟩
    rw [hn]
    exact h4.congr l fun c hc => hmem c (mem_cons_of_mem b hc)

/-- …one word at a time. -/
theorem Seg.update {w v : ℕ} (h : Seg mem r l q) (hw : ∀ b ∈ l, w ≠ b.addr ∧ w ≠ b.addr + 8) :
    Seg (Function.update mem w v) r l q :=
  h.congr l fun b hb =>
    ⟨Function.update_of_ne (hw b hb).1.symm _ _, Function.update_of_ne (hw b hb).2.symm _ _⟩

theorem Seg.ne_zero : ∀ (l : List Block) {r : ℕ}, Seg mem r l q → ∀ b ∈ l, b.addr ≠ 0
  | b :: l, r, ⟨_, h2, _, h4⟩, c, hc => by
    obtain rfl | hc := mem_cons.mp hc
    · exact h2
    · exact h4.ne_zero l c hc

theorem Seg.size_eq : ∀ (l : List Block) {r : ℕ}, Seg mem r l q → ∀ b ∈ l, mem b.addr = b.size
  | b :: l, r, ⟨_, _, h3, h4⟩, c, hc => by
    obtain rfl | hc := mem_cons.mp hc
    · exact h3
    · exact h4.size_eq l c hc

end Bedrock
