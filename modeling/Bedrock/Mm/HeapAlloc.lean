import Bedrock.Mm.HeapFree

/-!
# Mm/HeapAlloc — allocating is carving a block out of the first that fits

`firstFit` walks to a block `b` of the free list and `carve` replaces it by what is left of it:

    l₁ -- b -- l₂      ↦      l₁ -- [allocEnd, b.stop) -- l₂      or      l₁ -- l₂

with the allocated block in front of the remainder, or all of `b`.  `allocInner_some` says so for
the words in memory, with the payload inside the allocated block after its header and back-pointer.
-/

namespace Bedrock

open List

namespace Heap

variable {h h' : Heap} {a v w prev curr : ℕ} {b c p : Block} {l l₁ l₂ : List Block}

/-! ## Address arithmetic -/

/-- Masking with a power of two rounds down to a multiple. -/
theorem maskDown_two_pow {k : ℕ} (hv : v < 2 ^ 64) : maskDown v (2 ^ k) = v / 2 ^ k * 2 ^ k := by
  refine Nat.eq_of_testBit_eq fun i => ?_
  rw [maskDown, BitVec.testBit_toNat, BitVec.getLsbD_and, BitVec.getLsbD_not, BitVec.getLsbD_ofNat,
    BitVec.getLsbD_ofNat, Nat.testBit_mul_two_pow]
  obtain hik | hik := Nat.lt_or_ge i k
  · simp [hik]
  · rw [Nat.testBit_div_two_pow, Nat.sub_add_cancel hik]
    obtain hi | hi := Nat.lt_or_ge i 64
    · simp [hi, hik]
    · have : v.testBit i = false :=
        Nat.testBit_lt_two_pow (lt_of_lt_of_le hv (Nat.pow_le_pow_right (by decide) hi))
      simp [this]

theorem maskDown_spec {k : ℕ} (hv : v < usizeBound) :
    maskDown v (2 ^ k) % 2 ^ k = 0 ∧ maskDown v (2 ^ k) ≤ v ∧ v < maskDown v (2 ^ k) + 2 ^ k := by
  rw [maskDown_two_pow hv]
  refine ⟨Nat.mul_mod_left _ _, Nat.div_mul_le_self _ _, ?_⟩
  have hdiv := Nat.div_add_mod v (2 ^ k)
  rw [Nat.mul_comm] at hdiv
  omega

/-- **Where an allocation is placed**: aligned, past the header and the back-pointer, and ending on
a block boundary. -/
theorem place_some {k addr needed payload allocEnd : ℕ}
    (hp : place addr (2 ^ k) needed = some (payload, allocEnd)) :
    payload % 2 ^ k = 0 ∧ addr + 24 ≤ payload ∧ payload + needed ≤ allocEnd ∧ allocEnd % 8 = 0 := by
  simp only [place] at hp
  split at hp
  · cases hp
  split at hp
  · cases hp
  split at hp
  · cases hp
  obtain ⟨rfl, rfl⟩ := hp
  obtain ⟨hm, -, hlt⟩ := maskDown_spec (v := addr + (headerSize + backptrSize + 2 ^ k - 1))
    (by omega)
  generalize maskDown (addr + (headerSize + backptrSize + 2 ^ k - 1)) (2 ^ k) = payload at *
  obtain ⟨hm', -, hlt'⟩ : maskDown (payload + needed + (blockAlign - 1)) blockAlign % 8 = 0 ∧
      _ ∧ payload + needed + 7 < maskDown (payload + needed + (blockAlign - 1)) blockAlign + 8
      := maskDown_spec (k := 3) (by omega)
  refine ⟨hm, ?_, by omega, hm'⟩
  simp only [headerSize, backptrSize] at hlt
  omega

/-! ## The walk -/

/-- **The walk ends on the first block that fits**, or past the last with a null pointer. -/
theorem firstFit_some {align needed : ℕ} : ∀ (l : List Block) (fuel prev curr : ℕ) {ptr : ℕ},
    Seg h.mem curr l 0 → firstFit align needed fuel h prev curr = some (ptr, h') →
    (ptr = 0 ∧ h' = h) ∨ ∃ l₁ b l₂ allocEnd, l = l₁ ++ b :: l₂ ∧
      place b.addr align needed = some (ptr, allocEnd) ∧ allocEnd ≤ b.stop ∧
      h' = h.carve (lastAddr prev l₁) b.addr b.stop ptr allocEnd
  | l, 0, prev, curr, ptr, _, hrun => by cases hrun
  | [], fuel + 1, prev, curr, ptr, hseg, hrun => by
    obtain rfl : curr = 0 := hseg
    rw [firstFit, if_pos rfl] at hrun
    simp only [Option.some.injEq, Prod.mk.injEq] at hrun
    exact Or.inl ⟨hrun.1.symm, hrun.2.symm⟩
  | b :: l, fuel + 1, prev, curr, ptr, hseg, hrun => by
    obtain ⟨rfl, h0, hsz, hrest⟩ := hseg
    have hstop : b.addr + h.size b.addr = b.stop := by rw [size, hsz]; rfl
    rw [firstFit, if_neg h0, hstop] at hrun
    split_ifs at hrun
    cases hp : place b.addr align needed with
    | none => simp [hp] at hrun
    | some r =>
      obtain ⟨payload, allocEnd⟩ := r
      simp only [hp] at hrun
      split at hrun
      · rename_i hle
        obtain ⟨rfl, rfl⟩ := hrun
        exact Or.inr ⟨[], b, l, allocEnd, rfl, hp, hle, rfl⟩
      · rcases firstFit_some l fuel b.addr (h.next b.addr) hrest hrun with hnull |
          ⟨l₁, c, l₂, ae, rfl, hpl, hle, hcarve⟩
        · exact Or.inl hnull
        · exact Or.inr ⟨b :: l₁, c, l₂, ae, rfl, hpl, hle, hcarve⟩

/-! ## Carving -/

/-- Redirecting the end of the blocks before to another list. -/
theorem seg_link {q s : ℕ} (hseg1 : Seg h.mem h.freeList l₁ s) (hseg2 : Seg h.mem q l₂ 0)
    (hok : ∀ c ∈ l₁ ++ l₂, BlockOk c) (hap : Apart (l₁ ++ l₂)) :
    Seg (h.link (lastAddr 0 l₁) q).mem (h.link (lastAddr 0 l₁) q).freeList (l₁ ++ l₂) 0 ∧
      SameBut l₁ h.mem (h.link (lastAddr 0 l₁) q).mem := by
  obtain rfl | ⟨l, p, rfl⟩ := l₁.eq_nil_or_concat'
  · exact ⟨hseg2, fun _ _ => rfl⟩
  · have hp := hok p (by simp)
    have hcl : ∀ c ∈ l ++ l₂, Clear p c := by
      intro c hc
      obtain ⟨hap1, -, hcross⟩ := pairwise_append.mp hap
      obtain hc | hc := mem_append.mp hc
      · exact clear_of_disjoint hp (hok c (by simp [hc]))
          (Or.inl ((pairwise_append.mp hap1).2.2 c hc p (by simp)).le)
      · exact clear_of_disjoint hp (hok c (by simp [hc])) (Or.inr (hcross p (by simp) c hc).le)
    obtain ⟨hseg1, -, hps, -⟩ := seg_concat.mp hseg1
    rw [lastAddr_concat, link, if_neg hp.ne_zero, setNext_eq_setHeader hps]
    have hsb : SameBut [p] h.mem (h.setHeader p.addr p.size q).mem := sameBut_setHeader
    refine ⟨?_, hsb.mono (by simp)⟩
    rw [append_assoc, singleton_append, seg_append]
    exact ⟨p.addr, hsb.seg hseg1 fun c hc => hcl c (by simp [hc]),
      seg_setHeader hp.ne_zero hseg2 fun c hc => hcl c (by simp [hc])⟩

/-- Unlinking the block after `prev` is linking `prev` to the one after it. -/
theorem removeNext_eq (hseg : Seg h.mem h.freeList (l₁ ++ b :: l₂) 0) :
    h.removeNext (lastAddr 0 l₁) = h.link (lastAddr 0 l₁) (h.next b.addr) := by
  have hne := hseg.ne_zero _
  obtain ⟨s, hseg1, rfl, hb0, -, -⟩ := (seg_append l₁).mp hseg
  obtain rfl | ⟨l, p, rfl⟩ := l₁.eq_nil_or_concat'
  · have hfl : h.freeList = b.addr := hseg1
    simp only [removeNext, link, lastAddr, if_true]
    rw [if_neg (hfl ▸ hb0), hfl]
  · have hpb : h.next p.addr = b.addr := (seg_concat.mp hseg1).2.2.2
    have hp0 := hne p (by simp)
    rw [lastAddr_concat, removeNext, link, if_neg hp0, if_neg hp0, hpb, if_neg hb0]

end Heap

/-- What carving `[b.addr, allocEnd)` off a block leaves free… -/
def remainder (b : Block) (allocEnd : ℕ) : List Block :=
  if minBlockSize ≤ b.stop - allocEnd then [⟨allocEnd, b.stop - allocEnd⟩] else []

/-- …and the block that is allocated. -/
def allocated (b : Block) (allocEnd : ℕ) : Block :=
  if minBlockSize ≤ b.stop - allocEnd then ⟨b.addr, allocEnd - b.addr⟩ else b

/-- An allocation placed in a block: the payload past header and back-pointer, ending in it. -/
structure Placed (b : Block) (ptr needed allocEnd : ℕ) : Prop where
  after : b.addr + 24 ≤ ptr
  room : 8 ≤ needed
  fits : ptr + needed ≤ allocEnd
  allocEnd_mod : allocEnd % 8 = 0
  ptr_mod : ptr % 8 = 0
  inside : allocEnd ≤ b.stop

namespace Placed

variable {b c : Block} {ptr needed allocEnd : ℕ} {l₁ l₂ : List Block}

variable (h : Placed b ptr needed allocEnd)
include h

theorem blockOk_remainder (hb : BlockOk b) : ∀ c ∈ remainder b allocEnd, BlockOk c := by
  intro c hc
  unfold remainder at hc
  split at hc
  · rename_i hmin
    obtain rfl := mem_singleton.mp hc
    obtain ⟨h1, h2, h3, h4, h5, h6⟩ := h
    obtain ⟨hm, hM, hs, ha, h0, hlt⟩ := hb
    simp only [Block.stop] at *
    exact ⟨hmin, by simp only; omega, by simp only; omega, h4, by simp only; omega,
      by simp only; omega⟩
  · cases hc

theorem blockOk_allocated (hb : BlockOk b) : BlockOk (allocated b allocEnd) := by
  unfold allocated
  split
  · obtain ⟨h1, h2, h3, h4, h5, h6⟩ := h
    obtain ⟨hm, hM, hs, ha, h0, hlt⟩ := hb
    simp only [Block.stop] at *
    exact ⟨by simp only [minBlockSize, headerSize, backptrSize, minAlloc]; omega,
      by simp only; omega, by simp only; omega, ha, h0, by simp only; omega⟩
  · exact hb

omit h in
theorem addr_allocated : (allocated b allocEnd).addr = b.addr := by
  unfold allocated; split <;> rfl

theorem le_stop_allocated : allocEnd ≤ (allocated b allocEnd).stop := by
  unfold allocated
  split
  · simp only [Block.stop]; omega
  · exact h.inside

/-- Remainder and allocated block together are the block. -/
theorem cover_eq (x : ℕ) :
    cover (remainder b allocEnd) x + ((allocated b allocEnd).contains x).toNat
      = (b.contains x).toNat := by
  unfold remainder allocated
  split
  · obtain ⟨h1, h2, h3, h4, h5, h6⟩ := h
    obtain ⟨ba, bs⟩ := b
    simp only [Block.stop] at *
    have := contains_split ba (allocEnd - ba) (ba + bs - allocEnd) x
    rw [show ba + (allocEnd - ba) = allocEnd by omega,
      show allocEnd - ba + (ba + bs - allocEnd) = bs by omega] at this
    simp only [cover_cons, cover_nil]
    omega
  · simp

theorem apart (hap : Apart (l₁ ++ b :: l₂)) : Apart (l₁ ++ (remainder b allocEnd ++ l₂)) := by
  have h1 := h.after
  have h3 := h.fits
  have h6 := h.inside
  obtain ⟨ha1, ha2, hcross⟩ := pairwise_append.mp hap
  obtain ⟨hb2, ha2⟩ := pairwise_cons.mp ha2
  unfold remainder
  split
  · refine pairwise_append.mpr ⟨ha1, pairwise_cons.mpr ⟨fun c hc => ?_, ha2⟩,
      fun c hc d hd => ?_⟩
    · have := hb2 c hc
      simp only [Block.stop] at *
      omega
    · obtain rfl | hd := mem_cons.mp hd
      · have := hcross c hc b (by simp)
        simp only [Block.stop] at *
        omega
      · exact hcross c hc d (mem_cons_of_mem b hd)
  · exact pairwise_append.mpr
      ⟨ha1, ha2, fun c hc d hd => hcross c hc d (mem_cons_of_mem b hd)⟩

end Placed

namespace Heap

variable {h h' : Heap} {w : ℕ} {b c : Block} {l l₁ l₂ : List Block} {ptr needed allocEnd : ℕ}

theorem not_header (hc : BlockOk c) (hw : c.contains w = false) : w ≠ c.addr ∧ w ≠ c.addr + 8 := by
  have := hc.size_ge
  constructor
  · rintro rfl
    rw [Block.contains_iff.mpr (by omega)] at hw
    cases hw
  · rintro rfl
    rw [Block.contains_iff.mpr (by omega)] at hw
    cases hw

/-- A word written in no block of a list leaves the list as it is. -/
theorem seg_write {r q v : ℕ} (hseg : Seg h.mem r l q) (hok : ∀ c ∈ l, BlockOk c)
    (hw : ∀ c ∈ l, c.contains w = false) : Seg (h.setWord w v).mem r l q :=
  hseg.update fun c hc => not_header (hok c hc) (hw c hc)

/-- A word of a block of an ordered list lies in no other block of it. -/
theorem not_contains_of_apart (hap : Apart (l₁ ++ b :: l₂)) (hlo : b.addr ≤ w) (hhi : w < b.stop) :
    ∀ c ∈ l₁ ++ l₂, c.contains w = false := by
  intro c hc
  obtain ⟨-, ha2, hcross⟩ := pairwise_append.mp hap
  have hsep : c.stop < b.addr ∨ b.stop < c.addr := by
    obtain hc | hc := mem_append.mp hc
    · exact Or.inl (hcross c hc b (by simp))
    · exact Or.inr ((pairwise_cons.mp ha2).1 c hc)
  rw [Bool.eq_false_iff, ne_eq, Block.contains_iff]
  simp only [Block.stop] at hsep hhi
  omega

/-- `carve` before the back-pointer is written: the list without the block, or with the remainder in
its place. -/
theorem seg_unlink (hseg : Seg h.mem h.freeList (l₁ ++ b :: l₂) 0)
    (hok : ∀ c ∈ l₁ ++ b :: l₂, BlockOk c) (hap : Apart (l₁ ++ b :: l₂))
    (hpl : Placed b ptr needed allocEnd) (hrun : h' = if minBlockSize ≤ b.stop - allocEnd then
      ((h.setSize b.addr (allocEnd - b.addr)).setHeader (b.addr + (allocEnd - b.addr))
        (b.stop - allocEnd) (h.next b.addr)).link (lastAddr 0 l₁) (b.addr + (allocEnd - b.addr))
      else h.removeNext (lastAddr 0 l₁)) :
    Seg h'.mem h'.freeList (l₁ ++ (remainder b allocEnd ++ l₂)) 0 ∧
      h'.size b.addr = (allocated b allocEnd).size ∧
      ∀ w, (∀ c ∈ l₁ ++ b :: l₂, c.contains w = false) → h'.mem w = h.mem w := by
  have hb := hok b (by simp)
  have hok1 : ∀ c ∈ l₁, BlockOk c := fun c hc => hok c (mem_append_left _ hc)
  have hok2 : ∀ c ∈ l₂, BlockOk c := fun c hc => hok c (by simp [hc])
  have hapr := hpl.apart hap
  have hokr : ∀ c ∈ l₁ ++ (remainder b allocEnd ++ l₂), BlockOk c := by
    intro c hc
    obtain hc | hc := mem_append.mp hc
    · exact hok1 c hc
    · obtain hc | hc := mem_append.mp hc
      · exact hpl.blockOk_remainder hb c hc
      · exact hok2 c hc
  have hself := not_contains_of_apart (w := b.addr) hap le_rfl
    (by have := hb.size_pos; simp only [Block.stop]; omega)
  have hl₁b : ∀ c ∈ l₁, b.addr ≠ c.addr ∧ b.addr ≠ c.addr + 8 := fun c hc =>
    not_header (hok1 c hc) (hself c (mem_append_left _ hc))
  obtain ⟨s, hseg1, hs, hb0, hbs, hseg2⟩ := (seg_append l₁).mp hseg
  split at hrun
  · rename_i hmin
    have hrem : remainder b allocEnd = [⟨allocEnd, b.stop - allocEnd⟩] := if_pos hmin
    have hal : (allocated b allocEnd).size = allocEnd - b.addr := by rw [allocated, if_pos hmin]
    have hend : b.addr + (allocEnd - b.addr) = allocEnd := by
      have := hpl.after; have := hpl.fits; omega
    rw [hend] at hrun
    rw [hrem] at hokr hapr ⊢
    have hrok := hokr ⟨allocEnd, b.stop - allocEnd⟩ (by simp)
    have hclr : ∀ c ∈ l₁ ++ l₂, Clear ⟨allocEnd, b.stop - allocEnd⟩ c := by
      intro c hc
      obtain ⟨-, hr2, hrc⟩ := pairwise_append.mp hapr
      obtain hc | hc := mem_append.mp hc
      · exact clear_of_disjoint hrok (hok1 c hc) (Or.inl (hrc c hc _ (by simp)).le)
      · exact clear_of_disjoint hrok (hok2 c hc) (Or.inr ((pairwise_cons.mp hr2).1 c hc).le)
    have hsb : SameBut [⟨allocEnd, b.stop - allocEnd⟩] (h.setSize b.addr (allocEnd - b.addr)).mem
        ((h.setSize b.addr (allocEnd - b.addr)).setHeader allocEnd (b.stop - allocEnd)
          (h.next b.addr)).mem := sameBut_setHeader
    have hl1 := hsb.seg (seg_write (v := allocEnd - b.addr) hseg1 hok1
      fun c hc => hself c (mem_append_left _ hc)) fun c hc => hclr c (mem_append_left _ hc)
    have hl2 : Seg _ _ (⟨allocEnd, b.stop - allocEnd⟩ :: l₂) 0 :=
      seg_setHeader hrok.ne_zero (seg_write (v := allocEnd - b.addr) hseg2 hok2
        fun c hc => hself c (mem_append_right _ hc))
        fun c hc => hclr c (mem_append_right _ hc)
    obtain ⟨hlink, hsbl⟩ := seg_link hl1 hl2 hokr hapr
    have hsize : b.addr ≠ allocEnd ∧ b.addr ≠ allocEnd + 8 := by
      have := hpl.after; have := hpl.fits; omega
    subst hrun
    refine ⟨hlink, ?_, fun w hw => ?_⟩
    · rw [size, hsbl _ hl₁b, hsb _ (by simpa using hsize), hal]
      simp [setSize, setWord]
    · have hwb := hw b (by simp)
      have hwr : w ≠ allocEnd ∧ w ≠ allocEnd + 8 := by
        have hrs := hrok.size_ge
        simp only [Block.stop] at hrs
        rw [Bool.eq_false_iff, ne_eq, Block.contains_iff] at hwb
        omega
      rw [hsbl w fun c hc => not_header (hok1 c hc) (hw c (mem_append_left _ hc)),
        hsb w (by simpa using hwr)]
      simp [setSize, setWord, (not_header hb hwb).1]
  · rename_i hmin
    have hrem : remainder b allocEnd = [] := if_neg hmin
    have hal : allocated b allocEnd = b := if_neg hmin
    rw [removeNext_eq hseg] at hrun
    rw [hrem] at hokr hapr ⊢
    obtain ⟨hlink, hsbl⟩ := seg_link hseg1 hseg2 hokr hapr
    subst hrun
    refine ⟨hlink, ?_, fun w hw => ?_⟩
    · rw [hal]
      exact (hsbl _ hl₁b).trans hbs
    · exact hsbl w fun c hc => not_header (hok1 c hc) (hw c (mem_append_left _ hc))

/-- **Carving**: the list without what was taken, the header recorded before the payload, and
nothing written outside the free blocks. -/
theorem carve_spec (hseg : Seg h.mem h.freeList (l₁ ++ b :: l₂) 0)
    (hok : ∀ c ∈ l₁ ++ b :: l₂, BlockOk c) (hap : Apart (l₁ ++ b :: l₂))
    (hpl : Placed b ptr needed allocEnd)
    (hrun : h' = h.carve (lastAddr 0 l₁) b.addr b.stop ptr allocEnd) :
    Seg h'.mem h'.freeList (l₁ ++ (remainder b allocEnd ++ l₂)) 0 ∧ h'.fromPayload ptr = b.addr ∧
      h'.size b.addr = (allocated b allocEnd).size ∧
      ∀ w, (∀ c ∈ l₁ ++ b :: l₂, c.contains w = false) → h'.mem w = h.mem w := by
  have hafter := hpl.after
  have hroom := hpl.room
  have hfits := hpl.fits
  have hinside := hpl.inside
  have hb := hok b (by simp)
  simp only [carve] at hrun
  generalize hh :
    (if minBlockSize ≤ b.stop - allocEnd then _ else h.removeNext (lastAddr 0 l₁)) = h1 at hrun
  obtain ⟨hseg1, hsize1, hout1⟩ := seg_unlink hseg hok hap hpl hh.symm
  have hlo : b.addr + 16 ≤ ptr - backptrSize := by simp only [backptrSize]; omega
  have hout := not_contains_of_apart (w := ptr - backptrSize) hap (by omega) (by omega)
  subst hrun
  refine ⟨seg_write hseg1 ?_ ?_, ?_, ?_, fun w hw => ?_⟩
  · intro c hc
    obtain hc | hc := mem_append.mp hc
    · exact hok c (mem_append_left _ hc)
    · obtain hc | hc := mem_append.mp hc
      · exact hpl.blockOk_remainder hb c hc
      · exact hok c (by simp [hc])
  · intro c hc
    obtain hc | hc := mem_append.mp hc
    · exact hout c (mem_append_left _ hc)
    · obtain hc | hc := mem_append.mp hc
      · unfold remainder at hc
        split at hc
        · obtain rfl := mem_singleton.mp hc
          rw [Bool.eq_false_iff, ne_eq, Block.contains_iff]
          simp only
          omega
        · cases hc
      · exact hout c (mem_append_right _ hc)
  · simp [fromPayload, setWord]
  · rw [← hsize1]
    simp only [size, setWord]
    rw [Function.update_of_ne (by omega)]
  · rw [← hout1 w hw]
    have hwb := hw b (by simp)
    rw [Bool.eq_false_iff, ne_eq, Block.contains_iff] at hwb
    simp only [Block.stop] at hinside
    simp only [setWord]
    rw [Function.update_of_ne (by omega)]

theorem max_blockAlign {align k : ℕ} (hk : align = 2 ^ k) : max align blockAlign = 2 ^ max k 3 := by
  rw [hk, show blockAlign = 2 ^ 3 from rfl]
  obtain hle | hle := le_total k 3
  · rw [max_eq_right hle, max_eq_right (Nat.pow_le_pow_right (by decide) hle)]
  · rw [max_eq_left hle, max_eq_left (Nat.pow_le_pow_right (by decide) hle)]

/-- An allocation that ends inside its block is placed there, aligned as asked. -/
theorem placed_of_place {size align k : ℕ} (hk : align = 2 ^ k)
    (hplace : place b.addr (max align blockAlign) (max size minAlloc) = some (ptr, allocEnd))
    (hle : allocEnd ≤ b.stop) : Placed b ptr (max size minAlloc) allocEnd ∧ ptr % align = 0 := by
  rw [max_blockAlign hk] at hplace
  obtain ⟨hmod, hafter, hfits, hend⟩ := place_some hplace
  have hdvd : ∀ j ≤ max k 3, ptr % 2 ^ j = 0 := fun j hj =>
    Nat.mod_eq_zero_of_dvd ((Nat.pow_dvd_pow 2 hj).trans (Nat.dvd_of_mod_eq_zero hmod))
  exact ⟨⟨hafter, le_max_right _ _, hfits, hend, hdvd 3 (le_max_right _ _), hle⟩,
    hk ▸ hdvd k (le_max_left _ _)⟩

/-- **`alloc_inner` returns null and changes nothing, or carves the payload's block out of a free
one.** -/
theorem allocInner_some {free : List Block} {size align k : ℕ}
    (hseg : Seg h.mem h.freeList free 0) (hok : ∀ c ∈ free, BlockOk c) (hap : Apart free)
    (hk : align = 2 ^ k) (hrun : h.allocInner size align = some (ptr, h')) :
    (ptr = 0 ∧ h' = h) ∨ ∃ l₁ b l₂ allocEnd, free = l₁ ++ b :: l₂ ∧
      Placed b ptr (max size minAlloc) allocEnd ∧ ptr % align = 0 ∧
      Seg h'.mem h'.freeList (l₁ ++ (remainder b allocEnd ++ l₂)) 0 ∧ h'.fromPayload ptr = b.addr ∧
      h'.size b.addr = (allocated b allocEnd).size ∧
      ∀ w, (∀ c ∈ free, c.contains w = false) → h'.mem w = h.mem w := by
  rcases firstFit_some free _ 0 _ hseg hrun with hnull |
    ⟨l₁, b, l₂, allocEnd, rfl, hplace, hle, hcarve⟩
  · exact Or.inl hnull
  · obtain ⟨hpl, hmod⟩ := placed_of_place hk hplace hle
    exact Or.inr ⟨l₁, b, l₂, allocEnd, rfl, hpl, hmod, carve_spec hseg hok hap hpl hcarve⟩

end Heap

end Bedrock
