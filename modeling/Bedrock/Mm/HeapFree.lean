import Bedrock.Lib.Bits
import Bedrock.Mm.Heap

/-!
# Mm/HeapFree — freeing is coalescing insertion

On a well-formed free list `push_free` is `insertFree`: the walk finds the two neighbours of the
block, and each of the two coalescing steps puts a block in front of what follows it.

    l₁ -- p   b   l₂      ↦      l₁ ++ joinRight p (joinRight b l₂)

`pushFree_spec` says so for the words in memory, and that only header words were written.
-/

namespace Bedrock

open List Option

/-- A block the heap works with: `is_valid`, aligned, and not at the null pointer. -/
structure BlockOk (b : Block) : Prop where
  min : minBlockSize ≤ b.size
  max : b.size ≤ maxBlockSize
  size_mod : b.size % 8 = 0
  addr_mod : b.addr % 8 = 0
  ne_zero : b.addr ≠ 0
  stop_lt : b.addr + b.size < usizeBound

namespace BlockOk

variable {b c : Block}

theorem size_ge (h : BlockOk b) : 32 ≤ b.size := h.min

theorem size_pos (h : BlockOk b) : 0 < b.size := by have := h.size_ge; omega

end BlockOk

/-- The headers of two blocks do not overlap. -/
def Clear (b c : Block) : Prop := b.addr + 16 ≤ c.addr ∨ c.addr + 16 ≤ b.addr

theorem clear_of_disjoint {b c : Block} (hb : BlockOk b) (hc : BlockOk c)
    (h : c.stop ≤ b.addr ∨ b.stop ≤ c.addr) : Clear b c := by
  have := hb.size_ge
  have := hc.size_ge
  simp only [Block.stop] at h
  unfold Clear
  omega

theorem Clear.words {b c : Block} (hc : Clear b c) (w : ℕ) (hw : w = b.addr ∨ w = b.addr + 8) :
    w ≠ c.addr ∧ w ≠ c.addr + 8 := by
  unfold Clear at hc
  omega

namespace Heap

variable {h h' h₁ : Heap} {a v w prev cur block : ℕ} {b c p : Block} {l l₁ l₂ rest : List Block}

theorem isValid_iff : h.isValid a = true ↔ minBlockSize ≤ h.size a ∧ h.size a % blockAlign = 0 ∧
    a + h.size a < usizeBound ∧ h.size a ≤ maxBlockSize := by
  unfold isValid
  constructor
  · intro hv
    split at hv
    · cases hv
    split at hv
    · cases hv
    split at hv
    · cases hv
    split at hv
    · cases hv
    split at hv
    · cases hv
    rename_i h1 h2 h3 _ h5
    exact ⟨by omega, by simpa using h2, by omega, by omega⟩
  · rintro ⟨h1, h2, h3, h4⟩
    rw [if_neg (by omega), if_neg (by omega), if_neg (by omega), if_neg (by omega),
      if_neg (by omega)]

theorem isValid_of_ok (hb : BlockOk b) (hs : h.size b.addr = b.size) : h.isValid b.addr = true :=
  isValid_iff.mpr ⟨hs ▸ hb.min, hs ▸ hb.size_mod, hs ▸ hb.stop_lt, hs ▸ hb.max⟩

theorem stop_of_ok (hb : BlockOk b) (hs : h.size b.addr = b.size) : h.stop b.addr = b.stop := by
  unfold stop
  rw [hs, if_pos hb.stop_lt]
  rfl

/-! ## The insertion point -/

/-- The pointer to the first block of a list. -/
def headAddr : List Block → ℕ
  | [] => 0
  | b :: _ => b.addr

/-- The pointer to the last block of a list, or `prev` if there is none. -/
def lastAddr (prev : ℕ) : List Block → ℕ
  | [] => prev
  | b :: l => lastAddr b.addr l

@[simp] theorem lastAddr_concat : ∀ (l : List Block) (prev : ℕ), lastAddr prev (l ++ [p]) = p.addr
  | [], _ => rfl
  | b :: l, _ => lastAddr_concat l b.addr

theorem headAddr_eq (hseg : Seg h.mem cur l 0) : cur = headAddr l := by
  cases l with
  | nil => exact hseg
  | cons b l => exact hseg.1

theorem findSlot_stop (steps : ℕ) (hge : ¬(cur ≠ 0 ∧ cur < block)) :
    findSlot block steps h prev cur = some (h, prev, cur) := by
  cases steps <;> rw [findSlot, if_neg hge]

/-- **The walk stops between the blocks below and the blocks above**, and changes nothing. -/
theorem findSlot_some : ∀ (l : List Block) (steps prev cur : ℕ) {r : Heap × ℕ × ℕ},
    Seg h.mem cur l 0 → (∀ c ∈ l, h.isValid c.addr = true) →
    findSlot block steps h prev cur = some r →
    ∃ l₁ l₂, l = l₁ ++ l₂ ∧ (∀ c ∈ l₁, c.addr < block) ∧ (∀ c ∈ l₂.head?, block ≤ c.addr) ∧
      r = (h, lastAddr prev l₁, headAddr l₂)
  | [], steps, prev, cur, r, hseg, _, hrun => by
    obtain rfl : cur = 0 := hseg
    rw [findSlot_stop steps (by simp)] at hrun
    exact ⟨[], [], rfl, by simp, by simp, (some.inj hrun).symm⟩
  | b :: l, steps, prev, cur, r, hseg, hval, hrun => by
    obtain ⟨rfl, h0, hsz, hrest⟩ := hseg
    by_cases hlt : b.addr ≠ 0 ∧ b.addr < block
    · cases steps with
      | zero => rw [findSlot, if_pos hlt] at hrun; cases hrun
      | succ steps =>
        rw [findSlot, if_pos hlt, if_pos (hval b (by simp))] at hrun
        obtain ⟨l₁, l₂, rfl, h1, h2, rfl⟩ := findSlot_some l steps b.addr (h.next b.addr) hrest
          (fun c hc => hval c (mem_cons_of_mem b hc)) hrun
        refine ⟨b :: l₁, l₂, rfl, ?_, h2, rfl⟩
        intro c hc
        obtain rfl | hc := mem_cons.mp hc
        · exact hlt.2
        · exact h1 c hc
    · rw [findSlot_stop steps hlt] at hrun
      refine ⟨[], b :: l, rfl, by simp, ?_, (some.inj hrun).symm⟩
      intro c hc
      obtain rfl : b = c := by simpa using hc
      omega

/-! ## Joining in memory -/

/-- `mem'` differs from `mem` at most in the header words of the blocks of `l`. -/
def SameBut (l : List Block) (mem mem' : ℕ → ℕ) : Prop :=
  ∀ w, (∀ b ∈ l, w ≠ b.addr ∧ w ≠ b.addr + 8) → mem' w = mem w

theorem coalescedSize_some {m n k : ℕ} (hk : coalescedSize m n = some k) :
    k = m + n ∧ m + n < usizeBound ∧ m + n ≤ maxBlockSize := by
  unfold coalescedSize at hk
  split_ifs at hk
  · exact ⟨(some.inj hk).symm, by omega, by omega⟩

/-- The size and next words of a block are rewritten, and the rest of the list follows. -/
theorem seg_setHeader {n q : ℕ} (h0 : b.addr ≠ 0) (hrest : Seg h.mem q rest 0)
    (hcl : ∀ c ∈ rest, Clear b c) :
    Seg (h.setHeader b.addr n q).mem b.addr (⟨b.addr, n⟩ :: rest) 0 := by
  refine ⟨rfl, h0, ?_, ?_⟩
  · simp [setHeader, setSize, setNext, setWord]
  · have hnext : (h.setHeader b.addr n q).mem (b.addr + 8) = q := by
      simp [setHeader, setNext, setWord]
    rw [hnext]
    exact (hrest.update fun c hc => (hcl c hc).words _ (Or.inl rfl)).update
      fun c hc => (hcl c hc).words _ (Or.inr rfl)

theorem sameBut_setHeader {n q : ℕ} : SameBut [b] h.mem (h.setHeader b.addr n q).mem := by
  intro w hw
  obtain ⟨h1, h2⟩ := hw b (by simp)
  simp [setHeader, setNext, setSize, setWord, h1, h2]

/-- …the next word alone. -/
theorem setNext_eq_setHeader {q : ℕ} (hs : h.size a = v) : h.setNext a q = h.setHeader a v q := by
  have : h.setSize a v = h := by
    unfold setSize setWord
    rw [← hs, size, Function.update_eq_self]
  rw [setHeader, this]

/-- **Putting a block in front of what follows it**, joined if they touch: what both coalescing
steps of `push_free` do. -/
theorem seg_join {q : Block} (hp : BlockOk p) (hok : ∀ c ∈ q :: rest, BlockOk c)
    (hs : h.size p.addr = p.size) (hseg : Seg h.mem q.addr (q :: rest) 0)
    (hcl : ∀ c ∈ q :: rest, Clear p c) (hrun : (if h.stop p.addr = q.addr then
        (coalescedSize (h.size p.addr) (h.size q.addr)).map fun n =>
          (h.setSize p.addr n).setNext p.addr (h.next q.addr)
      else some (h.setNext p.addr q.addr)) = some h') :
    Seg h'.mem p.addr (joinRight p (q :: rest)) 0 ∧ SameBut [p] h.mem h'.mem ∧
      h'.freeList = h.freeList ∧ ∀ c ∈ joinRight p (q :: rest), BlockOk c := by
  have hq := hok q (by simp)
  have hqs : h.size q.addr = q.size := hseg.2.2.1
  rw [stop_of_ok hp hs, hs, hqs] at hrun
  rw [joinRight_cons]
  split at hrun
  · rename_i heq
    rw [if_pos heq]
    obtain ⟨n, hn, rfl⟩ := map_eq_some_iff.mp hrun
    obtain ⟨rfl, hlt, hmax⟩ := coalescedSize_some hn
    refine ⟨?_, sameBut_setHeader, rfl, fun c hc => ?_⟩
    · exact seg_setHeader hp.ne_zero hseg.2.2.2 fun c hc => hcl c (mem_cons_of_mem q hc)
    · obtain rfl | hc := mem_cons.mp hc
      · have h1 := hp.min
        have h2 := hp.size_mod
        have h3 := hq.size_mod
        have h4 := hq.stop_lt
        simp only [Block.stop] at heq
        exact ⟨by simp only; omega, hmax, by simp only; omega, hp.addr_mod, hp.ne_zero,
          by simp only; omega⟩
      · exact hok c (mem_cons_of_mem q hc)
  · rename_i hne
    rw [if_neg hne]
    cases hrun
    rw [setNext_eq_setHeader hs]
    refine ⟨seg_setHeader hp.ne_zero hseg hcl, sameBut_setHeader, rfl, fun c hc => ?_⟩
    obtain rfl | hc := mem_cons.mp hc
    · exact hp
    · exact hok c hc

theorem SameBut.trans {mem1 mem2 mem3 : ℕ → ℕ} (h₁₂ : SameBut l mem1 mem2)
    (h₂₃ : SameBut l mem2 mem3) : SameBut l mem1 mem3 :=
  fun w hw => (h₂₃ w hw).trans (h₁₂ w hw)

theorem SameBut.mono {mem mem' : ℕ → ℕ} (hsb : SameBut l₁ mem mem') (hsub : l₁ ⊆ l₂) :
    SameBut l₂ mem mem' :=
  fun w hw => hsb w fun b hb => hw b (hsub hb)

theorem SameBut.seg {mem mem' : ℕ → ℕ} {r q : ℕ} (hsb : SameBut [b] mem mem')
    (hseg : Seg mem r l q) (hcl : ∀ c ∈ l, Clear b c) : Seg mem' r l q := by
  refine hseg.congr l fun c hc => ⟨hsb _ fun d hd => ?_, hsb _ fun d hd => ?_⟩
  all_goals
    obtain rfl := mem_singleton.mp hd
    have := hcl c hc
    unfold Clear at this
    omega

theorem SameBut.size_eq {mem mem' : ℕ → ℕ} (hsb : SameBut [b] mem mem') (hcl : Clear b c) :
    mem' c.addr = mem c.addr := by
  refine hsb _ fun d hd => ?_
  obtain rfl := mem_singleton.mp hd
  unfold Clear at hcl
  omega

/-- The first coalescing step: the block, in front of the blocks above it. -/
theorem coalesceNext_some (hb : BlockOk b) (hs : h.size b.addr = b.size) (hn : h.next b.addr = 0)
    (hok : ∀ c ∈ l, BlockOk c) (hseg : Seg h.mem (headAddr l) l 0) (hcl : ∀ c ∈ l, Clear b c)
    (hrun : h.coalesceNext b.addr (headAddr l) = some h') :
    Seg h'.mem b.addr (joinRight b l) 0 ∧ SameBut [b] h.mem h'.mem ∧ h'.freeList = h.freeList ∧
      (∀ c ∈ joinRight b l, BlockOk c) := by
  cases l with
  | nil =>
    obtain rfl : h = h' := some.inj hrun
    refine ⟨⟨rfl, hb.ne_zero, hs, hn⟩, fun _ _ => rfl, rfl, fun c hc => ?_⟩
    obtain rfl := mem_singleton.mp hc
    exact hb
  | cons c l =>
    have h0 : headAddr (c :: l) ≠ 0 := (hok c (by simp)).ne_zero
    rw [coalesceNext, if_neg h0] at hrun
    exact seg_join hb hok hs hseg hcl hrun

theorem joinRight_head (b : Block) (l : List Block) :
    ∃ q rest, joinRight b l = q :: rest ∧ q.addr = b.addr := by
  cases l with
  | nil => exact ⟨b, [], rfl, rfl⟩
  | cons c l =>
    rw [joinRight_cons]
    split
    · exact ⟨_, _, rfl, rfl⟩
    · exact ⟨_, _, rfl, rfl⟩

theorem clear_joinRight (hb : Clear p b) (hl : ∀ c ∈ l, Clear p c) :
    ∀ c ∈ joinRight b l, Clear p c := by
  intro c hc
  obtain h | ⟨d, hd, h⟩ := addr_of_mem_joinRight hc
  · unfold Clear at ⊢
    rwa [h]
  · have := hl d hd
    unfold Clear at ⊢
    rwa [h]

/-- The second: the preceding block, in front of the result of the first. -/
theorem coalescePrev_some (hp : BlockOk p) (hs : h.size p.addr = p.size)
    (hok : ∀ c ∈ joinRight b l, BlockOk c) (hseg : Seg h.mem b.addr (joinRight b l) 0)
    (hcl : ∀ c ∈ joinRight b l, Clear p c) (hrun : h.coalescePrev p.addr b.addr = some h') :
    Seg h'.mem p.addr (joinRight p (joinRight b l)) 0 ∧ SameBut [p] h.mem h'.mem ∧
      h'.freeList = h.freeList ∧ (∀ c ∈ joinRight p (joinRight b l), BlockOk c) := by
  obtain ⟨q, rest, hq, hqa⟩ := joinRight_head b l
  rw [hq] at hok hseg hcl ⊢
  rw [← hqa] at hseg hrun
  rw [coalescePrev, if_neg hp.ne_zero] at hrun
  exact seg_join hp hok hs hseg hcl hrun

/-! ## The whole of `push_free` -/

theorem dropInvalid_eq (hval : ∀ c ∈ l, h.isValid c.addr = true) :
    h.dropInvalid prev (headAddr l) = (h, headAddr l) := by
  unfold dropInvalid
  cases l with
  | nil => rw [if_neg (by simp [headAddr])]
  | cons c l => rw [if_neg (by simp [headAddr, hval c (by simp)])]

/-- In address order, a lower bound on the first block bounds them all. -/
theorem le_of_head (hap : Apart l) (hhead : ∀ c ∈ l.head?, a ≤ c.addr) : ∀ c ∈ l, a ≤ c.addr := by
  cases l with
  | nil => simp
  | cons b l =>
    have hb := hhead b rfl
    intro c hc
    obtain rfl | hc := mem_cons.mp hc
    · exact hb
    · have := (pairwise_cons.mp hap).1 c hc
      simp only [Block.stop] at this
      omega

/-- **On a well-formed list `push_free` is coalescing insertion**; it writes header words only. -/
theorem pushFree_some {free : List Block} (hseg : Seg h.mem h.freeList free 0) (hap : Apart free)
    (hok : ∀ c ∈ free, BlockOk c) (hb : BlockOk b) (hs : h.size b.addr = b.size)
    (hdis : ∀ c ∈ free, c.stop ≤ b.addr ∨ b.stop ≤ c.addr) (hrun : h.pushFree b.addr = some h') :
    Seg h'.mem h'.freeList (insertFree b free) 0 ∧ (∀ c ∈ insertFree b free, BlockOk c) ∧
      SameBut (b :: free) h.mem h'.mem := by
  have hcl : ∀ c ∈ free, Clear b c := fun c hc => clear_of_disjoint hb (hok c hc) (hdis c hc)
  -- the block's own next word is cleared first
  have hset : h.setNext b.addr 0 = h.setHeader b.addr b.size 0 := setNext_eq_setHeader hs
  have hsb0 : SameBut [b] h.mem (h.setNext b.addr 0).mem := hset ▸ sameBut_setHeader
  have hseg0 := hsb0.seg hseg hcl
  have hs0 : (h.setNext b.addr 0).size b.addr = b.size := by
    rw [hset]; simp [setHeader, setNext, setSize, setWord, size]
  have hn0 : (h.setNext b.addr 0).next b.addr = 0 := by simp [setNext, setWord, next]
  have hval0 : ∀ c ∈ free, (h.setNext b.addr 0).isValid c.addr = true := fun c hc =>
    isValid_of_ok (hok c hc) (hseg0.size_eq free c hc)
  unfold pushFree at hrun
  rw [if_neg (by rw [isValid_of_ok hb hs]; decide), bind_eq_some_iff] at hrun
  obtain ⟨r, hslot, hrun⟩ := hrun
  obtain ⟨l₁, l₂, rfl, hlow, hhigh, rfl⟩ := findSlot_some free _ 0 h.freeList hseg0 hval0 hslot
  have hl2 : ∀ c ∈ l₂, c ∈ l₁ ++ l₂ := fun c hc => mem_append_right l₁ hc
  have hge := le_of_head (pairwise_append.mp hap).2.1 hhigh
  obtain ⟨r, hseg1, hseg2⟩ := (seg_append l₁).mp hseg0
  rw [headAddr_eq hseg2] at hseg2
  simp only [dropInvalid_eq fun c hc => hval0 c (hl2 c hc)] at hrun
  split_ifs at hrun
  obtain ⟨h₁, hnext, hprev⟩ := bind_eq_some_iff.mp hrun
  obtain ⟨hs1, hsb1, hfl1, hok1⟩ := coalesceNext_some hb hs0 hn0 (fun c hc => hok c (hl2 c hc))
    hseg2 (fun c hc => hcl c (hl2 c hc)) hnext
  obtain rfl | ⟨l₁, p, rfl⟩ := l₁.eq_nil_or_concat'
  · -- no block below: the list now starts with the block
    cases hprev
    rw [nil_append, insertFree_of_le hge]
    exact ⟨hs1, hok1, (hsb0.trans hsb1).mono (by simp)⟩
  · have hp : p ∈ l₁ ++ [p] ++ l₂ := by simp
    have hlow1 : ∀ c ∈ l₁, c.addr < b.addr := fun c hc => hlow c (by simp [hc])
    have hpl1 : ∀ c ∈ l₁, Clear p c := fun c hc =>
      clear_of_disjoint (hok p hp) (hok c (by simp [hc]))
        (Or.inl (((pairwise_append.mp hap).1 |> pairwise_append.mp).2.2 c hc p
          (by simp)).le)
    have hpl2 : ∀ c ∈ l₂, Clear p c := fun c hc =>
      clear_of_disjoint (hok p hp) (hok c (hl2 c hc))
        (Or.inr ((pairwise_append.mp hap).2.2 p (by simp) c hc).le)
    have hpb : Clear p b := by
      have := hcl p hp
      unfold Clear at this ⊢
      omega
    obtain ⟨hseg1, -, hps, -⟩ := seg_concat.mp hseg1
    have hps1 : h₁.size p.addr = p.size := (hsb1.size_eq (hcl p hp)).trans hps
    rw [lastAddr_concat] at hprev
    obtain ⟨hs2, hsb2, hfl2, hok2⟩ := coalescePrev_some (hok p hp) hps1 hok1 hs1
      (clear_joinRight hpb hpl2) hprev
    have hl1' : Seg h'.mem h'.freeList l₁ p.addr := by
      rw [hfl2, hfl1]
      exact hsb2.seg (hsb1.seg hseg1 fun c hc => hcl c (by simp [hc])) hpl1
    rw [append_assoc, singleton_append] at hap hok ⊢
    rw [insertFree_append l₁ hlow1 (hlow p (by simp)) hge hap fun c hc => (hok c hc).size_pos]
    refine ⟨(seg_append l₁).mpr ⟨p.addr, hl1', hs2⟩, fun c hc => ?_, ?_⟩
    · obtain hc | hc := mem_append.mp hc
      · exact hok c (mem_append_left _ hc)
      · exact hok2 c hc
    · exact ((hsb0.trans hsb1).mono (by simp)).trans (hsb2.mono (by simp))

end Heap

end Bedrock
