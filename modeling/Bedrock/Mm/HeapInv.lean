import Bedrock.Mm.HeapAlloc

/-!
# Mm/HeapInv — the heap's representation invariant

Free blocks and live blocks together cover every byte of the regions once: `add_region` adds a
block, `alloc_inner` cuts one in two, `push_free` moves one back and joins it to its neighbours.
Whatever the heap writes lies in the block it moves, and whatever an owner writes lies in its own
payload, so every header and every back-pointer is still there when it is next read.
-/

namespace Bedrock

open List Option

namespace HeapRun

/-- **What the heap promises in a state**, `free` being the blocks on its free list: they are in
strict address order with gaps between them, each is valid, free and live blocks own every byte of
the regions once and no other byte, each live block is what its header says, and each payload is
aligned and lies in its own block after the header and the back-pointer. -/
structure Represents (s : State) (free : List Block) : Prop where
  chain : Seg s.heap.mem s.heap.freeList free 0
  sorted : free.Pairwise fun b c => b.stop < c.addr
  valid : ∀ b ∈ free, s.heap.isValid b.addr = true
  partition : ∀ x, cover (free ++ s.live.map Live.block) x
    = if ∃ r ∈ s.regions, r.contains x = true then 1 else 0
  header : ∀ l ∈ s.live, s.heap.fromPayload l.ptr = l.block.addr ∧
    s.heap.size l.block.addr = l.block.size
  payload : ∀ l ∈ s.live, l.ptr % l.align = 0 ∧
    l.block.addr + headerSize + backptrSize ≤ l.ptr ∧ l.ptr + max l.size minAlloc ≤ l.block.stop

/-- A live allocation's header, back-pointer and payload. -/
structure LiveOk (h : Heap) (l : Live) : Prop where
  ok : BlockOk l.block
  back : h.fromPayload l.ptr = l.block.addr
  size : h.size l.block.addr = l.block.size
  after : l.block.addr + 24 ≤ l.ptr
  inside : l.ptr + max l.size minAlloc ≤ l.block.stop
  aligned : l.ptr % l.align = 0
  ptr_mod : l.ptr % 8 = 0

structure Inv (s : State) (free : List Block) : Prop where
  chain : Seg s.heap.mem s.heap.freeList free 0
  apart : Apart free
  ok : ∀ b ∈ free, BlockOk b
  live : ∀ l ∈ s.live, LiveOk s.heap l
  owners : ∀ x, cover free x + cover (s.live.map Live.block) x = cover s.regions x
  disjoint : ∀ x, cover s.regions x ≤ 1

variable {s s' : State} {free : List Block} {h h' : Heap} {b c : Block} {l l' : Live} {x w v : ℕ}

theorem Inv.represents (hi : Inv s free) : Represents s free where
  chain := hi.chain
  sorted := hi.apart
  valid b hb := Heap.isValid_of_ok (hi.ok b hb) (hi.chain.size_eq free b hb)
  partition x := by
    rw [cover_append, hi.owners x]
    split
    · rename_i hr
      obtain ⟨r, hr, hx⟩ := hr
      exact le_antisymm (hi.disjoint x) (one_le_cover hr hx)
    · rename_i hno
      rw [cover_eq_zero]
      intro r hr
      by_contra hx
      exact hno ⟨r, hr, by simpa using hx⟩
  header l hl := ⟨(hi.live l hl).back, (hi.live l hl).size⟩
  payload l hl := by
    have := (hi.live l hl).after
    refine ⟨(hi.live l hl).aligned, ?_, (hi.live l hl).inside⟩
    simp only [headerSize, backptrSize]
    omega

/-! ## Frames -/

/-- A live allocation depends on the words of its own block only. -/
theorem LiveOk.congr (hl : LiveOk h l)
    (hmem : ∀ w, l.block.contains w = true → w < l.ptr → h'.mem w = h.mem w) : LiveOk h' l := by
  have h1 := hl.after
  have h2 := hl.inside
  simp only [Block.stop] at h2
  refine ⟨hl.ok, ?_, ?_, h1, hl.inside, hl.aligned, hl.ptr_mod⟩
  · rw [← hl.back]
    exact hmem _ (Block.contains_iff.mpr (by simp only [backptrSize]; omega))
      (by simp only [backptrSize]; omega)
  · rw [← hl.size]
    exact hmem _ (Block.contains_iff.mpr (by omega)) (by omega)

/-- A word of a live block lies in no free block… -/
theorem Inv.not_free (hi : Inv s free) (hl : l ∈ s.live) (hw : l.block.contains w = true) :
    ∀ c ∈ free, c.contains w = false := by
  have h1 := one_le_cover (mem_map_of_mem (f := Live.block) hl) hw
  have h2 := hi.owners w
  have h3 := hi.disjoint w
  exact cover_eq_zero.mp (by omega)

theorem cover_erase (hl : l ∈ s.live) (x : ℕ) : cover (s.live.map Live.block) x
    = (l.block.contains x).toNat + cover ((s.live.erase l).map Live.block) x := by
  rw [cover_perm ((perm_cons_erase hl).map Live.block), map_cons, cover_cons]

/-- …and in no other live block. -/
theorem Inv.not_live (hi : Inv s free) (hl : l ∈ s.live) (hl' : l' ∈ s.live.erase l)
    (hw : l'.block.contains w = true) : l.block.contains w = false := by
  have h1 := cover_erase hl w
  have h2 := hi.owners w
  have h3 := hi.disjoint w
  refine not_contains_of_cover (l := (s.live.erase l).map Live.block) ?_
    (mem_map_of_mem (f := Live.block) hl') hw
  rw [cover_cons]
  omega

/-- Writes to free blocks leave the live allocations as they are. -/
theorem Inv.live_congr (hi : Inv s free) (hl : l ∈ s.live)
    (hmem : ∀ w, (∀ c ∈ free, c.contains w = false) → h'.mem w = s.heap.mem w) : LiveOk h' l :=
  (hi.live l hl).congr fun w hw _ => hmem w (hi.not_free hl hw)

/-! ## Every step -/

theorem inv_empty (mem : ℕ → ℕ) : Inv (State.empty mem) [] where
  chain := rfl
  apart := .nil
  ok b hb := by cases hb
  live l hl := by cases hl
  owners x := rfl
  disjoint x := Nat.zero_le _

/-- A block that no free block overlaps is freed: the words outside the blocks stay. -/
theorem pushFree_free (hseg : Seg h.mem h.freeList free 0) (hap : Apart free)
    (hok : ∀ c ∈ free, BlockOk c) (hb : BlockOk b) (hs : h.size b.addr = b.size)
    (hdis : ∀ c ∈ free, ∀ x, c.contains x = true → b.contains x = false)
    (hrun : h.pushFree b.addr = some h') :
    Seg h'.mem h'.freeList (insertFree b free) 0 ∧ Apart (insertFree b free) ∧
      (∀ c ∈ insertFree b free, BlockOk c) ∧
      ∀ w, (∀ c ∈ b :: free, c.contains w = false) → h'.mem w = h.mem w := by
  have hsep : ∀ c ∈ free, c.stop ≤ b.addr ∨ b.stop ≤ c.addr := fun c hc =>
    (before_or_after hb.size_pos (hok c hc).size_pos (hdis c hc)).symm
  obtain ⟨hs', hok', hsb⟩ := Heap.pushFree_some hseg hap hok hb hs hsep hrun
  refine ⟨hs', apart_insertFree hb.size_pos free hap (fun c hc => (hok c hc).size_pos) hsep, hok',
    fun w hw => hsb w fun c hc => Heap.not_header ?_ (hw c hc)⟩
  obtain rfl | hc := mem_cons.mp hc
  · exact hb
  · exact hok c hc

/-- A region that no free block overlaps becomes a free block. -/
theorem addRegion_free (hseg : Seg h.mem h.freeList free 0) (hap : Apart free)
    (hok : ∀ c ∈ free, BlockOk c) (hb : BlockOk b)
    (hdis : ∀ c ∈ free, ∀ x, c.contains x = true → b.contains x = false)
    (hrun : h.addRegion b.addr b.size = some h') :
    Seg h'.mem h'.freeList (insertFree b free) 0 ∧ Apart (insertFree b free) ∧
      (∀ c ∈ insertFree b free, BlockOk c) ∧
      ∀ w, (∀ c ∈ b :: free, c.contains w = false) → h'.mem w = h.mem w := by
  have hsb : Heap.SameBut [b] h.mem (h.setHeader b.addr b.size 0).mem := Heap.sameBut_setHeader
  have hcl : ∀ c ∈ free, Clear b c := fun c hc =>
    clear_of_disjoint hb (hok c hc)
      (before_or_after hb.size_pos (hok c hc).size_pos (hdis c hc)).symm
  obtain ⟨hseg', hap', hok', hout⟩ := pushFree_free (h := h.setHeader b.addr b.size 0)
    (hsb.seg hseg hcl) hap hok hb
    (by simp [Heap.setHeader, Heap.setNext, Heap.setSize, Heap.setWord, Heap.size]) hdis hrun
  refine ⟨hseg', hap', hok', fun w hw => (hout w hw).trans (hsb w fun c hc => ?_)⟩
  obtain rfl := mem_singleton.mp hc
  exact Heap.not_header hb (hw c mem_cons_self)

/-- The condition on a region: a size the heap accepts as a block, and not at the null pointer. -/
def RegionOk : Action → Prop
  | .addRegion start size => start ≠ 0 ∧ minBlockSize ≤ size ∧ size ≤ maxBlockSize ∧
      size % 8 = 0 ∧ start + size < usizeBound
  | _ => True

instance : ∀ a, Decidable (RegionOk a)
  | .addRegion _ _ => inferInstanceAs (Decidable (_ ∧ _ ∧ _ ∧ _ ∧ _))
  | .alloc _ _ | .free _ | .write _ _ _ => isTrue trivial

theorem Inv.addRegion {start size : ℕ} (hi : Inv s free) (hreg : RegionOk (.addRegion start size))
    (hmod : start % 8 = 0) (hsep : ∀ r ∈ s.regions, start + size < r.addr ∨ r.stop < start)
    (hrun : s.heap.addRegion start size = some h') :
    Inv { s with heap := h', regions := ⟨start, size⟩ :: s.regions }
      (insertFree ⟨start, size⟩ free) := by
  obtain ⟨h0, hmin, hmax, hsmod, hlt⟩ := hreg
  have hb : BlockOk ⟨start, size⟩ := ⟨hmin, hmax, hsmod, hmod, h0, hlt⟩
  -- no byte of the new region has an owner yet
  have hnew : ∀ x, Block.contains ⟨start, size⟩ x = true → cover s.regions x = 0 := by
    intro x hx
    rw [cover_eq_zero]
    intro r hr
    rw [Bool.eq_false_iff, ne_eq, Block.contains_iff]
    rw [Block.contains_iff] at hx
    have := hsep r hr
    simp only [Block.stop] at this hx
    omega
  have hfree : ∀ x, Block.contains ⟨start, size⟩ x = true → ∀ c ∈ free, c.contains x = false := by
    intro x hx
    have h1 := hi.owners x
    rw [hnew x hx] at h1
    exact cover_eq_zero.mp (by omega)
  have hlive : ∀ x, Block.contains ⟨start, size⟩ x = true →
      ∀ l ∈ s.live, l.block.contains x = false := by
    intro x hx l hl
    have h1 := hi.owners x
    rw [hnew x hx] at h1
    exact cover_eq_zero.mp (show cover (s.live.map Live.block) x = 0 by omega) _
      (mem_map_of_mem hl)
  have hdis : ∀ c ∈ free, ∀ x, c.contains x = true → Block.contains ⟨start, size⟩ x = false := by
    intro c hc x hx
    by_contra hno
    rw [hfree x (by simpa using hno) c hc] at hx
    cases hx
  obtain ⟨hseg, hap, hok, hout⟩ := addRegion_free hi.chain hi.apart hi.ok hb hdis hrun
  refine ⟨hseg, hap, hok, fun l hl => (hi.live l hl).congr fun w hw _ => ?_, fun x => ?_,
    fun x => ?_⟩
  · have hwn : Block.contains ⟨start, size⟩ w = false := by
      by_contra hno
      rw [hlive w (by simpa using hno) l hl] at hw
      cases hw
    refine hout w fun c hc => ?_
    obtain rfl | hc := mem_cons.mp hc
    · exact hwn
    · exact hi.not_free hl hw c hc
  · have := hi.owners x
    rw [cover_insertFree, cover_cons, cover_cons]
    simp only
    omega
  · rw [cover_cons]
    cases hx : Block.contains ⟨start, size⟩ x with
    | true => rw [hnew x hx]; rfl
    | false => rw [Bool.toNat_false, Nat.zero_add]; exact hi.disjoint x

theorem Inv.alloc {size align k ptr : ℕ} (hi : Inv s free) (hk : align = 2 ^ k)
    (hrun : s.heap.allocInner size align = some (ptr, h')) :
    ∃ free', Inv (if ptr = 0 then { s with heap := h' }
      else { s with heap := h', live := ⟨ptr, size, align, blockOf h' ptr⟩ :: s.live }) free' := by
  rcases Heap.allocInner_some hi.chain hi.ok hi.apart hk hrun with ⟨rfl, rfl⟩ |
    ⟨l1, b, l2, allocEnd, rfl, hpl, hal, hseg, hback, hsize, hout⟩
  · exact ⟨free, hi⟩
  · have hafter := hpl.after
    have hb := hi.ok b (by simp)
    rw [if_neg (by omega)]
    have hblk : blockOf h' ptr = allocated b allocEnd := by
      unfold blockOf
      rw [hback, hsize, ← Placed.addr_allocated]
    refine ⟨l1 ++ (remainder b allocEnd ++ l2), hseg, hpl.apart hi.apart, fun c hc => ?_,
      fun l hl => ?_, fun x => ?_, hi.disjoint⟩
    · obtain hc | hc := mem_append.mp hc
      · exact hi.ok c (mem_append_left _ hc)
      · obtain hc | hc := mem_append.mp hc
        · exact hpl.blockOk_remainder hb c hc
        · exact hi.ok c (by simp [hc])
    · obtain rfl | hl := mem_cons.mp hl
      · have hstop := hpl.le_stop_allocated
        refine ⟨?_, ?_, ?_, ?_, ?_, hal, hpl.ptr_mod⟩
        · simp only [hblk]; exact hpl.blockOk_allocated hb
        · simp only [hblk, hback, Placed.addr_allocated]
        · simp only [hblk, Placed.addr_allocated, hsize]
        · simp only [hblk, Placed.addr_allocated]; exact hafter
        · simp only [hblk]
          exact hpl.fits.trans hstop
      · exact hi.live_congr hl hout
    · have h1 := hi.owners x
      have h2 := hpl.cover_eq x
      simp only [map_cons, cover_cons, cover_append, hblk] at h1 ⊢
      omega

theorem Inv.release (hi : Inv s free) (hl : l ∈ s.live)
    (hrun : s.heap.pushFree (s.heap.fromPayload l.ptr) = some h') :
    Inv { s with heap := h', live := s.live.erase l } (insertFree l.block free) := by
  have hlo := hi.live l hl
  rw [hlo.back] at hrun
  have hdis : ∀ c ∈ free, ∀ x, c.contains x = true → l.block.contains x = false := by
    intro c hc x hx
    by_contra hno
    rw [hi.not_free hl (by simpa using hno) c hc] at hx
    cases hx
  obtain ⟨hseg, hap, hok, hout⟩ := pushFree_free hi.chain hi.apart hi.ok hlo.ok hlo.size hdis hrun
  refine ⟨hseg, hap, hok, fun l' hl' => ?_, fun x => ?_, hi.disjoint⟩
  · have hmem := mem_of_mem_erase hl'
    refine (hi.live l' hmem).congr fun w hw _ => hout w fun c hc => ?_
    obtain rfl | hc := mem_cons.mp hc
    · exact hi.not_live hl hl' hw
    · exact hi.not_free hmem hw c hc
  · have h1 := hi.owners x
    have h2 := cover_erase hl x
    rw [cover_insertFree, cover_cons]
    simp only
    omega

/-- An owner writes past its header and back-pointer, and in no other block. -/
theorem Inv.write {addr value : ℕ} (hi : Inv s free) (hl : l ∈ s.live) (hlo : l.ptr ≤ addr)
    (hhi : addr < l.ptr + max l.size minAlloc) :
    Inv { s with heap := s.heap.setWord addr value } free := by
  have hok := hi.live l hl
  have h1 := hok.after
  have h2 := hok.inside
  simp only [Block.stop] at h2
  have hw : l.block.contains addr = true := Block.contains_iff.mpr (by omega)
  refine ⟨Heap.seg_write hi.chain hi.ok (hi.not_free hl hw), hi.apart, hi.ok, fun l' hl' => ?_,
    hi.owners, hi.disjoint⟩
  obtain rfl | hne := eq_or_ne l' l
  · exact hok.congr fun w _ hlt => Function.update_of_ne (by omega) _ _
  · have hmem : l' ∈ s.live.erase l := (mem_erase_of_ne hne).mpr hl'
    refine (hi.live l' hl').congr fun w hw' _ => Function.update_of_ne ?_ _ _
    rintro rfl
    rw [hi.not_live hl hmem hw'] at hw
    cases hw

/-- **Every step keeps the invariant**, for some list of free blocks. -/
theorem step_inv {a : Action} (hi : ∃ free, Inv s free) (hreg : RegionOk a)
    (hstep : step s a = some s') : ∃ free, Inv s' free := by
  obtain ⟨free, hi⟩ := hi
  cases a with simp only [step, ite_none_right_eq_some, map_eq_some_iff] at hstep
  | addRegion start size =>
    obtain ⟨⟨hmod, hsep⟩, h, hrun, rfl⟩ := hstep
    exact ⟨_, hi.addRegion hreg hmod hsep hrun⟩
  | alloc size align =>
    obtain ⟨⟨⟨k, -, hk⟩, -⟩, ⟨ptr, h⟩, hrun, rfl⟩ := hstep
    exact hi.alloc hk hrun
  | free l =>
    obtain ⟨hl, h, hrun, rfl⟩ := hstep
    exact ⟨_, hi.release hl hrun⟩
  | write l addr value =>
    simp only [some.injEq] at hstep
    obtain ⟨⟨hl, -, hlo, hhi⟩, rfl⟩ := hstep
    exact ⟨free, hi.write hl hlo hhi⟩

/-- **In every run over regions the heap accepts, the representation invariant holds.** -/
theorem represents_of_run (mem : ℕ → ℕ) (as : List Action) (s : State)
    (hreg : RunMeets step (fun _ a => RegionOk a) (State.empty mem) as)
    (hrun : run step (State.empty mem) as = some s) : ∃ free, Represents s free := by
  obtain ⟨free, hi⟩ := run_invariant (fun s => ∃ free, Inv s free)
    (fun _ _ _ hi hr hs => step_inv hi hr hs) as ⟨[], inv_empty mem⟩ hreg hrun
  exact ⟨free, hi.represents⟩

/-- A region of 256 bytes, an allocation of 40 bytes aligned to 16, a write to it and its return. -/
def smallRun : List Action :=
  [.addRegion 4096 256, .alloc 40 16, .alloc 8 8, .write ⟨4128, 40, 16, ⟨4096, 72⟩⟩ 4136 7,
    .free ⟨4128, 40, 16, ⟨4096, 72⟩⟩]

/-- That run ends with one live allocation, represented. -/
theorem smallRun_represents :
    RunMeets step (fun _ a => RegionOk a) (State.empty fun _ => 0) smallRun ∧
    ∃ s, run step (State.empty fun _ => 0) smallRun = some s ∧ s.live.length = 1 ∧
      ∃ free, Represents s free := by
  have hreg : RunMeets step (fun _ a => RegionOk a) (.empty fun _ => 0) smallRun := by
    decide +kernel
  refine ⟨hreg, exists_of_any (fun s => s.live.length = 1) (by decide +kernel) fun s hs hlive => ?_⟩
  exact ⟨hlive, represents_of_run (fun _ => 0) smallRun s hreg hs⟩

/-- A region of 24 bytes is too small for a block: `add_region` drops it, and its bytes belong to
no block. -/
theorem shortRegion_not_represents :
    ∃ s, run step (State.empty fun _ => 0) [.addRegion 4096 24] = some s ∧
      ∀ free, ¬ Represents s free := by
  refine exists_of_any (fun s => s.heap.freeList = 0 ∧ s.live = [] ∧ s.regions = [⟨4096, 24⟩])
    (by decide +kernel) fun s _ hs free hrep => ?_
  obtain ⟨hfl, hlive, hregs⟩ := hs
  have hnil : free = [] := by
    cases free with
    | nil => rfl
    | cons b l =>
      have hc := hrep.chain
      rw [hfl] at hc
      exact absurd hc.1.symm hc.2.1
  have hp := hrep.partition 4096
  rw [hnil, hlive, hregs, if_pos ⟨_, mem_singleton.mpr rfl, by decide⟩] at hp
  simp at hp

end HeapRun

end Bedrock
