import Bedrock.Mm.HeapInv

/-!
# Mm/HeapGrow — whether `alloc_inner` returns, and whether growing the heap helps

The loop of `alloc_inner` computes where a block would put the allocation with checked additions;
when one of them overflows, the loop goes round again *on the same block*.  So the walk ends exactly
if no block at which an addition overflows comes before the first that fits (`returns_iff`).

When no block fits, the heap grows by a region of whole pages below the lowest one:

    | region: max(⌈size / 4096⌉ + 1, 16) pages | guard page | lowVaddr ⋯

The number of pages takes the size into account and not the alignment (`allocates_iff`).
-/

namespace Bedrock

open List Option

/-! ## The turns of the loop -/

namespace Heap

/-- What one turn of the loop comes to. -/
inductive Turn
  | done (ptr : ℕ) (h : Heap)
  | again (prev curr : ℕ)

/-- One turn of the loop of `alloc_inner`.  An overflow is a `continue`, which moves neither `prev`
nor `curr`. -/
def turn (align needed : ℕ) (h : Heap) (prev curr : ℕ) : Turn :=
  if curr = 0 then .done 0 h
  else if usizeBound ≤ curr + h.size curr then .again prev curr
  else
    match place curr align needed with
    | none => .again prev curr
    | some (payload, allocEnd) =>
      if allocEnd ≤ curr + h.size curr then
        .done payload (h.carve prev curr (curr + h.size curr) payload allocEnd)
      else .again curr (h.next curr)

/-- What `n` turns return, if they return. -/
def turns (align needed : ℕ) (h : Heap) : ℕ → ℕ → ℕ → Option (ℕ × Heap)
  | 0, _, _ => none
  | n + 1, prev, curr =>
    match turn align needed h prev curr with
    | .done ptr h' => some (ptr, h')
    | .again prev' curr' => turns align needed h n prev' curr'

/-- **A call of `alloc_inner` returns `ptr`** and leaves `h'`, after finitely many turns. -/
def Returns (h : Heap) (size align ptr : ℕ) (h' : Heap) : Prop :=
  ∃ n, turns (max align blockAlign) (max size minAlloc) h n 0 h.freeList = some (ptr, h')

/-- Room for the allocation in a block. -/
def Fits (align needed : ℕ) (b : Block) : Prop :=
  ∃ payload allocEnd, place b.addr align needed = some (payload, allocEnd) ∧ allocEnd ≤ b.stop

/-- **The first block that fits, if any, comes before any at which an addition overflows.** -/
def Passable (align needed : ℕ) : List Block → Prop
  | [] => True
  | b :: l => Fits align needed b ∨ (place b.addr align needed).isSome ∧ Passable align needed l

variable {h h' : Heap} {align needed prev curr n size k : ℕ} {b : Block} {l free : List Block}

/-- A turn that moves nothing is taken for ever. -/
theorem turns_of_stuck (hs : turn align needed h prev curr = .again prev curr) :
    ∀ n, turns align needed h n prev curr = none
  | 0 => rfl
  | n + 1 => by
    rw [turns, hs]
    exact turns_of_stuck hs n

/-- The walk of `firstFit` is these turns: where it gives up, they do not end. -/
theorem turns_eq (align needed : ℕ) (h : Heap) : ∀ n prev curr,
    turns align needed h n prev curr = firstFit align needed n h prev curr
  | 0, _, _ => rfl
  | n + 1, prev, curr => by
    have hstuck : turn align needed h prev curr = .again prev curr →
        turns align needed h (n + 1) prev curr = none := fun hs => turns_of_stuck hs (n + 1)
    rw [firstFit]
    split_ifs with h0 hend
    · simp only [turns, turn, if_pos h0]
    · exact hstuck (by rw [turn, if_neg h0, if_pos hend])
    · cases hp : place curr align needed with
      | none => exact hstuck (by simp only [turn, if_neg h0, if_neg hend, hp])
      | some r =>
        simp only [turns, turn, hp]
        split_ifs with hle
        · rfl
        · exact turns_eq align needed h n curr (h.next curr)

/-! ## The walk over a well-formed list -/

/-- A turn on the head of a list: it overflows, it fits, or the walk goes on behind it. -/
theorem firstFit_cons (hseg : Seg h.mem curr (b :: l) 0) (hb : b.stop < usizeBound) :
    firstFit align needed (n + 1) h prev curr =
      match place b.addr align needed with
      | none => none
      | some (payload, allocEnd) =>
        if allocEnd ≤ b.stop then
          some (payload, h.carve prev b.addr b.stop payload allocEnd)
        else firstFit align needed n h b.addr (h.next b.addr) := by
  obtain ⟨rfl, h0, hsz, -⟩ := hseg
  have hstop : b.addr + h.size b.addr = b.stop := by rw [size, hsz]; rfl
  rw [firstFit, if_neg h0, hstop]
  exact if_neg (by omega)

/-- **The walk ends exactly if the list is passable.** -/
theorem firstFit_isSome_iff : ∀ (l : List Block) (prev curr : ℕ), Seg h.mem curr l 0 →
    (∀ b ∈ l, b.stop < usizeBound) →
    ((∃ n r, firstFit align needed n h prev curr = some r) ↔ Passable align needed l)
  | [], prev, curr, hseg, _ => by
    obtain rfl : curr = 0 := hseg
    exact iff_of_true ⟨1, (0, h), rfl⟩ trivial
  | b :: l, prev, curr, hseg, hlt => by
    have hb := hlt b mem_cons_self
    have ih := firstFit_isSome_iff l b.addr _ hseg.2.2.2 fun c hc =>
      hlt c (mem_cons_of_mem b hc)
    rw [Passable, Fits, ← ih]
    constructor
    · rintro ⟨n, r, hr⟩
      cases n with
      | zero => cases hr
      | succ n =>
        rw [firstFit_cons hseg hb] at hr
        cases hp : place b.addr align needed with
        | none => simp [hp] at hr
        | some p =>
          simp only [hp] at hr
          split_ifs at hr with hle
          · exact .inl ⟨p.1, p.2, rfl, hle⟩
          · exact .inr ⟨rfl, n, r, hr⟩
    · rintro (⟨payload, allocEnd, hp, hle⟩ | ⟨hp, n, r, hr⟩)
      · exact ⟨1, _, by rw [firstFit_cons hseg hb, hp]; exact if_pos hle⟩
      · obtain ⟨p, hp⟩ := isSome_iff_exists.mp hp
        by_cases hle : p.2 ≤ b.stop
        · exact ⟨1, _, by rw [firstFit_cons hseg hb, hp]; exact if_pos hle⟩
        · exact ⟨n + 1, r, by rw [firstFit_cons hseg hb, hp]; exact (if_neg hle).trans hr⟩

/-- After a walk that returns null, every block was passed. -/
theorem passed_of_null {k : ℕ} : ∀ (l : List Block) (n prev curr : ℕ), Seg h.mem curr l 0 →
    (∀ b ∈ l, b.stop < usizeBound) → firstFit (2 ^ k) needed n h prev curr = some (0, h') →
    ∀ b ∈ l, (place b.addr (2 ^ k) needed).isSome ∧ ¬Fits (2 ^ k) needed b
  | [], _, _, _, _, _, _ => by simp
  | b :: l, n + 1, prev, curr, hseg, hlt, hrun => by
    rw [firstFit_cons hseg (hlt b mem_cons_self)] at hrun
    cases hp : place b.addr (2 ^ k) needed with
    | none => simp [hp] at hrun
    | some p =>
      simp only [hp] at hrun
      split_ifs at hrun with hle
      · -- a payload is never the null pointer
        have hafter := (place_some hp).2.1
        have hnull := congrArg Prod.fst (some.inj hrun)
        omega
      · refine forall_mem_cons.mpr ⟨⟨by rw [hp]; rfl, ?_⟩, passed_of_null l n b.addr _
          hseg.2.2.2 (fun c hc => hlt c (mem_cons_of_mem b hc)) hrun⟩
        rintro ⟨payload, allocEnd, hp', hle'⟩
        cases hp.symm.trans hp'
        exact hle hle'

/-- A free list as the heap keeps it, inside the arena. -/
structure ListOk (h : Heap) (free : List Block) : Prop where
  chain : Seg h.mem h.freeList free 0
  apart : Apart free
  ok : ∀ b ∈ free, BlockOk b
  inside : ∀ b ∈ free, heapFloor ≤ b.addr ∧ b.stop ≤ heapTop

/-- Null, or a payload for the layout in one of the blocks. -/
def Served (free : List Block) (size align ptr : ℕ) : Prop :=
  ptr = 0 ∨ ∃ b ∈ free, ∃ allocEnd, Placed b ptr (max size minAlloc) allocEnd ∧ ptr % align = 0

/-- What is returned is null, or one of the blocks fits. -/
theorem Returns.served {align ptr : ℕ} (hl : Seg h.mem h.freeList free 0) (hk : align = 2 ^ k)
    (hr : h.Returns size align ptr h') : Served free size align ptr ∧
      (ptr ≠ 0 → ∃ b ∈ free, Fits (max align blockAlign) (max size minAlloc) b) := by
  obtain ⟨n, hn⟩ := hr
  rw [turns_eq] at hn
  obtain ⟨rfl, -⟩ | ⟨l1, b, l2, allocEnd, rfl, hplace, hle, -⟩ := firstFit_some free n 0 _ hl hn
  · exact ⟨.inl rfl, absurd rfl⟩
  · exact ⟨.inr ⟨b, by simp, allocEnd, placed_of_place hk hplace hle⟩,
      fun _ => ⟨b, by simp, ptr, allocEnd, hplace, hle⟩⟩

/-- **`alloc_inner` returns null or a fitting block after finitely many turns exactly if no block at
which an addition overflows comes before the first that fits.** -/
theorem returns_iff {align : ℕ} (hl : h.ListOk free) (hlay : HeapRun.LayoutOk size align) :
    (∃ ptr h', h.Returns size align ptr h' ∧ Served free size align ptr) ↔
      Passable (max align blockAlign) (max size minAlloc) free := by
  obtain ⟨⟨k, -, hk⟩, -⟩ := hlay
  rw [← firstFit_isSome_iff free 0 h.freeList hl.chain fun b hb => (hl.ok b hb).stop_lt]
  constructor
  · rintro ⟨ptr, h', ⟨n, hn⟩, -⟩
    exact ⟨n, _, (turns_eq ..).symm.trans hn⟩
  · rintro ⟨n, ⟨ptr, h'⟩, hn⟩
    have hr : h.Returns size align ptr h' := ⟨n, (turns_eq ..).trans hn⟩
    exact ⟨ptr, h', hr, (hr.served hl.chain hk).1⟩

/-- One free page at the bottom of the arena. -/
def onePage : Heap := ⟨heapFloor, fun a => if a = heapFloor then 4096 else 0⟩

theorem onePage_ok : onePage.ListOk [⟨heapFloor, 4096⟩] where
  chain := ⟨rfl, by decide, rfl, rfl⟩
  apart := pairwise_singleton _ _
  ok b hb := by
    obtain rfl := mem_singleton.mp hb
    constructor <;> decide
  inside := by decide

theorem onePage_returns : ∃ ptr h', onePage.Returns 64 64 ptr h' ∧
    Served [⟨heapFloor, 4096⟩] 64 64 ptr :=
  (returns_iff onePage_ok (by decide)).mpr (.inl
    ⟨heapFloor + 64, heapFloor + 128, by decide +kernel, by decide⟩)

/-- **A layout of 1792 MiB is never refused**: its end overflows at every address of the arena. -/
theorem onePage_loops : onePage.ListOk [⟨heapFloor, 4096⟩] ∧ HeapRun.LayoutOk 0x70000000 8 ∧
    ¬∃ ptr h', onePage.Returns 0x70000000 8 ptr h' := by
  refine ⟨onePage_ok, by decide, ?_⟩
  rintro ⟨ptr, h', n, hn⟩
  have hstuck : turn 8 0x70000000 onePage 0 heapFloor = .again 0 heapFloor := by
    rfl
  exact absurd ((turns_of_stuck hstuck n).symm.trans hn) (by simp)

/-! ## Where an allocation ends -/

/-- If the aligned address `q` is past the header, the allocation ends where it would end at `q`, or
before. -/
theorem place_le {q stop : ℕ} (addr needed : ℕ) (hk : k ≤ 64) (hq : 2 ^ k ∣ q)
    (haddr : addr + 24 ≤ q) (hstop : q + needed ≤ stop) (hmod : stop % 8 = 0)
    (hlt : stop + 8 ≤ usizeBound) : ∃ payload allocEnd,
      place addr (2 ^ k) needed = some (payload, allocEnd) ∧ allocEnd ≤ stop := by
  have hbound : usizeBound = 2 ^ 64 := rfl
  have hsum : headerSize + backptrSize + 2 ^ k - 1 = 2 ^ k + 23 := by
    simp only [headerSize, backptrSize]
    omega
  -- the next multiple of the alignment is not past the end of the address space
  have hnext : 2 ^ k ≤ 2 ^ 64 - q :=
    Nat.le_of_dvd (by omega) (Nat.dvd_sub (Nat.pow_dvd_pow 2 hk) hq)
  simp only [place]
  rw [hsum, if_neg (by omega)]
  obtain ⟨hm, hle, -⟩ := maskDown_spec (k := k) (v := addr + (2 ^ k + 23)) (by omega)
  generalize maskDown (addr + (2 ^ k + 23)) (2 ^ k) = payload at hm hle
  have hpq : payload ≤ q := by
    by_contra hgt
    have := Nat.le_of_dvd (by omega) (Nat.dvd_sub (Nat.dvd_of_mod_eq_zero hm) hq)
    omega
  have hseven : blockAlign - 1 = 7 := rfl
  rw [hseven, if_neg (by omega), if_neg (by omega)]
  obtain ⟨hm', hle', -⟩ : maskDown (payload + needed + 7) blockAlign % 8 = 0 ∧
      maskDown (payload + needed + 7) blockAlign ≤ payload + needed + 7 ∧ _ :=
    maskDown_spec (k := 3) (by omega)
  exact ⟨_, _, rfl, by omega⟩

/-- **A block has room exactly if a multiple of the alignment lies past its header and far enough
from its end.** -/
theorem fits_iff (hk : k ≤ 64) (hmod : b.stop % 8 = 0) (hlt : b.stop + 8 ≤ usizeBound) :
    Fits (2 ^ k) needed b ↔ b.addr + 24 ≤ (b.stop - needed) / 2 ^ k * 2 ^ k := by
  constructor
  · rintro ⟨payload, allocEnd, hp, hle⟩
    obtain ⟨hm, hafter, hend, -⟩ := place_some hp
    refine hafter.trans ?_
    rw [← Nat.div_mul_cancel (Nat.dvd_of_mod_eq_zero hm)]
    exact Nat.mul_le_mul_right _ (Nat.div_le_div_right (by omega))
  · intro hle
    have hq := Nat.div_mul_le_self (b.stop - needed) (2 ^ k)
    exact place_le b.addr needed hk (Nat.dvd_mul_left _ _) hle (by omega) hmod hlt

end Heap

/-! ## Growing -/

def heapGrowPages : ℕ := 16
def heapGuardBytes : ℕ := 4096

/-- The heap with the lowest address it has reached; `u64::MAX` before the first region. -/
structure Arena where
  heap : Heap
  lowVaddr : ℕ

/-- The pages that `alloc` asks for when no block fits. -/
def growPages (size : ℕ) : Option ℕ :=
  if usizeBound ≤ size + 4095 then none
  else some (max ((size + 4095) / 4096 + 1) heapGrowPages)

namespace Arena

/-- Where the next region of `size` bytes goes. -/
def reserve (s : Arena) (size : ℕ) : Option ℕ :=
  if s.lowVaddr = usizeBound - 1 then
    if size ≤ heapTop ∧ heapFloor ≤ heapTop - size then some (heapTop - size) else none
  else if heapGuardBytes + size ≤ s.lowVaddr ∧ heapFloor ≤ s.lowVaddr - heapGuardBytes - size then
    some (s.lowVaddr - heapGuardBytes - size)
  else none

/-- `heap_grow`, and whether it succeeded; `mapped` says whether frames for all pages were found.
`none` is a fault of the free list. -/
def heapGrow (s : Arena) (count : ℕ) (mapped : Bool) : Option (Bool × Arena) :=
  if usizeBound ≤ count * 4096 then some (false, s)
  else
    match s.reserve (count * 4096) with
    | none => some (false, s)
    | some low =>
      if mapped then (s.heap.addRegion low (count * 4096)).map fun h => (true, ⟨h, low⟩)
      else some (false, s)

/-- Where the next region ends: at the top of the arena, or a guard page below the lowest one. -/
def regionEnd (s : Arena) : ℕ :=
  if s.lowVaddr = usizeBound - 1 then heapTop else s.lowVaddr - heapGuardBytes

/-- A free list inside the arena, and a lowest address on a page boundary and below all of it. -/
structure WellFormed (s : Arena) (free : List Block) : Prop where
  list : s.heap.ListOk free
  low : s.lowVaddr = usizeBound - 1 ∧ free = [] ∨
    s.lowVaddr % 4096 = 0 ∧ s.lowVaddr ≤ heapTop ∧ ∀ b ∈ free, s.lowVaddr ≤ b.addr

variable {s s' : Arena} {free : List Block} {size align pages : ℕ} {mapped : Bool}

/-- The next region lies inside the arena, on a page boundary, and touches no free block. -/
theorem WellFormed.reserve (hwf : s.WellFormed free) {low : ℕ}
    (hr : s.reserve (pages * 4096) = some low) :
    low + pages * 4096 = s.regionEnd ∧ low % 4096 = 0 ∧ heapFloor ≤ low ∧
      s.regionEnd ≤ heapTop ∧ ∀ b ∈ free, s.regionEnd < b.addr := by
  have htop : heapTop % 4096 = 0 := by decide
  have hguard : heapGuardBytes = 4096 := rfl
  unfold Arena.reserve at hr
  unfold regionEnd
  obtain ⟨hmax, rfl⟩ | ⟨hmod, hle, hbelow⟩ := hwf.low
  · rw [if_pos hmax] at hr ⊢
    split_ifs at hr
    cases hr
    refine ⟨by omega, by omega, by omega, le_rfl, nofun⟩
  · have hne : s.lowVaddr ≠ usizeBound - 1 := by
      have : heapTop < usizeBound - 1 := by decide
      omega
    rw [if_neg hne] at hr ⊢
    split_ifs at hr
    cases hr
    refine ⟨by omega, by omega, by omega, by omega, fun b hb => ?_⟩
    have := hbelow b hb
    omega

theorem heapGrow_true (hg : s.heapGrow pages mapped = some (true, s')) :
    s.reserve (pages * 4096) = some s'.lowVaddr ∧
      s.heap.addRegion s'.lowVaddr (pages * 4096) = some s'.heap := by
  unfold heapGrow at hg
  split at hg
  · simp at hg
  split at hg
  · simp at hg
  rename_i low hr
  split at hg
  · obtain ⟨h, hadd, heq⟩ := map_eq_some_iff.mp hg
    obtain rfl : (⟨h, low⟩ : Arena) = s' := congrArg Prod.snd heq
    exact ⟨hr, hadd⟩
  · simp at hg

/-- The retried call returns a block, aligned as asked. -/
def Allocates (h : Heap) (size align : ℕ) : Prop :=
  ∃ ptr h', h.Returns size align ptr h' ∧ ptr ≠ 0 ∧ ptr % align = 0

/-- **Growing keeps the heap well-formed**, with the region in front of the list. -/
theorem WellFormed.grown (hwf : s.WellFormed free) (hpages : 0 < pages)
    (hg : s.heapGrow pages mapped = some (true, s')) :
    s'.WellFormed (⟨s'.lowVaddr, pages * 4096⟩ :: free) := by
  obtain ⟨hr, hadd⟩ := heapGrow_true hg
  obtain ⟨hend, hmod, hfloor, htop, hbelow⟩ := hwf.reserve hr
  have hlo : 0 < heapFloor := by decide
  have hhi : heapTop < usizeBound := by decide
  have hspan : heapTop ≤ heapFloor + maxBlockSize := by decide
  have hmin : minBlockSize = 32 := rfl
  have hb : BlockOk ⟨s'.lowVaddr, pages * 4096⟩ :=
    ⟨by simp only; omega, by simp only; omega, by simp only; omega, by simp only; omega,
      by simp only; omega, by simp only; omega⟩
  have hgap : ∀ c ∈ free, (⟨s'.lowVaddr, pages * 4096⟩ : Block).stop < c.addr := fun c hc =>
    (show _ = s.regionEnd from hend).trans_lt (hbelow c hc)
  have hdis : ∀ c ∈ free, ∀ x, c.contains x = true →
      Block.contains ⟨s'.lowVaddr, pages * 4096⟩ x = false := by
    intro c hc x hx
    have := hgap c hc
    rw [Block.contains_iff] at hx
    rw [Bool.eq_false_iff, ne_eq, Block.contains_iff]
    simp only [Block.stop] at this ⊢
    omega
  have hinsert : insertFree ⟨s'.lowVaddr, pages * 4096⟩ free =
      ⟨s'.lowVaddr, pages * 4096⟩ :: free := by
    rw [insertFree_of_le fun c hc => ?_, joinRight_of_gap hgap]
    have := hgap c hc
    simp only [Block.stop] at this ⊢
    omega
  obtain ⟨hchain, hap, hok, -⟩ := HeapRun.addRegion_free hwf.list.chain hwf.list.apart hwf.list.ok
    hb hdis hadd
  rw [hinsert] at hchain hap hok
  refine ⟨⟨hchain, hap, hok, forall_mem_cons.mpr ⟨⟨hfloor, hend.trans_le htop⟩, hwf.list.inside⟩⟩,
    .inr ⟨hmod, by omega, forall_mem_cons.mpr ⟨le_rfl, fun c hc => ?_⟩⟩⟩
  have := hbelow c hc
  omega

/-- Up to a page, the alignment costs less than the page that is added to the size. -/
theorem room_of_le (hp : growPages size = some pages) {low k : ℕ} (hmod : low % 4096 = 0)
    (hk : k ≤ 12) : low + 24 ≤ (low + pages * 4096 - max size minAlloc) / 2 ^ k * 2 ^ k := by
  have hdvd : 2 ^ k ∣ low + 4096 :=
    (Nat.pow_dvd_pow 2 hk).trans (Nat.dvd_of_mod_eq_zero (by omega))
  have hroom : 4096 + max size minAlloc ≤ pages * 4096 := by
    simp only [growPages, ite_none_left_eq_some, some.injEq] at hp
    have hgp : heapGrowPages = 16 := rfl
    have hma : minAlloc = 8 := rfl
    omega
  calc low + 24 ≤ (low + 4096) / 2 ^ k * 2 ^ k := by rw [Nat.div_mul_cancel hdvd]; omega
    _ ≤ _ := Nat.mul_le_mul_right _ (Nat.div_le_div_right (by omega))

/-- **The retried call succeeds exactly if the alignment is at most a page, or a multiple of it lies
in the region that ends at `regionEnd`, past the header and far enough from the end.** -/
theorem allocates_iff (hwf : s.WellFormed free) (hlay : HeapRun.LayoutOk size align)
    {h₀ : Heap} (hnull : s.heap.Returns size align 0 h₀) (hp : growPages size = some pages)
    (hg : s.heapGrow pages mapped = some (true, s')) :
    Allocates s'.heap size align ↔ align ≤ 4096 ∨ s.regionEnd - pages * 4096 + 24 ≤
      (s.regionEnd - max size minAlloc) / max align blockAlign * max align blockAlign := by
  obtain ⟨⟨k, hk64, hk⟩, -⟩ := hlay
  have hpages : 0 < pages := by
    simp only [growPages, ite_none_left_eq_some, some.injEq] at hp
    omega
  have hgrown := hwf.grown hpages hg
  obtain ⟨hend, hmod, -, htop, -⟩ := hwf.reserve (heapGrow_true hg).1
  have hhi : heapTop + 8 ≤ usizeBound := by decide
  have hlow : s.regionEnd - pages * 4096 = s'.lowVaddr := by omega
  have hstop : (⟨s'.lowVaddr, pages * 4096⟩ : Block).stop = s.regionEnd := hend
  have hpassed : ∀ b ∈ free, (Heap.place b.addr (2 ^ max k 3) (max size minAlloc)).isSome ∧
      ¬Heap.Fits (2 ^ max k 3) (max size minAlloc) b := by
    obtain ⟨n, hn⟩ := hnull
    rw [Heap.turns_eq, Heap.max_blockAlign hk] at hn
    exact Heap.passed_of_null free n 0 _ hwf.list.chain
      (fun b hb => (hwf.list.ok b hb).stop_lt) hn
  have hfits : Heap.Fits (2 ^ max k 3) (max size minAlloc) ⟨s'.lowVaddr, pages * 4096⟩ ↔ _ :=
    Heap.fits_iff (by omega) (by rw [hstop]; omega) (by rw [hstop]; omega)
  rw [hstop] at hfits
  rw [Heap.max_blockAlign hk, hlow]
  constructor
  · rintro ⟨ptr, h', hr, h0, -⟩
    obtain ⟨b, hb, hfit⟩ := (hr.served hgrown.list.chain hk).2 h0
    rw [Heap.max_blockAlign hk] at hfit
    obtain rfl | hb := mem_cons.mp hb
    · exact .inr (hfits.mp hfit)
    · exact absurd hfit (hpassed b hb).2
  · intro hcond
    have hfit : Heap.Fits (2 ^ max k 3) (max size minAlloc) ⟨s'.lowVaddr, pages * 4096⟩ := by
      refine hfits.mpr (hcond.elim (fun hle => ?_) id)
      rw [← hend]
      exact room_of_le hp hmod
        (max_le ((Nat.pow_le_pow_iff_right (by decide)).mp (hk ▸ hle)) (by decide))
    have hlt : ∀ b ∈ (⟨s'.lowVaddr, pages * 4096⟩ : Block) :: free, b.stop < usizeBound :=
      fun b hb => (hgrown.list.ok b hb).stop_lt
    obtain ⟨m, ⟨ptr, h'⟩, hm⟩ :=
      (Heap.firstFit_isSome_iff _ 0 _ hgrown.list.chain hlt).mpr (.inl hfit)
    have hr : s'.heap.Returns size align ptr h' :=
      ⟨m, by rw [Heap.turns_eq, Heap.max_blockAlign hk]; exact hm⟩
    have h0 : ptr ≠ 0 := by
      rintro rfl
      exact (Heap.passed_of_null _ m 0 _ hgrown.list.chain hlt hm _ mem_cons_self).2 hfit
    obtain ⟨-, -, -, -, hmod⟩ := (hr.served hgrown.list.chain hk).1.resolve_left h0
    exact ⟨ptr, h', hr, h0, hmod⟩

/-- The heap before its first region. -/
def noRegion : Arena := ⟨⟨0, fun _ => 0⟩, usizeBound - 1⟩

theorem noRegion_wellFormed : noRegion.WellFormed [] :=
  ⟨⟨rfl, List.Pairwise.nil, by simp, by simp⟩, .inl ⟨rfl, rfl⟩⟩

theorem noRegion_null (size align : ℕ) : noRegion.heap.Returns size align 0 noRegion.heap :=
  ⟨1, rfl⟩

theorem noRegion_allocates : ∃ s', noRegion.heapGrow 16 true = some (true, s') ∧
    Allocates s'.heap 100 0x2000 := by
  have hg : (noRegion.heapGrow 16 true).any (·.1) = true := by decide +kernel
  obtain ⟨⟨ok, s'⟩, hg, rfl⟩ := (Option.any_eq_true _ _).mp hg
  exact ⟨s', hg,
    (allocates_iff noRegion_wellFormed (by decide) (noRegion_null 100 0x2000) rfl hg).mpr
      (.inr (by decide +kernel))⟩

/-- **An alignment of 64 KiB is not served by the 64 KiB region that is added for it.** -/
theorem noRegion_not_allocates : ∃ s', noRegion.WellFormed [] ∧ HeapRun.LayoutOk 8 0x10000 ∧
    noRegion.heap.Returns 8 0x10000 0 noRegion.heap ∧ growPages 8 = some 16 ∧
    noRegion.heapGrow 16 true = some (true, s') ∧ ¬Allocates s'.heap 8 0x10000 := by
  have hg : (noRegion.heapGrow 16 true).any (fun r => r.1 ∧ r.2.lowVaddr = heapTop - 0x10000)
      = true := by decide +kernel
  obtain ⟨⟨ok, s'⟩, hg, hr⟩ := (Option.any_eq_true _ _).mp hg
  obtain ⟨rfl, hlow⟩ := of_decide_eq_true hr
  refine ⟨s', noRegion_wellFormed, by decide, noRegion_null 8 0x10000, rfl, hg, ?_⟩
  rintro ⟨ptr, h', hret, h0, -⟩
  have hgrown := noRegion_wellFormed.grown (by decide) hg
  obtain ⟨b, hb, payload, allocEnd, hplace, hle⟩ :=
    (hret.served (k := 16) hgrown.list.chain rfl).2 h0
  obtain rfl := mem_singleton.mp hb
  have hend : (Heap.place (heapTop - 0x10000) 0x10000 8).any (fun p => p.2 ≤ heapTop) = false := by
    decide +kernel
  have hplace : Heap.place s'.lowVaddr 0x10000 8 = some (payload, allocEnd) := hplace
  have htop : heapTop - 0x10000 + 0x10000 = heapTop := by decide
  rw [hlow] at hplace hle
  rw [hplace, any_some, decide_eq_false_iff_not] at hend
  exact hend (hle.trans htop.le)

end Arena

end Bedrock
