import Bedrock.Lib.Run
import Bedrock.Mm.FrameAlloc

/-!
# Mm/FrameOwner — who owns a frame

The allocator is built from the firmware's memory map: every frame starts as used, the frames of
usable memory are cleared, and the bitmap itself, frame 0 and the kernel image are set again.  From
then on `alloc`, `free` and `reserve_region` change single bits and keep a count of the clear ones:

    new --▸ alloc --▸ reserve_region --▸ free --▸ ⋯       used = held ∪ reserved ∪ never usable

`free` clears the bit of any frame that is given back, also of one that was reserved while it was
held.  In runs that reserve no held frame the bitmap says exactly who owns what.
-/

namespace Bedrock

open Finset Option

inductive MemoryRegionKind
  | usable | reserved | acpiReclaimable | acpiNvs | bootServicesCode | bootServicesData
  | loaderCode | loaderData
  deriving DecidableEq, Repr

/-- A piece of the firmware's memory map. -/
structure MemoryRegion where
  base : ℕ
  size : ℕ
  kind : MemoryRegionKind
  deriving DecidableEq, Repr

/-- `base.saturating_add(size)`. -/
def MemoryRegion.stop (r : MemoryRegion) : ℕ := min (r.base + r.size) (2 ^ 64 - 1)

theorem MemoryRegion.stop_eq (r : MemoryRegion) (h : r.base + r.size ≤ 2 ^ 53) :
    r.stop = r.base + r.size :=
  min_eq_left (by omega)

/-- The frame behind the last one of a range that ends at `stop`, in 64-bit arithmetic. -/
def endFrame (stop total : ℕ) : ℕ :=
  if stop = 2 ^ 64 - 1 then total else min ((stop + 4095) % 2 ^ 64 / 4096) total

/-- The frames that the loops over a range visit. -/
def rangeFrames (start stop total : ℕ) : List ℕ :=
  List.range' (start / 4096) (endFrame stop total - start / 4096)

namespace BitmapAllocator

/-! ## Construction -/

/-- `clear_region`. -/
def clearRegion (a : BitmapAllocator) (r : MemoryRegion) : BitmapAllocator :=
  (rangeFrames r.base r.stop a.totalFrames).foldl setFree a

/-- `mark_region_used`. -/
def markRegionUsed (a : BitmapAllocator) (r : MemoryRegion) : BitmapAllocator :=
  (rangeFrames r.base r.stop a.totalFrames).foldl setUsed a

/-- `find_max_addr`. -/
def findMaxAddr (memoryMap : List MemoryRegion) : ℕ :=
  ((memoryMap.filter (·.kind = .usable)).map MemoryRegion.stop).foldr max 0

/-- `u64::count_ones`. -/
def countOnes (w : BitVec 64) : ℕ := ((range 64).filter fun b => w.getLsbD b = true).card

/-- `count_free_locked`: the clear bits, a word at a time. -/
def countFreeLocked (a : BitmapAllocator) : ℕ :=
  ∑ wi ∈ range ((a.totalFrames + 63) / 64),
    (countOnes (a.tailMask wi) - countOnes (a.readWord wi &&& a.tailMask wi))

def maxUsableRegions : ℕ := 32

/-- Where the bitmap goes: to the start of its region, or behind the kernel. -/
def bitmapBase (regionBase kernelEnd : ℕ) : ℕ :=
  if regionBase < kernelEnd then (kernelEnd + 4095) % 2 ^ 64 / 4096 * 4096 else regionBase

/-- The frames that the memory map asks for, and the bytes of their bitmap. -/
def framesFor (memoryMap : List MemoryRegion) : ℕ :=
  (findMaxAddr memoryMap + 4095) % 2 ^ 64 / 4096

def bitmapLen (memoryMap : List MemoryRegion) : ℕ := (framesFor memoryMap + 7) / 8

/-- Every frame starts as used. -/
def blank (memory : ℕ → BitVec 8) (len total hint ks ke : ℕ) : BitmapAllocator where
  bitmap i := if i < len then 0xFF#8 else memory i
  totalFrames := total
  kernelStart := ks
  kernelEnd := ke
  nextFree := hint
  nextFreeHint := hint
  freeCount := 0

/-- The bits at boot: usable memory is cleared, then the bitmap, frame 0 and the kernel image are
set. -/
def seedBits (a : BitmapAllocator) (memoryMap : List MemoryRegion) (base len ks ke : ℕ) :
    BitmapAllocator :=
  let a := (memoryMap.filter (·.kind = .usable)).foldl clearRegion a
  let a := a.markRegionUsed ⟨base, len, .reserved⟩
  let a := if 0 < a.totalFrames then a.setUsed 0 else a
  if ks < ke then a.markRegionUsed ⟨ks, ke - ks, .reserved⟩ else a

/-- `with_seeded_free_count`. -/
def withSeededFreeCount (a : BitmapAllocator) : BitmapAllocator :=
  { a with freeCount := a.countFreeLocked }

/-- `BitmapAllocator::new`, from the bytes `memory` that lie behind the bitmap pointer; `none` is
one of its assertions failing. -/
def new (memory : ℕ → BitVec 8) (bitmapRegion : ℕ × ℕ) (memoryMap : List MemoryRegion)
    (kernelStart kernelEnd : ℕ) : Option BitmapAllocator :=
  let len := bitmapLen memoryMap
  let base := bitmapBase bitmapRegion.1 kernelEnd
  if bitmapRegion.2 = 0 then none
  else if ¬(bitmapRegion.1 ≤ base ∧
      (base + len) % 2 ^ 64 ≤ (bitmapRegion.1 + bitmapRegion.2) % 2 ^ 64) then none
  else if maxUsableRegions <
      (memoryMap.filter fun r => r.kind = .usable ∧ 0 < r.size).length then none
  else
    let ks := kernelStart / 4096 * 4096
    let ke := (kernelEnd + 0xFFF) % 2 ^ 64 / 4096 * 4096
    let a := blank memory len (framesFor memoryMap) (base / 4096) ks ke
    some (a.seedBits memoryMap base len ks ke).withSeededFreeCount

/-- One round of `reserve_region`. -/
def reserveFrame (a : BitmapAllocator) (frame : ℕ) : BitmapAllocator :=
  if frame < a.totalFrames ∧ a.isUsed frame = false then
    { a.setUsed frame with freeCount := wrappingSub a.freeCount 1 }
  else a

/-- `reserve_region`. -/
def reserveRegion (a : BitmapAllocator) (start stop : ℕ) : BitmapAllocator :=
  (rangeFrames start stop a.totalFrames).foldl reserveFrame a

/-! ## Counting clear bits -/

variable {a a' : BitmapAllocator}

/-- The clear bits of the bitmap. -/
def clearBits (a : BitmapAllocator) : Finset ℕ :=
  (range a.totalFrames).filter fun i => a.isUsed i = false

theorem mem_clearBits {i : ℕ} : i ∈ a.clearBits ↔ i < a.totalFrames ∧ a.isUsed i = false := by
  simp [clearBits]

theorem card_clearBits_le (a : BitmapAllocator) : a.clearBits.card ≤ a.totalFrames := by
  have h := card_filter_le (range a.totalFrames) fun i => a.isUsed i = false
  rwa [card_range] at h

theorem getLsbD_tailMask {wi b : ℕ} (hwi : wi < (a.totalFrames + 63) / 64) (hb : b < 64) :
    (a.tailMask wi).getLsbD b = decide (wi * 64 + b < a.totalFrames) := by
  rw [tailMask]
  split_ifs with h
  · rw [getLsbD_lowMask (Nat.mod_lt _ (by decide))]
    refine decide_eq_decide.mpr ?_
    omega
  · rw [BitVec.getLsbD_allOnes]
    refine decide_eq_decide.mpr ?_
    omega

theorem countOnes_sub {wi : ℕ} (hwi : wi < (a.totalFrames + 63) / 64) :
    countOnes (a.tailMask wi) - countOnes (a.readWord wi &&& a.tailMask wi) =
      ((range 64).filter fun b =>
        wi * 64 + b < a.totalFrames ∧ a.isUsed (wi * 64 + b) = false).card := by
  have hmask : ∀ b ∈ range 64, (a.tailMask wi).getLsbD b = decide (wi * 64 + b < a.totalFrames) :=
    fun b hb => getLsbD_tailMask hwi (mem_range.mp hb)
  have hread : ∀ b ∈ range 64, (a.readWord wi).getLsbD b = a.isUsed (wi * 64 + b) :=
    fun b hb => getLsbD_readWord a wi (mem_range.mp hb)
  have hsub : ((range 64).filter fun b => (a.readWord wi &&& a.tailMask wi).getLsbD b = true) ⊆
      (range 64).filter fun b => (a.tailMask wi).getLsbD b = true := by
    refine monotone_filter_right _ fun b _ h => ?_
    rw [BitVec.getLsbD_and, Bool.and_eq_true] at h
    exact h.2
  rw [countOnes, countOnes, ← card_sdiff_of_subset hsub]
  refine congrArg card (Finset.ext fun b => ?_)
  by_cases hb : b ∈ range 64
  · rw [mem_sdiff, mem_filter, mem_filter, mem_filter, BitVec.getLsbD_and, hmask b hb, hread b hb]
    by_cases hlt : wi * 64 + b < a.totalFrames <;> simp [hb, hlt]
  · simp [hb]

theorem card_filter_words (p : ℕ → Prop) [DecidablePred p] : ∀ n,
    ∑ wi ∈ range n, ((range 64).filter fun b => p (wi * 64 + b)).card =
      ((range (n * 64)).filter p).card
  | 0 => by simp
  | n + 1 => by
    rw [sum_range_succ, card_filter_words p n, Nat.succ_mul, card_filter, card_filter, card_filter,
      sum_range_add]

/-- **The word scan counts the clear bits.** -/
theorem countFreeLocked_eq (a : BitmapAllocator) : a.countFreeLocked = a.clearBits.card := by
  rw [countFreeLocked, sum_congr rfl fun wi hwi => countOnes_sub (mem_range.mp hwi),
    card_filter_words fun i => i < a.totalFrames ∧ a.isUsed i = false]
  refine congrArg card (Finset.ext fun i => ?_)
  rw [mem_filter, mem_range, mem_clearBits]
  refine and_iff_right_of_imp fun h => ?_
  omega

/-! ## Ranges of bits -/

theorem isUsed_foldl_setUsed (l : List ℕ) (a : BitmapAllocator) (j : ℕ) :
    (l.foldl setUsed a).isUsed j = (decide (j ∈ l) || a.isUsed j) := by
  induction l generalizing a with
  | nil => simp
  | cons i l ih =>
    rw [List.foldl_cons, ih, isUsed_setUsed]
    by_cases hj : j = i <;> simp [hj]

theorem isUsed_foldl_setFree (l : List ℕ) (a : BitmapAllocator) (j : ℕ) :
    (l.foldl setFree a).isUsed j = (!decide (j ∈ l) && a.isUsed j) := by
  induction l generalizing a with
  | nil => simp
  | cons i l ih =>
    rw [List.foldl_cons, ih, isUsed_setFree]
    by_cases hj : j = i <;> simp [hj]

end BitmapAllocator

/-- Frame `i` belongs to the range `[lo, hi)`, rounded out to frames. -/
def FrameIn (lo hi i : ℕ) : Prop := lo / 4096 ≤ i ∧ i * 4096 < hi

instance (lo hi i : ℕ) : Decidable (FrameIn lo hi i) := inferInstanceAs (Decidable (_ ∧ _))

/-- The end of the range does not wrap around. -/
def NoWrap (hi : ℕ) : Prop := hi ≤ 2 ^ 64 - 4096 ∨ hi = 2 ^ 64 - 1

instance (hi : ℕ) : Decidable (NoWrap hi) := inferInstanceAs (Decidable (_ ∨ _))

/-- **The loops visit the frames of their range**, unless its end wraps around… -/
theorem mem_rangeFrames_iff {lo hi total i : ℕ} (hhi : hi ≤ 2 ^ 64 - 1) (ht : total ≤ 2 ^ 52) :
    i ∈ rangeFrames lo hi total ↔ NoWrap hi ∧ FrameIn lo hi i ∧ i < total := by
  rw [rangeFrames, List.mem_range'_1, FrameIn, endFrame, NoWrap]
  by_cases hmax : hi = 2 ^ 64 - 1
  · rw [if_pos hmax]
    omega
  · rw [if_neg hmax]
    by_cases hle : hi ≤ 2 ^ 64 - 4096
    · rw [Nat.mod_eq_of_lt (by omega)]
      omega
    · -- the sum wraps around to a number below a page
      omega

/-- …which no end within 53 bits does. -/
theorem mem_rangeFrames {lo hi total i : ℕ} (hw : NoWrap hi) (ht : total * 4096 ≤ 2 ^ 52) :
    i ∈ rangeFrames lo hi total ↔ FrameIn lo hi i ∧ i < total := by
  refine (mem_rangeFrames_iff ?_ (by omega)).trans (and_iff_right hw)
  unfold NoWrap at hw
  omega

namespace BitmapAllocator

variable {a : BitmapAllocator}

/-- `a'` differs from `a` in its bits and in its count only. -/
structure SameShape (a a' : BitmapAllocator) : Prop where
  total : a'.totalFrames = a.totalFrames
  kernelStart : a'.kernelStart = a.kernelStart
  kernelEnd : a'.kernelEnd = a.kernelEnd
  nextFree : a'.nextFree = a.nextFree
  nextFreeHint : a'.nextFreeHint = a.nextFreeHint

theorem SameShape.refl (a : BitmapAllocator) : SameShape a a := ⟨rfl, rfl, rfl, rfl, rfl⟩

theorem SameShape.trans {a1 a2 a3 : BitmapAllocator} (h : SameShape a1 a2) (h' : SameShape a2 a3) :
    SameShape a1 a3 where
  total := h'.total.trans h.total
  kernelStart := h'.kernelStart.trans h.kernelStart
  kernelEnd := h'.kernelEnd.trans h.kernelEnd
  nextFree := h'.nextFree.trans h.nextFree
  nextFreeHint := h'.nextFreeHint.trans h.nextFreeHint

theorem SameShape.sound {a' : BitmapAllocator} (h : SameShape a a') (hs : a.Sound) : a'.Sound where
  nextFree_le := by rw [h.nextFree, h.total]; exact hs.nextFree_le
  nextFreeHint_le := by rw [h.nextFreeHint, h.total]; exact hs.nextFreeHint_le
  total_le := by rw [h.total]; exact hs.total_le

theorem SameShape.isReservedFrame {a' : BitmapAllocator} (h : SameShape a a') (i : ℕ) :
    a'.isReservedFrame i = a.isReservedFrame i := by
  simp only [BitmapAllocator.isReservedFrame, h.kernelStart, h.kernelEnd]

theorem sameShape_foldl {ι : Type*} {f : BitmapAllocator → ι → BitmapAllocator}
    (hf : ∀ a i, SameShape a (f a i)) : ∀ (l : List ι) (a : BitmapAllocator),
    SameShape a (l.foldl f a)
  | [], a => .refl a
  | i :: l, a => (hf a i).trans (sameShape_foldl hf l (f a i))

variable (a)

theorem sameShape_clearRegion (r : MemoryRegion) :
    SameShape a (a.clearRegion r) :=
  sameShape_foldl (f := setFree) (fun _ _ => ⟨rfl, rfl, rfl, rfl, rfl⟩) _ a

theorem sameShape_markRegionUsed (r : MemoryRegion) :
    SameShape a (a.markRegionUsed r) :=
  sameShape_foldl (f := setUsed) (fun _ _ => ⟨rfl, rfl, rfl, rfl, rfl⟩) _ a

/-- `clear_region` clears the bits that its loop visits… -/
theorem isUsed_clearRegion (r : MemoryRegion) (j : ℕ) :
    (a.clearRegion r).isUsed j = true ↔
      a.isUsed j = true ∧ j ∉ rangeFrames r.base r.stop a.totalFrames := by
  rw [clearRegion, isUsed_foldl_setFree, Bool.and_eq_true, Bool.not_eq_true',
    decide_eq_false_iff_not, and_comm]

/-- …and `mark_region_used` sets them. -/
theorem isUsed_markRegionUsed (r : MemoryRegion) (j : ℕ) :
    (a.markRegionUsed r).isUsed j = true ↔
      a.isUsed j = true ∨ j ∈ rangeFrames r.base r.stop a.totalFrames := by
  rw [markRegionUsed, isUsed_foldl_setUsed, Bool.or_eq_true, decide_eq_true_iff, or_comm]

/-- The usable regions are cleared one after the other. -/
theorem isUsed_foldl_clearRegion (j : ℕ) : ∀ (l : List MemoryRegion) (a : BitmapAllocator),
    (l.foldl clearRegion a).isUsed j = true ↔
      a.isUsed j = true ∧ ∀ r ∈ l, j ∉ rangeFrames r.base r.stop a.totalFrames
  | [], a => by simp
  | r :: l, a => by
    rw [List.foldl_cons, isUsed_foldl_clearRegion j l, isUsed_clearRegion,
      (sameShape_clearRegion a r).total, List.forall_mem_cons, and_assoc]

theorem sameShape_setUsed_ite :
    SameShape a (if 0 < a.totalFrames then a.setUsed 0 else a) := by
  split
  · exact ⟨rfl, rfl, rfl, rfl, rfl⟩
  · exact .refl a

theorem sameShape_seedBits (memoryMap : List MemoryRegion)
    (base len ks ke : ℕ) : SameShape a (a.seedBits memoryMap base len ks ke) := by
  have h1 : SameShape a ((memoryMap.filter (·.kind = .usable)).foldl clearRegion a) :=
    sameShape_foldl sameShape_clearRegion _ a
  have h2 := h1.trans (sameShape_markRegionUsed _ ⟨base, len, .reserved⟩)
  have h3 := h2.trans (sameShape_setUsed_ite _)
  rw [seedBits]
  split
  · exact h3.trans (sameShape_markRegionUsed _ _)
  · exact h3

theorem isUsed_blank (memory : ℕ → BitVec 8) (hint ks ke : ℕ) {total j : ℕ} (hj : j < total) :
    (blank memory ((total + 7) / 8) total hint ks ke).isUsed j = true := by
  have hlt : j / 8 < (total + 7) / 8 := by omega
  have hbyte : (blank memory ((total + 7) / 8) total hint ks ke).bitmap (j / 8) =
      BitVec.allOnes 8 := if_pos hlt
  rw [isUsed_eq, hbyte, BitVec.getLsbD_allOnes]
  exact decide_eq_true (Nat.mod_lt _ (by decide))

/-- **The bits at boot**, by the frames that the loops visit… -/
theorem isUsed_seedBits_iff (memoryMap : List MemoryRegion)
    (base len ks ke : ℕ) {j : ℕ} (hj : j < a.totalFrames) :
    (a.seedBits memoryMap base len ks ke).isUsed j = true ↔
      (a.isUsed j = true ∧ ∀ r ∈ memoryMap, r.kind = .usable →
        j ∉ rangeFrames r.base r.stop a.totalFrames) ∨
      j ∈ rangeFrames base (MemoryRegion.stop ⟨base, len, .reserved⟩) a.totalFrames ∨ j = 0 ∨
      (ks < ke ∧
        j ∈ rangeFrames ks (MemoryRegion.stop ⟨ks, ke - ks, .reserved⟩) a.totalFrames) := by
  have s1 : SameShape a ((memoryMap.filter (·.kind = .usable)).foldl clearRegion a) :=
    sameShape_foldl sameShape_clearRegion _ a
  have h1 := isUsed_foldl_clearRegion j (memoryMap.filter (·.kind = .usable)) a
  simp only [List.mem_filter, decide_eq_true_eq, and_imp] at h1
  rw [seedBits]
  generalize (memoryMap.filter (·.kind = .usable)).foldl clearRegion a = a1 at s1 h1
  have s2 := s1.trans (sameShape_markRegionUsed a1 ⟨base, len, .reserved⟩)
  have h2 := isUsed_markRegionUsed a1 ⟨base, len, .reserved⟩ j
  rw [h1, s1.total] at h2
  generalize a1.markRegionUsed ⟨base, len, .reserved⟩ = a2 at s2 h2
  have hpos : 0 < a2.totalFrames := by rw [s2.total]; omega
  have s3 : SameShape a (a2.setUsed 0) := s2.trans ⟨rfl, rfl, rfl, rfl, rfl⟩
  have h3 : (a2.setUsed 0).isUsed j = true ↔ j = 0 ∨ a2.isUsed j = true := by
    rw [isUsed_setUsed, Bool.or_eq_true, decide_eq_true_iff]
  simp only [if_pos hpos]
  split
  · rename_i hk
    rw [isUsed_markRegionUsed, s3.total, h3, h2]
    simp only [hk, true_and]
    clear * -
    tauto
  · rename_i hk
    rw [h3, h2]
    simp only [hk, false_and, or_false]
    clear * -
    tauto

variable {a}

/-- …and, when no address wraps around, by the ranges themselves. -/
theorem isUsed_seedBits {memoryMap : List MemoryRegion} (base len ks ke : ℕ) {j : ℕ}
    (ht : a.totalFrames * 4096 ≤ 2 ^ 52) (hj : j < a.totalFrames)
    (hmap : ∀ r ∈ memoryMap, r.kind = .usable → r.base + r.size ≤ 2 ^ 52)
    (hbase : base + len ≤ 2 ^ 53) (hke : ke ≤ 2 ^ 53) :
    (a.seedBits memoryMap base len ks ke).isUsed j = true ↔
      (a.isUsed j = true ∧
        ∀ r ∈ memoryMap, r.kind = .usable → ¬FrameIn r.base (r.base + r.size) j) ∨
      FrameIn base (base + len) j ∨ j = 0 ∨ (ks < ke ∧ FrameIn ks ke j) := by
  have hmem : ∀ r : MemoryRegion, r.base + r.size ≤ 2 ^ 53 →
      (j ∈ rangeFrames r.base r.stop a.totalFrames ↔ FrameIn r.base (r.base + r.size) j) := by
    intro r hr
    rw [r.stop_eq hr, mem_rangeFrames (.inl (by omega)) ht]
    exact and_iff_left hj
  have husable : ∀ r ∈ memoryMap, (r.kind = .usable →
      j ∉ rangeFrames r.base r.stop a.totalFrames) ↔
      (r.kind = .usable → ¬FrameIn r.base (r.base + r.size) j) := fun r hr =>
    imp_congr_right fun hk => not_congr (hmem r ((hmap r hr hk).trans (by norm_num)))
  rw [isUsed_seedBits_iff a memoryMap base len ks ke hj, hmem ⟨base, len, .reserved⟩ hbase,
    forall₂_congr husable]
  refine or_congr_right (or_congr_right (or_congr_right (and_congr_right fun hk => ?_)))
  rw [hmem ⟨ks, ke - ks, .reserved⟩ (by simp only; omega)]
  simp only [Nat.add_sub_cancel' hk.le]

end BitmapAllocator

/-! ## The allocator at boot -/

/-- What the allocator is built from. -/
structure BootInfo where
  memory : ℕ → BitVec 8
  bitmapRegion : ℕ × ℕ
  memoryMap : List MemoryRegion
  kernelStart : ℕ
  kernelEnd : ℕ

namespace BootInfo

variable (b : BootInfo)

/-- The allocator at boot. -/
def start : Option BitmapAllocator :=
  BitmapAllocator.new b.memory b.bitmapRegion b.memoryMap b.kernelStart b.kernelEnd

/-- Where the bitmap lies, and how long it is. -/
def base : ℕ := BitmapAllocator.bitmapBase b.bitmapRegion.1 b.kernelEnd

@[inherit_doc base]
def len : ℕ := BitmapAllocator.bitmapLen b.memoryMap

/-- The kernel image, rounded out to frames. -/
def ks : ℕ := b.kernelStart / 4096 * 4096

@[inherit_doc ks]
def ke : ℕ := (b.kernelEnd + 4095) / 4096 * 4096

/-- The frames nobody may ever hold: frame 0, the kernel image and the bitmap. -/
def Protected (i : ℕ) : Prop :=
  i = 0 ∨ FrameIn b.kernelStart b.kernelEnd i ∨ FrameIn b.base (b.base + b.len) i

/-- Some part of frame `i` is usable memory. -/
def Usable (i : ℕ) : Prop :=
  ∃ r ∈ b.memoryMap, r.kind = .usable ∧ FrameIn r.base (r.base + r.size) i

/-- The memory lies within the 52-bit physical address space, and the bitmap's region is a part of
a usable one. -/
structure Valid : Prop where
  usable_le : ∀ r ∈ b.memoryMap, r.kind = .usable → r.base + r.size ≤ 2 ^ 52
  kernelEnd_le : b.kernelEnd ≤ 2 ^ 52
  region_usable : ∃ r ∈ b.memoryMap, r.kind = .usable ∧ r.base ≤ b.bitmapRegion.1 ∧
    b.bitmapRegion.1 + b.bitmapRegion.2 ≤ r.base + r.size

variable {b} {a : BitmapAllocator}

open BitmapAllocator

variable (hv : b.Valid)
include hv

/-- A usable region ends below the largest address… -/
theorem Valid.stop_le {r : MemoryRegion} (hr : r ∈ b.memoryMap)
    (hk : r.kind = .usable) : r.base + r.size ≤ findMaxAddr b.memoryMap := by
  rw [← r.stop_eq ((hv.usable_le r hr hk).trans (by norm_num))]
  exact List.le_max_of_le (List.mem_map_of_mem (List.mem_filter.mpr ⟨hr, by simpa using hk⟩))
    le_rfl

/-- …and that one is a 52-bit address. -/
theorem Valid.findMaxAddr_le : findMaxAddr b.memoryMap ≤ 2 ^ 52 := by
  refine List.max_le_of_forall_le _ _ fun x hx => ?_
  obtain ⟨r, hr, rfl⟩ := List.mem_map.mp hx
  obtain ⟨hmem, hk⟩ := List.mem_filter.mp hr
  have hle := hv.usable_le r hmem (by simpa using hk)
  rwa [r.stop_eq (by omega)]

theorem Valid.framesFor_eq : framesFor b.memoryMap = (findMaxAddr b.memoryMap + 4095) / 4096 := by
  have := hv.findMaxAddr_le
  rw [framesFor, Nat.mod_eq_of_lt (by omega)]

theorem Valid.framesFor_le : framesFor b.memoryMap * 4096 ≤ 2 ^ 52 := by
  have := hv.findMaxAddr_le
  rw [hv.framesFor_eq]
  omega

theorem Valid.base_le
    (hfit : (b.base + b.len) % 2 ^ 64 ≤ (b.bitmapRegion.1 + b.bitmapRegion.2) % 2 ^ 64) :
    b.base + b.len ≤ findMaxAddr b.memoryMap := by
  obtain ⟨r, hr, hk, hlo, hhi⟩ := hv.region_usable
  have hstop := hv.stop_le hr hk
  have hmax := hv.findMaxAddr_le
  have hlen : b.len ≤ 2 ^ 52 := by
    have := hv.framesFor_le
    rw [len, bitmapLen]
    omega
  have hbase : b.base ≤ 2 ^ 53 := by
    have := hv.kernelEnd_le
    rw [base, bitmapBase]
    split_ifs <;> omega
  rw [Nat.mod_eq_of_lt (by omega), Nat.mod_eq_of_lt (by omega)] at hfit
  omega

/-- The bitmap before anything is cleared. -/
def blank (b : BootInfo) : BitmapAllocator :=
  BitmapAllocator.blank b.memory b.len (framesFor b.memoryMap) (b.base / 4096) b.ks b.ke

theorem Valid.start_eq (h : b.start = some a) : b.base + b.len ≤ findMaxAddr b.memoryMap ∧
      a = (b.blank.seedBits b.memoryMap b.base b.len b.ks b.ke).withSeededFreeCount := by
  have hke := hv.kernelEnd_le
  unfold start new at h
  simp only at h
  split_ifs at h with hsize hfit hlen
  rw [Nat.mod_eq_of_lt (show b.kernelEnd + 0xFFF < 2 ^ 64 by omega), some.injEq] at h
  exact ⟨hv.base_le hfit.2, h.symm⟩

theorem Valid.sound_blank (hbase : b.base + b.len ≤ findMaxAddr b.memoryMap) : b.blank.Sound := by
  have hcursor : b.base / 4096 ≤ framesFor b.memoryMap := by
    rw [hv.framesFor_eq]
    omega
  exact ⟨hcursor, hcursor, hv.framesFor_le⟩

omit hv in
theorem frameIn_kernel_iff (b : BootInfo) (j : ℕ) :
    b.ks < b.ke ∧ FrameIn b.ks b.ke j ↔ FrameIn b.kernelStart b.kernelEnd j := by
  unfold FrameIn ks ke
  omega

/-- The allocator that `new` builds. -/
structure Booted (b : BootInfo) (a : BitmapAllocator) : Prop where
  sound : a.Sound
  used : ∀ i < a.totalFrames, a.isUsed i = true ↔ b.Protected i ∨ ¬b.Usable i
  count : a.freeCount = a.clearBits.card

/-- **`new` marks what is protected and what is no memory, and counts the rest.** -/
theorem Valid.booted (h : b.start = some a) : Booted b a := by
  obtain ⟨hbase, rfl⟩ := hv.start_eq h
  have hmax := hv.findMaxAddr_le
  have hke : b.ke ≤ 2 ^ 53 := by
    have := hv.kernelEnd_le
    rw [ke]
    omega
  have hsame := sameShape_seedBits b.blank b.memoryMap b.base b.len b.ks b.ke
  have hs0 := hv.sound_blank hbase
  have hsound := hsame.sound hs0
  refine ⟨⟨hsound.1, hsound.2, hsound.3⟩, fun j hj => ?_, countFreeLocked_eq _⟩
  have hj' : j < b.blank.totalFrames := hj.trans_eq hsame.total
  have hblank : b.blank.isUsed j = true := by
    rw [blank, len, bitmapLen]
    exact isUsed_blank _ _ _ _ hj'
  refine (isUsed_seedBits b.base b.len b.ks b.ke hs0.total_le hj' hv.usable_le (by omega)
    hke).trans ?_
  rw [frameIn_kernel_iff]
  simp only [hblank, true_and, BootInfo.Protected, BootInfo.Usable, not_exists, not_and]
  clear * -
  tauto

/-! ## Only usable memory is free -/

omit hv

/-- Frame `i` is usable throughout, and meets no region of another kind. -/
structure Clean (b : BootInfo) (i : ℕ) : Prop where
  usable : ∀ x, x / 4096 = i →
    ∃ r ∈ b.memoryMap, r.kind = .usable ∧ r.base ≤ x ∧ x < r.base + r.size
  alone : ∀ r ∈ b.memoryMap, r.kind ≠ .usable → ∀ x, x / 4096 = i →
    ¬(r.base ≤ x ∧ x < r.base + r.size)

/-- Every frame whose bit is clear is clean. -/
def OnlyUsable (b : BootInfo) (a : BitmapAllocator) : Prop :=
  ∀ i < a.totalFrames, a.isUsed i = false → b.Clean i

/-- The frames that a region visits, for the map's number of frames. -/
def visits (b : BootInfo) (r : MemoryRegion) : List ℕ :=
  rangeFrames r.base r.stop (framesFor b.memoryMap)

/-- The end of the kernel image as `new` rounds it. -/
def roundedKernelEnd (b : BootInfo) : ℕ := (b.kernelEnd + 0xFFF) % 2 ^ 64 / 4096 * 4096

/-- The frames that are cleared and not set again: a usable region touches them, and neither the
bitmap nor the kernel image does. -/
structure Released (b : BootInfo) (i : ℕ) : Prop where
  touched : ∃ r ∈ b.memoryMap, r.kind = .usable ∧ i ∈ b.visits r
  notBitmap : i ∉ b.visits ⟨b.base, b.len, .reserved⟩
  notZero : i ≠ 0
  notKernel : b.ks < b.roundedKernelEnd →
    i ∉ b.visits ⟨b.ks, b.roundedKernelEnd - b.ks, .reserved⟩

theorem start_eq (h : b.start = some a) : a = ((BitmapAllocator.blank b.memory b.len
    (framesFor b.memoryMap) (b.base / 4096) b.ks b.roundedKernelEnd).seedBits b.memoryMap b.base
    b.len b.ks b.roundedKernelEnd).withSeededFreeCount := by
  unfold start new at h
  simp only at h
  split_ifs at h
  exact (some.inj h).symm

theorem isUsed_start (h : b.start = some a) {i : ℕ} (hi : i < framesFor b.memoryMap) :
    a.isUsed i = false ↔ b.Released i := by
  have hblank := isUsed_blank b.memory (b.base / 4096) b.ks b.roundedKernelEnd hi
  have hbits := isUsed_seedBits_iff (BitmapAllocator.blank b.memory b.len (framesFor b.memoryMap)
    (b.base / 4096) b.ks b.roundedKernelEnd) b.memoryMap b.base b.len b.ks b.roundedKernelEnd hi
  rw [← Bool.not_eq_true, start_eq h]
  refine (not_congr hbits).trans ?_
  constructor
  · intro hno
    push Not at hno
    obtain ⟨htouched, hbitmap, hzero, hkernel⟩ := hno
    exact ⟨htouched hblank, hbitmap, hzero, hkernel⟩
  · rintro ⟨⟨r, hr, hk, hmem⟩, hbitmap, hzero, hkernel⟩ (⟨-, hall⟩ | hin | hz | ⟨hlt, hin⟩)
    · exact hall r hr hk hmem
    · exact hbitmap hin
    · exact hzero hz
    · exact hkernel hlt hin

theorem framesFor_le (map : List MemoryRegion) : framesFor map ≤ 2 ^ 52 := by
  unfold framesFor
  omega

/-- Byte `x` lies in the region, rounded out to frames. -/
def Rounded (r : MemoryRegion) (x : ℕ) : Prop := NoWrap r.stop ∧ FrameIn r.base r.stop (x / 4096)

/-- Byte `x` is kept out of the free memory: it is in the first frame, or in one of the bitmap or of
the kernel image. -/
def Kept (b : BootInfo) (x : ℕ) : Prop :=
  x < 4096 ∨ Rounded ⟨b.base, b.len, .reserved⟩ x ∨
    b.ks < b.roundedKernelEnd ∧ Rounded ⟨b.ks, b.roundedKernelEnd - b.ks, .reserved⟩ x

theorem mem_visits_iff (b : BootInfo) (r : MemoryRegion) {x : ℕ}
    (hx : x / 4096 < framesFor b.memoryMap) : x / 4096 ∈ b.visits r ↔ Rounded r x := by
  have hstop : r.stop ≤ 2 ^ 64 - 1 := min_le_right _ _
  rw [visits, mem_rangeFrames_iff hstop (framesFor_le _), Rounded, and_iff_left hx]

theorem released_iff (b : BootInfo) {x : ℕ} (hx : x / 4096 < framesFor b.memoryMap) :
    b.Released (x / 4096) ↔
      (∃ r ∈ b.memoryMap, r.kind = .usable ∧ Rounded r x) ∧ ¬ b.Kept x := by
  simp only [Kept, ← b.mem_visits_iff _ hx, not_or, not_and]
  have hzero : x / 4096 ≠ 0 ↔ ¬ x < 4096 := by omega
  constructor
  · rintro ⟨htouched, hbitmap, hz, hkernel⟩
    exact ⟨htouched, hzero.mp hz, hbitmap, hkernel⟩
  · rintro ⟨htouched, hz, hbitmap, hkernel⟩
    exact ⟨htouched, hbitmap, hzero.mpr hz, hkernel⟩

/-- Byte `x` of the rounded region `r` does no harm: if it was taken in by the rounding it is one of
another usable region, and no region of another kind has it. -/
def Harmless (b : BootInfo) (r : MemoryRegion) (x : ℕ) : Prop :=
  (¬(r.base ≤ x ∧ x < r.base + r.size) →
    ∃ q ∈ b.memoryMap, q.kind = .usable ∧ q.base ≤ x ∧ x < q.base + q.size) ∧
  ∀ q ∈ b.memoryMap, q.kind ≠ .usable → ¬(q.base ≤ x ∧ x < q.base + q.size)

/-- **Only usable memory is free at boot exactly when every byte that a usable region takes in,
rounded out to frames, is kept out anyway or does no harm.** -/
theorem onlyUsable_iff (h : b.start = some a) :
    b.OnlyUsable a ↔ ∀ r ∈ b.memoryMap, r.kind = .usable → ∀ x < framesFor b.memoryMap * 4096,
      Rounded r x → b.Kept x ∨ b.Harmless r x := by
  have htotal : a.totalFrames = framesFor b.memoryMap := by
    rw [start_eq h]
    exact (sameShape_seedBits _ _ _ _ _ _).total
  rw [OnlyUsable, htotal]
  constructor
  · intro hall r hr hk x hx hround
    refine or_iff_not_imp_left.mpr fun hkept => ?_
    have hlt : x / 4096 < framesFor b.memoryMap := by omega
    have hclean := hall (x / 4096) hlt
      ((isUsed_start h hlt).mpr ((b.released_iff hlt).mpr ⟨⟨r, hr, hk, hround⟩, hkept⟩))
    exact ⟨fun _ => hclean.usable x rfl, fun q hq hne => hclean.alone q hq hne x rfl⟩
  · intro hall i hi hfree
    have hbyte : ∀ x, x / 4096 = i → ∃ r ∈ b.memoryMap, r.kind = .usable ∧ b.Harmless r x := by
      rintro x rfl
      obtain ⟨⟨r, hr, hk, hround⟩, hkept⟩ := (b.released_iff hi).mp ((isUsed_start h hi).mp hfree)
      exact ⟨r, hr, hk, (hall r hr hk x (by omega) hround).resolve_left hkept⟩
    refine ⟨fun x hx => ?_, fun q hq hne x hx => ?_⟩
    · obtain ⟨r, hr, hk, hmargin, -⟩ := hbyte x hx
      by_cases hin : r.base ≤ x ∧ x < r.base + r.size
      · exact ⟨r, hr, hk, hin⟩
      · exact hmargin hin
    · obtain ⟨r, -, -, -, halone⟩ := hbyte x hx
      exact halone q hq hne

/-- A usable region that ends in the middle of a frame, and what the firmware keeps behind it. -/
def halfFrame : BootInfo where
  memory _ := 0#8
  bitmapRegion := (0x2000, 0x1000)
  memoryMap := [⟨0, 0x8800, .usable⟩, ⟨0x8800, 0x800, .reserved⟩]
  kernelStart := 0x1000
  kernelEnd := 0x2000

/-- Its last frame is free, with the firmware's bytes in it. -/
theorem halfFrame_not_onlyUsable : ∃ a, halfFrame.start = some a ∧ ¬halfFrame.OnlyUsable a := by
  refine exists_of_any (fun a => 8 < a.totalFrames ∧ a.isUsed 8 = false) (by decide +kernel)
    fun a _ hbits honly => ?_
  exact (honly 8 hbits.1 hbits.2).alone ⟨0x8800, 0x800, .reserved⟩ (by decide) (by decide) 0x8800
    (by decide) (by decide)

end BootInfo

/-! ## One bit and the count -/

namespace BitmapAllocator

variable {a a' : BitmapAllocator} {i : ℕ}

/-- The cached count is the number of clear bits. -/
def CountExact (a : BitmapAllocator) : Prop := a.freeCount = a.clearBits.card

/-- Setting a clear bit takes one from the count… -/
theorem countExact_set (hs : a.Sound) (hc : a.CountExact) (ht : a'.totalFrames = a.totalFrames)
    (hi : i < a.totalFrames) (hfree : a.isUsed i = false)
    (hu : ∀ j, a'.isUsed j = (decide (j = i) || a.isUsed j))
    (hn : a'.freeCount = wrappingSub a.freeCount 1) : a'.CountExact := by
  have herase : a'.clearBits = a.clearBits.erase i := by
    ext j
    rw [mem_erase, mem_clearBits, mem_clearBits, ht, hu]
    by_cases hj : j = i <;> simp [hj]
  have hcard : a'.clearBits.card + 1 = a.clearBits.card := by
    rw [herase]
    exact card_erase_add_one (mem_clearBits.mpr ⟨hi, hfree⟩)
  have hle := card_clearBits_le a
  have htot := hs.total_le
  unfold CountExact at *
  rw [hn, hc, wrappingSub]
  omega

/-- …and clearing a set one gives it back. -/
theorem countExact_clear (hs : a.Sound) (hc : a.CountExact) (ht : a'.totalFrames = a.totalFrames)
    (hi : i < a.totalFrames) (hused : a.isUsed i = true)
    (hu : ∀ j, a'.isUsed j = (!decide (j = i) && a.isUsed j))
    (hn : a'.freeCount = wrappingAdd a.freeCount 1) : a'.CountExact := by
  have hinsert : a'.clearBits = insert i a.clearBits := by
    ext j
    rw [mem_insert, mem_clearBits, mem_clearBits, ht, hu]
    by_cases hj : j = i <;> simp [hj, hi]
  have hcard : a'.clearBits.card = a.clearBits.card + 1 := by
    rw [hinsert]
    exact card_insert_of_notMem fun h => by simp [mem_clearBits, hused] at h
  have hle := card_clearBits_le a
  have htot := hs.total_le
  unfold CountExact at *
  rw [hn, hc, wrappingAdd]
  omega

theorem Granted.countExact {addr : ℕ} (h : Granted a addr a') (hs : a.Sound)
    (hc : a.CountExact) : a'.CountExact :=
  countExact_set hs hc h.total h.lt h.wasFree h.used h.freeCount

theorem countExact_free {addr : ℕ} (hf : a.Holds addr) (hs : a.Sound) (hc : a.CountExact) :
    (a.free addr).CountExact :=
  countExact_clear hs hc (free_total a addr) hf.lt hf.used (isUsed_free hf)
    (by rw [free_of_holds hf])

/-! ## `reserve_region` -/

variable (a)

theorem sameShape_reserveFrame (i : ℕ) : SameShape a (a.reserveFrame i) := by
  rw [reserveFrame]
  split_ifs <;> exact ⟨rfl, rfl, rfl, rfl, rfl⟩

theorem isUsed_withCount (n j : ℕ) :
    ({ a with freeCount := n } : BitmapAllocator).isUsed j = a.isUsed j := rfl

variable {a}

theorem isUsed_reserveFrame {j : ℕ} (hj : j < a.totalFrames) :
    (a.reserveFrame i).isUsed j = (decide (j = i) || a.isUsed j) := by
  rw [reserveFrame]
  split_ifs with h
  · rw [isUsed_withCount, isUsed_setUsed]
  · by_cases hji : j = i
    · have hused : a.isUsed j = true := by
        rw [hji] at hj ⊢
        exact Bool.eq_true_of_not_eq_false fun hu => h ⟨hj, hu⟩
      rw [hused, Bool.or_true]
    · rw [decide_eq_false hji, Bool.false_or]

theorem countExact_reserveFrame (hs : a.Sound) (hc : a.CountExact) :
    (a.reserveFrame i).CountExact := by
  rw [reserveFrame]
  split_ifs with h
  · refine countExact_set hs hc rfl h.1 h.2 (fun j => ?_) rfl
    rw [isUsed_withCount, isUsed_setUsed]
  · exact hc

theorem reserve_foldl (l : List ℕ) (hs : a.Sound) (hc : a.CountExact) :
    (l.foldl reserveFrame a).CountExact ∧
      ∀ j < a.totalFrames, (l.foldl reserveFrame a).isUsed j = (decide (j ∈ l) || a.isUsed j) := by
  induction l generalizing a with
  | nil => exact ⟨hc, fun j _ => by simp⟩
  | cons i l ih =>
    have hsame := sameShape_reserveFrame a i
    obtain ⟨hc', hu'⟩ := ih (hsame.sound hs) (countExact_reserveFrame hs hc)
    refine ⟨hc', fun j hj => ?_⟩
    rw [List.foldl_cons, hu' j (hj.trans_eq hsame.total.symm), isUsed_reserveFrame hj]
    by_cases hji : j = i <;> simp [hji]

theorem sameShape_reserveRegion (a : BitmapAllocator) (lo hi : ℕ) :
    SameShape a (a.reserveRegion lo hi) :=
  sameShape_foldl sameShape_reserveFrame _ a

/-- **`reserve_region` marks its frames and keeps the count.** -/
theorem reserveRegion_spec {lo hi : ℕ} (hw : NoWrap hi) (hs : a.Sound) (hc : a.CountExact) :
    (a.reserveRegion lo hi).CountExact ∧ ∀ j < a.totalFrames,
      ((a.reserveRegion lo hi).isUsed j = true ↔ FrameIn lo hi j ∨ a.isUsed j = true) := by
  obtain ⟨hc', hu⟩ := reserve_foldl (rangeFrames lo hi a.totalFrames) hs hc
  refine ⟨hc', fun j hj => ?_⟩
  rw [reserveRegion, hu j hj, Bool.or_eq_true, decide_eq_true_iff, mem_rangeFrames hw hs.total_le,
    and_iff_left hj]

end BitmapAllocator

/-! ## Runs -/

/-- The allocator with the frames its callers hold and the ranges they have reserved. -/
structure FrameState where
  alloc : BitmapAllocator
  held : List ℕ
  reserved : List (ℕ × ℕ)

/-- The calls; only a held frame is given back. -/
inductive FrameOp
  | alloc
  | reserve (start stop : ℕ)
  | free (addr : ℕ)

namespace FrameState

def step (s : FrameState) : FrameOp → Option FrameState
  | .alloc =>
    match s.alloc.alloc with
    | some (addr, a) => some { s with alloc := a, held := addr :: s.held }
    | none => some s
  | .reserve start stop =>
    some { s with
      alloc := s.alloc.reserveRegion start stop
      reserved := (start, stop) :: s.reserved }
  | .free addr =>
    if addr ∈ s.held then
      some { s with alloc := s.alloc.free addr, held := s.held.erase addr }
    else none

/-- One of the reserved ranges covers frame `i`. -/
def Reserved (reserved : List (ℕ × ℕ)) (i : ℕ) : Prop := ∃ x ∈ reserved, FrameIn x.1 x.2 i

instance (reserved : List (ℕ × ℕ)) (i : ℕ) : Decidable (Reserved reserved i) :=
  inferInstanceAs (Decidable (∃ x ∈ _, _))

/-- One of the held addresses lies in frame `i`. -/
def Held (held : List ℕ) (i : ℕ) : Prop := ∃ f ∈ held, f / 4096 = i

instance (held : List ℕ) (i : ℕ) : Decidable (Held held i) :=
  inferInstanceAs (Decidable (∃ f ∈ _, _))

@[simp] theorem reserved_cons {x : ℕ × ℕ} {l : List (ℕ × ℕ)} {i : ℕ} :
    Reserved (x :: l) i ↔ FrameIn x.1 x.2 i ∨ Reserved l i := by
  simp [Reserved]

@[simp] theorem held_cons {f : ℕ} {l : List ℕ} {i : ℕ} :
    Held (f :: l) i ↔ i = f / 4096 ∨ Held l i := by
  simp [Held, eq_comm]

/-- No frame that has been reserved is given back, and no reserved range wraps around. -/
def Careful (s : FrameState) : FrameOp → Prop
  | .alloc => True
  | .reserve _ stop => NoWrap stop
  | .free addr => ¬Reserved s.reserved (addr / 4096)

instance (s : FrameState) : ∀ op, Decidable (s.Careful op)
  | .alloc => isTrue trivial
  | .reserve _ stop => inferInstanceAs (Decidable (NoWrap stop))
  | .free addr => inferInstanceAs (Decidable ¬Reserved s.reserved (addr / 4096))

/-- **The bitmap says exactly who owns what.** -/
structure Owned (b : BootInfo) (s : FrameState) : Prop where
  distinct : s.held.Pairwise fun f g => f / 4096 ≠ g / 4096
  unprotected : ∀ f ∈ s.held, ¬b.Protected (f / 4096)
  used : ∀ i < s.alloc.totalFrames, s.alloc.isUsed i = true ↔
    Held s.held i ∨ (b.Protected i ∨ Reserved s.reserved i) ∨ ¬b.Usable i
  count : s.alloc.freeCount = s.alloc.clearBits.card

variable {b : BootInfo} {s s' : FrameState}

/-- What a careful step keeps besides. -/
structure Inv (b : BootInfo) (s : FrameState) : Prop extends Owned b s where
  sound : s.alloc.Sound
  holds : ∀ f ∈ s.held, s.alloc.Holds f
  usable : ∀ f ∈ s.held, b.Usable (f / 4096)

theorem Inv.alloc {addr : ℕ} {a : BitmapAllocator} (h : Inv b s)
    (ha : s.alloc.alloc = some (addr, a)) :
    Inv b { s with alloc := a, held := addr :: s.held } := by
  have hg := BitmapAllocator.granted_of_alloc h.sound ha
  have hclear : ¬(Held s.held (addr / 4096) ∨
      (b.Protected (addr / 4096) ∨ Reserved s.reserved (addr / 4096)) ∨
      ¬b.Usable (addr / 4096)) := by
    rw [← h.used _ hg.lt, hg.wasFree]
    exact Bool.false_ne_true
  simp only [not_or, not_not] at hclear
  obtain ⟨hheld, ⟨hprot, -⟩, husable⟩ := hclear
  exact {
    distinct := List.pairwise_cons.mpr
      ⟨fun g hg' heq => hheld ⟨g, hg', heq.symm⟩, h.distinct⟩
    unprotected := List.forall_mem_cons.mpr ⟨hprot, h.unprotected⟩
    used := fun i hi => by
      have hi' : i < s.alloc.totalFrames := hi.trans_eq hg.total
      rw [held_cons, hg.used, Bool.or_eq_true, decide_eq_true_iff, h.used i hi']
      exact or_assoc.symm
    count := hg.countExact h.sound h.count
    sound := hg.sound h.sound
    holds := List.forall_mem_cons.mpr ⟨hg.holds_self, fun f hf => hg.holds (h.holds f hf)⟩
    usable := List.forall_mem_cons.mpr ⟨husable, h.usable⟩ }

theorem Inv.reserve {start stop : ℕ} (h : Inv b s) (hw : NoWrap stop) : Inv b { s with
      alloc := s.alloc.reserveRegion start stop
      reserved := (start, stop) :: s.reserved } := by
  have hsame := BitmapAllocator.sameShape_reserveRegion s.alloc start stop
  have hspec : (s.alloc.reserveRegion start stop).CountExact ∧ _ :=
    BitmapAllocator.reserveRegion_spec hw h.sound h.count
  obtain ⟨hc, hu⟩ := hspec
  exact { h with
    used := fun i hi => by
      have hi' : i < s.alloc.totalFrames := hi.trans_eq hsame.total
      rw [reserved_cons, hu i hi', h.used i hi']
      clear * -
      tauto
    count := hc
    sound := hsame.sound h.sound
    holds := fun f hf =>
      { aligned := (h.holds f hf).aligned
        lt := (h.holds f hf).lt.trans_eq hsame.total.symm
        notReserved := (hsame.isReservedFrame _).trans (h.holds f hf).notReserved
        used := (hu _ (h.holds f hf).lt).mpr (.inr (h.holds f hf).used) } }

/-- Two held frames at different addresses are different frames. -/
theorem Inv.ne_of_mem_erase {addr f : ℕ} (h : Inv b s) (hf : f ∈ s.held.erase addr) : f ≠ addr := by
  have hnodup : s.held.Nodup := h.distinct.imp fun hne heq => hne (congrArg (· / 4096) heq)
  exact ((hnodup.mem_erase_iff).mp hf).1

theorem Inv.free {addr : ℕ} (h : Inv b s) (hmem : addr ∈ s.held)
    (hres : ¬Reserved s.reserved (addr / 4096)) :
    Inv b { s with alloc := s.alloc.free addr, held := s.held.erase addr } := by
  have ha := h.holds addr hmem
  have hsub : ∀ f ∈ s.held.erase addr, f ∈ s.held := fun f hf => List.mem_of_mem_erase hf
  have hheld : ∀ i, Held (s.held.erase addr) i ↔ i ≠ addr / 4096 ∧ Held s.held i := by
    intro i
    constructor
    · rintro ⟨f, hf, rfl⟩
      have h1 := (h.holds f (hsub f hf)).aligned
      have h2 := ha.aligned
      have h3 := h.ne_of_mem_erase hf
      exact ⟨by omega, f, hsub f hf, rfl⟩
    · rintro ⟨hne, f, hf, rfl⟩
      exact ⟨f, (List.mem_erase_of_ne fun heq => hne (by rw [heq])).mpr hf, rfl⟩
  exact {
    distinct := h.distinct.sublist List.erase_sublist
    unprotected := fun f hf => h.unprotected f (hsub f hf)
    used := fun i hi => by
      have hi' : i < s.alloc.totalFrames := hi.trans_eq (BitmapAllocator.free_total _ _)
      rw [hheld, BitmapAllocator.isUsed_free ha, Bool.and_eq_true, Bool.not_eq_true',
        decide_eq_false_iff_not, h.used i hi']
      -- the frame given back is neither protected, nor reserved, nor unusable
      have hclear : i = addr / 4096 →
          ¬b.Protected i ∧ ¬Reserved s.reserved i ∧ b.Usable i := by
        rintro rfl
        exact ⟨h.unprotected addr hmem, hres, h.usable addr hmem⟩
      clear * - hclear
      tauto
    count := BitmapAllocator.countExact_free ha h.sound h.count
    sound := BitmapAllocator.free_sound h.sound
    holds := fun f hf => BitmapAllocator.holds_free (h.holds f (hsub f hf)) ha
      (h.ne_of_mem_erase hf)
    usable := fun f hf => h.usable f (hsub f hf) }

/-- **A careful step keeps the invariant.** -/
theorem Inv.step {op : FrameOp} (h : Inv b s) (hop : s.Careful op) (hs : s.step op = some s') :
    Inv b s' := by
  cases op with
  | alloc =>
    rw [FrameState.step] at hs
    split at hs
    · rename_i addr a ha
      cases hs
      exact h.alloc ha
    · cases hs
      exact h
  | reserve start stop =>
    cases hs
    exact h.reserve hop
  | free addr =>
    rw [FrameState.step] at hs
    split_ifs at hs with hmem
    cases hs
    exact h.free hmem hop

theorem inv_boot {a : BitmapAllocator} (hv : b.Valid) (h : b.start = some a) :
    Inv b ⟨a, [], []⟩ := by
  have hb := hv.booted h
  exact {
    distinct := List.Pairwise.nil
    unprotected := fun f hf => absurd hf List.not_mem_nil
    used := fun i hi => by
      rw [hb.used i hi]
      simp [Held, Reserved]
    count := hb.count
    sound := hb.sound
    holds := fun f hf => absurd hf List.not_mem_nil
    usable := fun f hf => absurd hf List.not_mem_nil }

/-- **In a careful run the bitmap says exactly who owns what.** -/
theorem owned_run (b : BootInfo) {a : BitmapAllocator} (hv : b.Valid) (h : b.start = some a)
    {ops : List FrameOp} {t : FrameState} (hops : RunMeets step Careful ⟨a, [], []⟩ ops)
    (ht : run step ⟨a, [], []⟩ ops = some t) : t.Owned b := by
  have hinv : Inv b t :=
    run_invariant (Inv b) (fun _ _ _ hi hop hs => hi.step hop hs) ops (inv_boot hv h) hops ht
  exact hinv.toOwned

/-- Eight frames of memory, with the kernel in frame 1 and the bitmap in frame 2. -/
def eightFrames : BootInfo where
  memory _ := 0#8
  bitmapRegion := (0x2000, 0x1000)
  memoryMap := [⟨0, 0x8000, .usable⟩]
  kernelStart := 0x1000
  kernelEnd := 0x2000

theorem eightFrames_valid : eightFrames.Valid where
  usable_le := by decide
  kernelEnd_le := by decide
  region_usable := by decide

theorem onlyUsable_eightFrames : ∃ a, eightFrames.start = some a ∧ eightFrames.OnlyUsable a := by
  have hsome : eightFrames.start.isSome = true := by decide +kernel
  obtain ⟨a, ha⟩ := isSome_iff_exists.mp hsome
  have hframes : BitmapAllocator.framesFor eightFrames.memoryMap = 8 := by decide +kernel
  have hkinds : ∀ r ∈ eightFrames.memoryMap, r.kind = .usable := by decide
  refine ⟨a, ha, (BootInfo.onlyUsable_iff ha).mpr fun _ _ _ x hx _ =>
    .inr ⟨fun _ => ?_, fun q hq hk => absurd (hkinds q hq) hk⟩⟩
  rw [hframes] at hx
  exact ⟨⟨0, 0x8000, .usable⟩, by decide, rfl, Nat.zero_le x, by simpa using hx⟩

theorem owned_eightFrames : ∃ a t, eightFrames.start = some a ∧
    RunMeets step Careful ⟨a, [], []⟩ [.alloc, .alloc, .free 0x3000, .reserve 0x3000 0x4000] ∧
    run step ⟨a, [], []⟩ [.alloc, .alloc, .free 0x3000, .reserve 0x3000 0x4000] = some t ∧
    t.held = [0x4000] ∧ t.Owned eightFrames := by
  have hrun : eightFrames.start.any (fun a =>
      decide (RunMeets step Careful ⟨a, [], []⟩
        [.alloc, .alloc, .free 0x3000, .reserve 0x3000 0x4000]) &&
      (run step ⟨a, [], []⟩ [.alloc, .alloc, .free 0x3000, .reserve 0x3000 0x4000]).any
        fun t => t.held = [0x4000]) = true := by decide +kernel
  obtain ⟨a, ha, hrun⟩ := (Option.any_eq_true _ _).mp hrun
  obtain ⟨hmeets, hrun⟩ := Bool.and_eq_true_iff.mp hrun
  obtain ⟨t, ht, hheld⟩ := (Option.any_eq_true _ _).mp hrun
  have hmeets := of_decide_eq_true hmeets
  exact ⟨a, t, ha, hmeets, ht, of_decide_eq_true hheld,
    owned_run eightFrames eightFrames_valid ha hmeets ht⟩

/-- A frame that was reserved while it was held is handed back as free memory. -/
theorem reserved_frame_freed : ∃ a t, eightFrames.Valid ∧ eightFrames.start = some a ∧
    run step ⟨a, [], []⟩ [.alloc, .reserve 0x3000 0x4000, .free 0x3000] = some t ∧
    ¬t.Owned eightFrames := by
  have hrun : (eightFrames.start.bind fun a =>
      run step ⟨a, [], []⟩ [.alloc, .reserve 0x3000 0x4000, .free 0x3000]).any (fun t =>
        3 < t.alloc.totalFrames ∧ t.alloc.isUsed 3 = false ∧ Reserved t.reserved 3) = true := by
    decide +kernel
  obtain ⟨t, ht, hbits⟩ := (Option.any_eq_true _ _).mp hrun
  obtain ⟨a, ha, ht⟩ := bind_eq_some_iff.mp ht
  obtain ⟨hlt, hfree, hres⟩ := of_decide_eq_true hbits
  refine ⟨a, t, eightFrames_valid, ha, ht, fun howned => ?_⟩
  have hused := (howned.used 3 hlt).mpr (.inr (.inl (.inr hres)))
  rw [hfree] at hused
  exact Bool.false_ne_true hused

end FrameState

end Bedrock
