import Bedrock.Mm.PhysAlloc

/-!
# Mm/FrameAlloc — what a client of the frame allocator can rely on

`alloc` hands out a frame that was free, marks it and nothing else (`Granted`); `free` takes a frame
back.  Whether `alloc` finds a frame depends on its cursor, so what a client can ask for is counted
in draws: `serves n a` says that `n` allocations in a row succeed.
-/

namespace Bedrock.BitmapAllocator

variable {a a' a'' : BitmapAllocator} {addr : ℕ}

/-- The cursors stay in the managed range, which the physical address width bounds. -/
structure Sound (a : BitmapAllocator) : Prop where
  nextFree_le : a.nextFree ≤ a.totalFrames
  nextFreeHint_le : a.nextFreeHint ≤ a.totalFrames
  total_le : a.totalFrames * 4096 ≤ 2 ^ 52

/-- The frame at `addr` is managed, not reserved, and in use. -/
structure Holds (a : BitmapAllocator) (addr : ℕ) : Prop where
  aligned : addr % 4096 = 0
  lt : addr / 4096 < a.totalFrames
  notReserved : a.isReservedFrame (addr / 4096) = false
  used : a.isUsed (addr / 4096) = true

/-- `a` hands out the frame at `addr` and becomes `a'`. -/
structure Granted (a : BitmapAllocator) (addr : ℕ) (a' : BitmapAllocator) : Prop where
  aligned : addr % 4096 = 0
  lt : addr / 4096 < a.totalFrames
  notReserved : a.isReservedFrame (addr / 4096) = false
  wasFree : a.isUsed (addr / 4096) = false
  used : ∀ j, a'.isUsed j = (decide (j = addr / 4096) || a.isUsed j)
  total : a'.totalFrames = a.totalFrames
  kernelStart : a'.kernelStart = a.kernelStart
  kernelEnd : a'.kernelEnd = a.kernelEnd
  freeCount : a'.freeCount = wrappingSub a.freeCount 1
  nextFree : a'.nextFree = addr / 4096 + 1
  nextFreeHint : a'.nextFreeHint = addr / 4096 + 1

/-! ## `alloc` -/

theorem not_kernel_of_not_reserved {idx : ℕ} (h : a.isReservedFrame idx = false) :
    ¬(a.kernelStart ≤ idx * 4096 ∧ idx * 4096 < a.kernelEnd) := by
  rw [isReservedFrame] at h
  split_ifs at h
  simpa using h

/-- What the word loop grants is one of its candidates. -/
theorem allocInWord_some {wi : ℕ} : ∀ {fuel : ℕ} {candidates : BitVec 64},
    (∀ b, candidates.getLsbD b = true →
      wi * 64 + b < a.totalFrames ∧ a.isUsed (wi * 64 + b) = false) →
    a.allocInWord wi fuel candidates = some (addr, a') → Granted a addr a'
  | 0, _, _, h => by simp [allocInWord] at h
  | fuel + 1, candidates, hc, h => by
    simp only [allocInWord] at h
    split_ifs at h with hz hres hk
    · refine allocInWord_some (fun b hb => hc b ?_) h
      rw [BitVec.getLsbD_and, Bool.and_eq_true] at hb
      exact hb.1
    · exact absurd hk (not_kernel_of_not_reserved (by simpa using hres))
    · obtain ⟨hlt, hfree⟩ := hc _ (getLsbD_trailingZeros hz).2
      obtain ⟨rfl, rfl⟩ := h
      rw [← Nat.mul_div_cancel (wi * 64 + trailingZeros candidates) (by decide : 0 < 4096)]
        at hlt hfree
      constructor
      · exact Nat.mul_mod_left _ _
      · exact hlt
      · simpa using hres
      · exact hfree
      · intro j
        rw [Nat.mul_div_cancel _ (by decide)]
        exact isUsed_setUsed a _ j
      all_goals simp [setUsed]

/-- The candidates of a word are free managed frames. -/
theorem candidate_free {wi b : ℕ} {mask : BitVec 64} (hwi : wi < (a.totalFrames + 63) / 64)
    (h : (~~~(a.readWord wi) &&& mask &&& a.tailMask wi).getLsbD b = true) :
    wi * 64 + b < a.totalFrames ∧ a.isUsed (wi * 64 + b) = false := by
  have hb : b < 64 := BitVec.lt_of_getLsbD h
  rw [BitVec.getLsbD_and, BitVec.getLsbD_and, BitVec.getLsbD_not, getLsbD_readWord a wi hb] at h
  simp only [hb, decide_true, Bool.true_and, Bool.and_eq_true, Bool.not_eq_true'] at h
  obtain ⟨⟨hfree, -⟩, htail⟩ := h
  refine ⟨?_, hfree⟩
  rw [tailMask] at htail
  split_ifs at htail with hlast
  · rw [getLsbD_lowMask (Nat.mod_lt _ (by decide)), decide_eq_true_iff] at htail
    omega
  · omega

theorem allocScan_some {mask : ℕ → BitVec 64} : ∀ {ws : List ℕ},
    (∀ wi ∈ ws, wi < (a.totalFrames + 63) / 64) → a.allocScan mask ws = some (addr, a') →
      Granted a addr a'
  | [], _, h => by simp [allocScan] at h
  | wi :: ws, hws, h => by
    rw [allocScan] at h
    split at h
    · rename_i r hr
      obtain rfl : r = (addr, a') := by simpa using h
      exact allocInWord_some (fun b hb => candidate_free (hws wi (by simp)) hb) hr
    · exact allocScan_some (fun w hw => hws w (List.mem_cons_of_mem _ hw)) h

/-- **`alloc` hands out a frame that was free.** -/
theorem granted_of_alloc (hs : a.Sound) (h : a.alloc = some (addr, a')) : Granted a addr a' := by
  have h1 := hs.nextFree_le
  have h2 := hs.nextFreeHint_le
  simp only [alloc] at h
  split at h
  · rename_i r hr
    obtain rfl : r = (addr, a') := by simpa using h
    refine allocScan_some (fun wi hwi => ?_) hr
    have := List.mem_range'_1.mp hwi
    omega
  · refine allocScan_some (fun wi hwi => ?_) h
    have := List.mem_range.mp hwi
    omega

theorem Granted.isReservedFrame (h : Granted a addr a') (i : ℕ) :
    a'.isReservedFrame i = a.isReservedFrame i := by
  simp only [BitmapAllocator.isReservedFrame, h.kernelStart, h.kernelEnd]

theorem Granted.sound (h : Granted a addr a') (hs : a.Sound) : a'.Sound where
  nextFree_le := by rw [h.nextFree, h.total]; exact h.lt
  nextFreeHint_le := by rw [h.nextFreeHint, h.total]; exact h.lt
  total_le := h.total ▸ hs.total_le

/-- The frame handed out is held afterwards… -/
theorem Granted.holds_self (h : Granted a addr a') : a'.Holds addr where
  aligned := h.aligned
  lt := h.total ▸ h.lt
  notReserved := (h.isReservedFrame _).trans h.notReserved
  used := by simp [h.used]

/-- …and so is every frame that was held before, which it is none of. -/
theorem Granted.holds (h : Granted a addr a') {f : ℕ} (hf : a.Holds f) : a'.Holds f where
  aligned := hf.aligned
  lt := h.total ▸ hf.lt
  notReserved := (h.isReservedFrame _).trans hf.notReserved
  used := by simp [h.used, hf.used]

/-- Frame addresses fit the frame bits of a page-table entry. -/
theorem Holds.lt_bound (hf : a.Holds addr) (hs : a.Sound) : addr < 2 ^ 52 := by
  have := hf.lt
  have := hs.total_le
  omega

/-! ## `free` -/

theorem not_reserved_iff {i : ℕ} : a.isReservedFrame i = false ↔
    ¬(i = 0 ∨ (a.kernelStart ≤ i * 4096 ∧ i * 4096 < a.kernelEnd)) := by
  rw [BitmapAllocator.isReservedFrame]
  split_ifs with h
  · simp [h]
  · simp [h]

/-- Freeing a held frame clears its bit and counts it. -/
theorem free_of_holds (hf : a.Holds addr) : a.free addr = { a.setFree (addr / 4096) with
      freeCount := wrappingAdd a.freeCount 1
      nextFree := if addr / 4096 < a.nextFree then addr / 4096 else a.nextFree
      nextFreeHint := if addr / 4096 < a.nextFreeHint then addr / 4096 else a.nextFreeHint } := by
  simp only [free]
  rw [if_neg (Nat.not_le.mpr hf.lt), if_neg (not_reserved_iff.mp hf.notReserved)]

theorem free_total (a : BitmapAllocator) (addr : ℕ) :
    (a.free addr).totalFrames = a.totalFrames := by
  simp only [free]
  split_ifs <;> rfl

theorem free_sound (hs : a.Sound) : (a.free addr).Sound := by
  have h1 := hs.nextFree_le
  simp only [free]
  split_ifs with hle hres
  · exact hs
  · exact hs
  all_goals exact ⟨by simp only [setFree]; omega, by simp only [setFree]; omega, hs.total_le⟩

theorem isUsed_free (hf : a.Holds addr) (j : ℕ) :
    (a.free addr).isUsed j = (!decide (j = addr / 4096) && a.isUsed j) := by
  rw [free_of_holds hf]
  exact isUsed_setFree a _ j

theorem free_isReservedFrame (i : ℕ) : (a.free addr).isReservedFrame i = a.isReservedFrame i := by
  simp only [free]
  split_ifs <;> rfl

theorem holds_free {f : ℕ} (hf : a.Holds f) (ha : a.Holds addr) (hne : f ≠ addr) :
    (a.free addr).Holds f where
  aligned := hf.aligned
  lt := (free_total a addr).symm ▸ hf.lt
  notReserved := (free_isReservedFrame _).trans hf.notReserved
  used := by
    have h1 := hf.aligned
    have h2 := ha.aligned
    rw [isUsed_free ha, hf.used]
    simpa using by omega

/-! ## Draws -/

/-- The allocator after `n` allocations in a row, if they all succeed. -/
def drawn : ℕ → BitmapAllocator → Option BitmapAllocator
  | 0, a => some a
  | n + 1, a =>
    match a.alloc with
    | some (_, a') => drawn n a'
    | none => none

/-- `n` allocations in a row succeed. -/
def serves (n : ℕ) (a : BitmapAllocator) : Bool := (drawn n a).isSome

@[simp] theorem drawn_zero (a : BitmapAllocator) : drawn 0 a = some a := rfl

theorem drawn_succ_of_alloc {n : ℕ} (h : a.alloc = some (addr, a')) :
    drawn (n + 1) a = drawn n a' := by rw [drawn, h]

theorem drawn_succ_of_none {n : ℕ} (h : a.alloc = none) : drawn (n + 1) a = none := by
  rw [drawn, h]

theorem drawn_add (k : ℕ) : ∀ (n : ℕ) (a : BitmapAllocator),
    drawn (n + k) a = (drawn n a).bind (drawn k)
  | 0, a => by simp
  | n + 1, a => by
    rw [Nat.succ_add, drawn, drawn]
    cases a.alloc with
    | none => rfl
    | some r => exact drawn_add k n r.2

theorem serves_mono {n k : ℕ} (hk : k ≤ n) (h : serves n a = true) : serves k a = true := by
  obtain ⟨d, rfl⟩ := Nat.exists_eq_add_of_le hk
  rw [serves, drawn_add] at h
  rw [serves]
  cases hd : drawn k a with
  | none => simp [hd] at h
  | some a' => rfl

/-- Draws keep the allocator sound and hold on to what it holds. -/
theorem drawn_spec : ∀ {n : ℕ} {a a' : BitmapAllocator}, a.Sound → drawn n a = some a' →
    a'.Sound ∧ a'.totalFrames = a.totalFrames ∧
      (∀ j, a.isUsed j = true → a'.isUsed j = true) ∧ ∀ f, a.Holds f → a'.Holds f
  | 0, a, a', hs, h => by
    obtain rfl : a = a' := by simpa using h
    exact ⟨hs, rfl, fun _ h => h, fun _ h => h⟩
  | n + 1, a, a', hs, h => by
    cases ha : a.alloc with
    | none => rw [drawn_succ_of_none ha] at h; simp at h
    | some r =>
      have hg := granted_of_alloc hs ha
      rw [drawn_succ_of_alloc ha] at h
      obtain ⟨hs', ht, hu, hh⟩ := drawn_spec (hg.sound hs) h
      exact ⟨hs', ht.trans hg.total, fun j hj => hu j (by simp [hg.used, hj]),
        fun f hf => hh f (hg.holds hf)⟩

end Bedrock.BitmapAllocator
