import Bedrock.Mm.ContigRun
import Bedrock.Mm.FrameOwner

/-!
# Mm/FrameComplete — when `alloc` finds a frame

`alloc` scans the words from the cursor's on and then the words before it.  In the cursor's word it
leaves out the frames before the cursor, and the second scan does not come back to that word:

    | second scan | ▒▒▒▒▒ ▾cursor first scan | first scan |
                    skipped

Contiguous allocations move the cursor past free frames, so a frame can be left there with no other
one free.  `allocExact_iff_of_calls` says that this is the only way to miss a frame, and that the
count goes wrong only when it has already run down to zero.
-/

namespace Bedrock

open Option

namespace BitmapAllocator

variable {a a' : BitmapAllocator} {wi fuel addr i : ℕ} {mask : ℕ → BitVec 64} {ws : List ℕ}
  {candidates : BitVec 64}

/-- The exclusive frame bound of the zone below `maxPaddr`. -/
def zoneCap (a : BitmapAllocator) (maxPaddr : ℕ) : ℕ := min (maxPaddr / 4096) a.totalFrames

/-- `try_alloc_contiguous_below`. -/
def tryAllocContiguousBelow (a : BitmapAllocator) (count maxPaddr : ℕ) :
    Option (Except AllocError ℕ × BitmapAllocator) :=
  if a.zoneCap maxPaddr = 0 ∨ a.zoneCap maxPaddr < count then some (.error .noFrames, a)
  else a.allocContigCore count 1 (a.zoneCap maxPaddr)

/-- A frame that `alloc` may hand out. -/
structure FreeFrame (a : BitmapAllocator) (i : ℕ) : Prop where
  lt : i < a.totalFrames
  free : a.isUsed i = false
  notReserved : a.isReservedFrame i = false

/-- The frames of the cursor's word that the scans leave out. -/
def Skipped (a : BitmapAllocator) (i : ℕ) : Prop := i / 64 = a.cursor / 64 ∧ i < a.cursor

/-- **`alloc` refuses only when no frame is free**, and otherwise hands out a free one, marks it
alone and counts it. -/
def AllocExact (a : BitmapAllocator) : Prop :=
  match a.alloc with
  | none => ∀ i, ¬a.FreeFrame i
  | some (addr, a') => addr % 4096 = 0 ∧ a.FreeFrame (addr / 4096) ∧
      (∀ j, a'.isUsed j = (decide (j = addr / 4096) || a.isUsed j)) ∧
      a'.freeCount + 1 = a.freeCount

/-! ## The scan of a word -/

/-- The candidates of a word, as `alloc` computes them. -/
def candidatesIn (a : BitmapAllocator) (mask : ℕ → BitVec 64) (wi : ℕ) : BitVec 64 :=
  ~~~(a.readWord wi) &&& mask wi &&& a.tailMask wi

theorem FreeFrame.candidate (h : a.FreeFrame i) (hm : (mask (i / 64)).getLsbD (i % 64) = true) :
    (a.candidatesIn mask (i / 64)).getLsbD (i % 64) = true := by
  have hb : i % 64 < 64 := Nat.mod_lt _ (by decide)
  have hlt := h.lt
  have hi : i / 64 * 64 + i % 64 = i := by omega
  rw [candidatesIn, BitVec.getLsbD_and, BitVec.getLsbD_and, BitVec.getLsbD_not,
    getLsbD_readWord a _ hb, getLsbD_tailMask (by omega) hb, hi, h.free, hm, decide_eq_true hb,
    decide_eq_true hlt]
  rfl

/-- When the loop over a word gives up, all its candidates are reserved: by induction, the bits
below those still to be visited are clear. -/
theorem allocInWord_none : ∀ {fuel : ℕ} {candidates : BitVec 64},
    (∀ k, k + fuel < 64 → candidates.getLsbD k = false) → a.allocInWord wi fuel candidates = none →
    ∀ b, candidates.getLsbD b = true → a.isReservedFrame (wi * 64 + b) = true
  | 0, candidates, hlow, _, b, hb => by
    rw [hlow b (BitVec.lt_of_getLsbD hb)] at hb
    cases hb
  | fuel + 1, candidates, hlow, h, b, hb => by
    simp only [allocInWord] at h
    split_ifs at h with hz hres hk
    · rw [hz, BitVec.getLsbD_zero] at hb
      cases hb
    · obtain ⟨hlt, hset⟩ := getLsbD_trailingZeros hz
      have hclear : ∀ k, (candidates &&& ~~~(1#64 <<< trailingZeros candidates)).getLsbD k
          = (candidates.getLsbD k && !decide (k = trailingZeros candidates)) := by
        intro k
        rw [BitVec.getLsbD_and, BitVec.getLsbD_not, getLsbD_one_shiftLeft hlt]
        cases hc : candidates.getLsbD k with
        | false => rfl
        | true => rw [decide_eq_true (BitVec.lt_of_getLsbD hc), Bool.true_and]
      by_cases hbt : b = trailingZeros candidates
      · rw [hbt]
        exact hres
      · refine allocInWord_none (fun k hk => ?_) h b (by rw [hclear, hb]; simpa using hbt)
        rw [hclear]
        obtain hlt' | heq | hgt := Nat.lt_trichotomy k (trailingZeros candidates)
        · rw [getLsbD_of_lt_trailingZeros hlt', Bool.false_and]
        · rw [decide_eq_true heq, Bool.not_true, Bool.and_false]
        · rw [hlow _ (by omega)] at hset
          cases hset
    · exact absurd hk (not_kernel_of_not_reserved (by simpa using hres))

theorem allocScan_none : ∀ {ws : List ℕ}, a.allocScan mask ws = none → ∀ wi ∈ ws, ∀ b,
    (a.candidatesIn mask wi).getLsbD b = true → a.isReservedFrame (wi * 64 + b) = true
  | w :: ws, h, wi, hwi, b, hb => by
    rw [allocScan] at h
    split at h
    · cases h
    rename_i hnone
    obtain rfl | hwi := List.mem_cons.mp hwi
    · exact allocInWord_none (fun k hk => by omega) hnone b hb
    · exact allocScan_none h wi hwi b hb

/-- What the loop over a word hands out is one of its candidates. -/
theorem allocInWord_candidate : ∀ {fuel : ℕ} {candidates : BitVec 64},
    a.allocInWord wi fuel candidates = some (addr, a') →
    ∃ b, candidates.getLsbD b = true ∧ addr / 4096 = wi * 64 + b
  | 0, _, h => by simp [allocInWord] at h
  | fuel + 1, candidates, h => by
    simp only [allocInWord] at h
    split_ifs at h with hz hres hk
    · obtain ⟨b, hb, haddr⟩ := allocInWord_candidate h
      rw [BitVec.getLsbD_and, Bool.and_eq_true] at hb
      exact ⟨b, hb.1, haddr⟩
    · exact absurd hk (not_kernel_of_not_reserved (by simpa using hres))
    · simp only [some.injEq, Prod.mk.injEq] at h
      exact ⟨_, (getLsbD_trailingZeros hz).2, by rw [← h.1, Nat.mul_div_cancel _ (by decide)]⟩

theorem allocScan_candidate : ∀ {ws : List ℕ}, a.allocScan mask ws = some (addr, a') →
    ∃ wi ∈ ws, ∃ b, (mask wi).getLsbD b = true ∧ addr / 4096 = wi * 64 + b
  | w :: ws, h => by
    rw [allocScan] at h
    split at h
    · rename_i r hr
      obtain rfl : r = (addr, a') := by simpa using h
      obtain ⟨b, hb, haddr⟩ := allocInWord_candidate hr
      rw [BitVec.getLsbD_and, BitVec.getLsbD_and, Bool.and_eq_true, Bool.and_eq_true] at hb
      exact ⟨w, List.mem_cons_self, b, hb.1.2, haddr⟩
    · obtain ⟨wi, hwi, hb⟩ := allocScan_candidate h
      exact ⟨wi, List.mem_cons_of_mem _ hwi, hb⟩

/-! ## The two scans -/

/-- The mask of the first scan: in the cursor's word, the frames from the cursor on. -/
def firstMask (a : BitmapAllocator) (wi : ℕ) : BitVec 64 :=
  if wi = a.cursor / 64 ∧ 0 < a.cursor % 64 then ~~~(lowMask 64 (a.cursor % 64))
  else BitVec.allOnes 64

theorem alloc_eq (a : BitmapAllocator) : a.alloc =
    match a.allocScan a.firstMask (List.range' (a.cursor / 64)
      ((a.totalFrames + 63) / 64 - a.cursor / 64)) with
    | some r => some r
    | none => a.allocScan (fun _ => BitVec.allOnes 64) (List.range (a.cursor / 64)) := rfl

theorem getLsbD_firstMask (a : BitmapAllocator) (i : ℕ) :
    (a.firstMask (i / 64)).getLsbD (i % 64) = true ↔ ¬a.Skipped i := by
  have hb : i % 64 < 64 := Nat.mod_lt _ (by decide)
  rw [firstMask, Skipped]
  split_ifs with h
  · rw [BitVec.getLsbD_not, getLsbD_lowMask (Nat.mod_lt _ (by decide)), decide_eq_true hb,
      Bool.true_and, Bool.not_eq_true', decide_eq_false_iff_not]
    omega
  · rw [BitVec.getLsbD_allOnes, decide_eq_true hb]
    simp only [true_iff]
    omega

/-- **A refusal means that every free frame was skipped.** -/
theorem skipped_of_alloc_none (h : a.alloc = none) (hi : a.FreeFrame i) : a.Skipped i := by
  have hlt := hi.lt
  have hsplit : i / 64 * 64 + i % 64 = i := by omega
  rw [alloc_eq] at h
  split at h
  · cases h
  rename_i hfirst
  by_contra hskip
  refine absurd hi.notReserved ?_
  rw [Bool.not_eq_false, ← hsplit]
  obtain hw | hw := Nat.lt_or_ge (i / 64) (a.cursor / 64)
  · refine allocScan_none h (i / 64) (List.mem_range.mpr hw) _ (hi.candidate ?_)
    rw [BitVec.getLsbD_allOnes, decide_eq_true (Nat.mod_lt _ (by decide))]
  · refine allocScan_none hfirst (i / 64) (List.mem_range'_1.mpr (by omega)) _ (hi.candidate ?_)
    exact (getLsbD_firstMask a i).mpr hskip

/-- **A frame that is handed out was not skipped.** -/
theorem not_skipped_of_alloc (h : a.alloc = some (addr, a')) : ¬a.Skipped (addr / 4096) := by
  rw [alloc_eq] at h
  split at h
  · rename_i r hr
    obtain rfl : r = (addr, a') := by simpa using h
    obtain ⟨wi, -, b, hb, haddr⟩ := allocScan_candidate hr
    have h64 := BitVec.lt_of_getLsbD hb
    rw [haddr]
    refine (getLsbD_firstMask a _).mp ?_
    rwa [show (wi * 64 + b) / 64 = wi by omega, show (wi * 64 + b) % 64 = b by omega]
  · obtain ⟨wi, hwi, b, hb, haddr⟩ := allocScan_candidate h
    have h64 := BitVec.lt_of_getLsbD hb
    have hlt := List.mem_range.mp hwi
    rw [haddr, Skipped]
    omega

/-- `alloc` is exact when, if a frame is free, one that is not skipped is free and the count has
not run down. -/
theorem allocExact_iff (hs : a.Sound) (hn : a.freeCount < 2 ^ 64) :
    a.AllocExact ↔ ∀ i, a.FreeFrame i →
      0 < a.freeCount ∧ ∃ j, a.FreeFrame j ∧ ¬a.Skipped j := by
  rw [AllocExact]
  cases h : a.alloc with
  | none =>
    dsimp only
    constructor
    · exact fun hno i hi => absurd hi (hno i)
    · intro hcond i hi
      obtain ⟨-, j, hj, hskip⟩ := hcond i hi
      exact hskip (skipped_of_alloc_none h hj)
  | some r =>
    obtain ⟨addr, a'⟩ := r
    have hg := granted_of_alloc hs h
    have hfree : a.FreeFrame (addr / 4096) := ⟨hg.lt, hg.wasFree, hg.notReserved⟩
    have hcount := hg.freeCount
    rw [wrappingSub] at hcount
    constructor
    · exact fun hex i _ => ⟨by omega, addr / 4096, hfree, not_skipped_of_alloc h⟩
    · intro hcond
      have hpos := (hcond _ hfree).1
      exact ⟨hg.aligned, hfree, hg.used, by omega⟩

end BitmapAllocator

/-! ## Runs with contiguous allocations -/

/-- The calls: those of `FrameOp`, and the contiguous allocations. -/
inductive FrameCall
  | op (o : FrameOp)
  | contiguous (count alignPages : ℕ)
  | below (count maxPaddr : ℕ)

namespace FrameState

/-- The state after a contiguous allocation. -/
def took (s : FrameState) (count : ℕ) (r : Except AllocError ℕ × BitmapAllocator) : FrameState :=
  match r.1 with
  | .ok addr =>
    { s with alloc := r.2, held := (List.range count).map (addr + 4096 * ·) ++ s.held }
  | .error _ => { s with alloc := r.2 }

/-- `try_alloc_contiguous` asks for an alignment of one frame. -/
def call (s : FrameState) : FrameCall → Option FrameState
  | .op o => s.step o
  | .contiguous count alignPages =>
    (s.alloc.allocContigCore count alignPages s.alloc.totalFrames).map (s.took count)
  | .below count maxPaddr => (s.alloc.tryAllocContiguousBelow count maxPaddr).map (s.took count)

/-- The cursors and the count are in range. -/
structure Ranged (s : FrameState) : Prop where
  sound : s.alloc.Sound
  count_lt : s.alloc.freeCount < 2 ^ 64

variable {s s' : FrameState} {a' : BitmapAllocator} {count alignPages hiCap : ℕ}

theorem wrappingSub_lt (n k : ℕ) : wrappingSub n k < 2 ^ 64 := Nat.mod_lt _ (by decide)

theorem Ranged.took {r : Except AllocError ℕ × BitmapAllocator} (h : s.Ranged)
    (hcap : hiCap ≤ s.alloc.totalFrames)
    (hr : s.alloc.allocContigCore count alignPages hiCap = some r) : (s.took count r).Ranged := by
  obtain ⟨res, a'⟩ := r
  cases res with
  | error e =>
    obtain rfl := BitmapAllocator.allocContigCore_error hr
    exact h
  | ok addr =>
    refine ⟨(BitmapAllocator.sound_of_allocContigCore h.sound hcap hr).1, ?_⟩
    obtain ⟨lo, hi, t, s', -, -, -, -, rfl⟩ := BitmapAllocator.allocContigCore_ok hr
    exact wrappingSub_lt _ _

theorem reserveFrame_count_lt (a : BitmapAllocator) (h : a.freeCount < 2 ^ 64) : ∀ l : List ℕ,
    (l.foldl BitmapAllocator.reserveFrame a).freeCount < 2 ^ 64
  | [] => h
  | i :: l => by
    refine reserveFrame_count_lt (a.reserveFrame i) ?_ l
    rw [BitmapAllocator.reserveFrame]
    split_ifs
    · exact wrappingSub_lt _ _
    · exact h

/-- **Every call keeps the cursors and the count in range.** -/
theorem Ranged.call {c : FrameCall} (h : s.Ranged) (hs : s.call c = some s') : s'.Ranged := by
  cases c with
  | op o =>
    cases o with
    | alloc =>
      simp only [FrameState.call, step] at hs
      split at hs
      · rename_i addr a ha
        cases hs
        have hg := BitmapAllocator.granted_of_alloc h.sound ha
        exact ⟨hg.sound h.sound, hg.freeCount.trans_lt (wrappingSub_lt _ _)⟩
      · cases hs
        exact h
    | reserve start stop =>
      cases hs
      exact ⟨(BitmapAllocator.sameShape_reserveRegion _ _ _).sound h.sound,
        reserveFrame_count_lt _ h.count_lt _⟩
    | free addr =>
      simp only [FrameState.call, step, ite_none_right_eq_some] at hs
      obtain ⟨-, hs⟩ := hs
      cases hs
      refine ⟨BitmapAllocator.free_sound h.sound, ?_⟩
      simp only [BitmapAllocator.free]
      split_ifs
      · exact h.count_lt
      · exact h.count_lt
      all_goals exact Nat.mod_lt _ (by decide)
  | contiguous count alignPages =>
    obtain ⟨r, hr, rfl⟩ := map_eq_some_iff.mp hs
    exact h.took le_rfl hr
  | below count maxPaddr =>
    obtain ⟨r, hr, rfl⟩ := map_eq_some_iff.mp hs
    rw [BitmapAllocator.tryAllocContiguousBelow] at hr
    split at hr
    · cases hr
      exact h
    · exact h.took (min_le_right _ _) hr

/-- **In every state that calls reach, `alloc` is exact exactly when, if a frame is free, one
outside the skipped part of the cursor's word is free and the count has not run down to zero.** -/
theorem allocExact_iff_of_calls (b : BootInfo) {a : BitmapAllocator} (hv : b.Valid)
    (h : b.start = some a) {calls : List FrameCall} {t : FrameState}
    (ht : run call ⟨a, [], []⟩ calls = some t) : t.alloc.AllocExact ↔ ∀ i, t.alloc.FreeFrame i →
      0 < t.alloc.freeCount ∧ ∃ j, t.alloc.FreeFrame j ∧ ¬t.alloc.Skipped j := by
  have hboot : Ranged ⟨a, [], []⟩ := by
    have hb := hv.booted h
    refine ⟨hb.sound, hb.count.trans_lt ?_⟩
    have := BitmapAllocator.card_clearBits_le a
    have := hb.sound.total_le
    omega
  have hany : RunMeets call (fun _ _ => True) ⟨a, [], []⟩ calls :=
    RunMeets.of_forall (fun _ _ => trivial) _ _
  have hr : t.Ranged :=
    run_invariant Ranged (fun _ _ _ hi _ hs => hi.call hs) calls hboot hany ht
  exact BitmapAllocator.allocExact_iff hr.sound hr.count_lt

/-- Two frames are taken, the first goes back, and three more are taken in one piece: that moves
the cursor to the end of the only word. -/
def passFrame : List FrameCall :=
  [.op .alloc, .op .alloc, .op (.free 0x3000), .contiguous 3 1]

theorem allocExact_eightFrames : ∃ a t, eightFrames.start = some a ∧
    run call ⟨a, [], []⟩ [.op .alloc] = some t ∧ t.alloc.AllocExact := by
  have hrun : (eightFrames.start.bind fun a => run call ⟨a, [], []⟩ [.op .alloc]).any (fun t =>
      0 < t.alloc.freeCount ∧ t.alloc.isUsed 4 = false ∧ t.alloc.isReservedFrame 4 = false ∧
        4 < t.alloc.totalFrames ∧ t.alloc.cursor = 4) = true := by
    decide +kernel
  obtain ⟨t, ht, hbits⟩ := (Option.any_eq_true _ _).mp hrun
  obtain ⟨a, ha, ht⟩ := bind_eq_some_iff.mp ht
  obtain ⟨hpos, hfree, hres, hlt, hcursor⟩ := of_decide_eq_true hbits
  refine ⟨a, t, ha, ht, (allocExact_iff_of_calls eightFrames eightFrames_valid ha ht).mpr
    fun _ _ => ⟨hpos, 4, ⟨hlt, hfree, hres⟩, fun hskip => ?_⟩⟩
  exact absurd hskip.2 (by omega)

/-- **Then `alloc` refuses, with frame 3 free.** -/
theorem passFrame_not_allocExact : ∃ a t, eightFrames.Valid ∧ eightFrames.start = some a ∧
    run call ⟨a, [], []⟩ passFrame = some t ∧ ¬t.alloc.AllocExact := by
  have hrun : (eightFrames.start.bind fun a => run call ⟨a, [], []⟩ passFrame).any (fun t =>
      t.alloc.alloc.isNone ∧ t.alloc.isUsed 3 = false ∧ t.alloc.isReservedFrame 3 = false ∧
        3 < t.alloc.totalFrames) = true := by
    decide +kernel
  obtain ⟨t, ht, hbits⟩ := (Option.any_eq_true _ _).mp hrun
  obtain ⟨a, ha, ht⟩ := bind_eq_some_iff.mp ht
  obtain ⟨hnone, hfree, hres, hlt⟩ := of_decide_eq_true hbits
  refine ⟨a, t, eightFrames_valid, ha, ht, fun hexact => ?_⟩
  rw [BitmapAllocator.AllocExact, isNone_iff_eq_none.mp hnone] at hexact
  exact hexact 3 ⟨hlt, hfree, hres⟩

end FrameState

end Bedrock
