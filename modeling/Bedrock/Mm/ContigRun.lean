import Bedrock.Mm.FrameAlloc

/-!
# Mm/ContigRun — which windows a contiguous allocation takes

    scanWord --▸ scanWords --▸ findRun --▸ contigLoop --▸ allocContigCore

`scanWord` extends a run carried over a word boundary by the trailing zeros of the complement of
the word — its leading **used** frames — and carries a run that stopped short of the word's end, so
a window need not be free.  It does lie inside the managed frames (`findRun_le`): that is what a
grant needs to keep the allocator sound.  `Probes` are the windows the search tries, and
`allocContigCore_ok` and `allocContigCore_error` say which of them answers.
-/

namespace Bedrock

open Option

namespace BitmapAllocator

variable {a : BitmapAllocator} {count al alignPages lo hi wi rs rl s i : ℕ}

/-! ## The aligned window inside a run -/

/-- **A window `emit` picks is aligned and lies inside its run.** -/
theorem emit_some (hal : 0 < al) (h : emit count al rs rl = some s) :
    rs ≤ s ∧ s + count ≤ rs + rl ∧ al ∣ s := by
  simp only [emit] at h
  split at h
  · cases h
  split at h
  · cases h
    refine ⟨Nat.le_add_right _ _, by omega, ?_⟩
    have hlt : rs % al < al := Nat.mod_lt _ hal
    rw [Nat.dvd_iff_mod_eq_zero, Nat.add_mod, Nat.mod_mod]
    by_cases h0 : rs % al = 0
    · simp [h0]
    · rw [Nat.mod_eq_of_lt (by omega : al - rs % al < al),
        show rs % al + (al - rs % al) = al by omega,
        Nat.mod_self]
  · cases h

/-! ## The bits of one word -/

theorem wordBits_le (a : BitmapAllocator) (wi : ℕ) : a.wordBits wi ≤ 64 := by
  have := Nat.mod_lt a.totalFrames (by decide : 0 < 64)
  unfold wordBits
  split_ifs <;> omega

theorem getLsbD_wordMask (a : BitmapAllocator) (wi i : ℕ) :
    (a.wordMask wi).getLsbD i = decide (i < a.wordBits wi) := by
  unfold wordMask
  split
  · rename_i h; rw [h, BitVec.getLsbD_allOnes]
  · exact getLsbD_lowMask (lt_of_le_of_ne (wordBits_le a wi) ‹_›) i

theorem le_clearEnd {w : BitVec 64} {nbits : ℕ} : ∀ fuel i : ℕ, i ≤ clearEnd w nbits fuel i
  | 0, _ => le_rfl
  | fuel + 1, i => by
    rw [clearEnd]
    split
    · exact (Nat.le_succ i).trans (le_clearEnd fuel (i + 1))
    · exact le_rfl

/-! ## The carried run -/

/-- The frames word `wi` adds to a run carried into it: all of them when the word is free, its
leading *used* frames otherwise. -/
def carryGain (a : BitmapAllocator) (lo hi wi : ℕ) : ℕ :=
  if a.windowWord lo hi wi = 0#64 then a.wordBits wi else trailingZeros (~~~(a.windowWord lo hi wi))

/-- The search of `[lo, hi)` reaches word `wi` carrying the run `(rs, rl)`. -/
inductive Carries (a : BitmapAllocator) (count alignPages lo hi : ℕ) : ℕ → ℕ → ℕ → Prop
  | start : lo < hi → Carries a count alignPages lo hi (lo / 64) 0 0
  | next {wi rs rl rs' rl' : ℕ} : Carries a count alignPages lo hi wi rs rl → wi < endWord hi →
      a.scanWord count alignPages lo hi wi rs rl = .run rs' rl' →
      Carries a count alignPages lo hi (wi + 1) rs' rl'

variable (h : Carries a count al lo hi wi rs rl)
include h

theorem Carries.le_word : lo / 64 ≤ wi := by
  induction h with
  | start _ => exact le_rfl
  | next _ _ _ ih => omega

omit h in
/-- One round of the word loop: a fresh window, a window out of the carried run, or a new carry. -/
theorem scanWord_cases (a : BitmapAllocator) (count alignPages lo hi wi rs rl : ℕ) :
    (∃ s, 0 < rl ∧ emit count alignPages rs (rl + a.carryGain lo hi wi) = some s ∧
      a.scanWord count alignPages lo hi wi rs rl = .found s) ∨
    (rl = 0 ∧ a.windowWord lo hi wi = 0#64 ∧
      ∃ s, emit count alignPages (wi * 64) (a.wordBits wi) = some s ∧
        a.scanWord count alignPages lo hi wi rs rl = .found s) ∨
    (a.windowWord lo hi wi = 0#64 ∧ a.scanWord count alignPages lo hi wi rs rl =
      .run (if rl = 0 then wi * 64 else rs) (rl + a.wordBits wi)) ∨
    ∃ i, a.scanWord count alignPages lo hi wi rs rl =
      scanBits count alignPages wi (a.windowWord lo hi wi) (a.wordBits wi) 65 i rs 0 := by
  by_cases hw : a.windowWord lo hi wi = 0#64
  · obtain rfl | hpos := Nat.eq_zero_or_pos rl
    · cases he : emit count alignPages (wi * 64) (a.wordBits wi) with
      | none => exact Or.inr (Or.inr (Or.inl ⟨hw, by simp [scanWord, hw, he]⟩))
      | some s => exact Or.inr (Or.inl ⟨rfl, hw, s, rfl, by simp [scanWord, hw, he]⟩)
    · have hne : rl ≠ 0 := by omega
      cases he : emit count alignPages rs (rl + a.wordBits wi) with
      | none => exact Or.inr (Or.inr (Or.inl ⟨hw, by simp [scanWord, hw, he, hne]⟩))
      | some s =>
        exact Or.inl ⟨s, hpos, by rw [carryGain, if_pos hw, he], by simp [scanWord, hw, he, hne]⟩
  · obtain rfl | hpos := Nat.eq_zero_or_pos rl
    · exact Or.inr (Or.inr (Or.inr ⟨0, by simp [scanWord, hw]⟩))
    · cases he : emit count alignPages rs (rl + trailingZeros (~~~(a.windowWord lo hi wi))) with
      | none =>
        exact Or.inr (Or.inr (Or.inr ⟨trailingZeros (~~~(a.windowWord lo hi wi)) + 1,
          by simp [scanWord, hw, he, hpos]⟩))
      | some s =>
        exact Or.inl ⟨s, hpos, by rw [carryGain, if_neg hw, he],
          by simp [scanWord, hw, he, hpos]⟩

omit h

/-! ## The end of the managed range -/

theorem wordBits_end (h : wi < (a.totalFrames + 63) / 64) :
    wi * 64 + a.wordBits wi ≤ a.totalFrames := by
  unfold wordBits
  split_ifs <;> omega

/-- Past the first word of the search, no bit above the managed ones is set. -/
theorem getLsbD_windowWord_of_le (hwi : lo / 64 < wi) (h : a.wordBits wi ≤ i) :
    (a.windowWord lo hi wi).getLsbD i = false := by
  have hmask : (a.wordMask wi).getLsbD i = false := by
    rw [getLsbD_wordMask, decide_eq_false_iff_not]
    omega
  have hfirst : ¬(wi = lo / 64 ∧ lo % 64 ≠ 0) := by omega
  simp only [windowWord, if_neg hfirst]
  split_ifs
  · simp only [BitVec.getLsbD_or, BitVec.getLsbD_and, hmask, Bool.and_false, Bool.or_false]
  · simp only [BitVec.getLsbD_and, hmask, Bool.and_false]

theorem carryGain_le (hwi : lo / 64 < wi) : a.carryGain lo hi wi ≤ a.wordBits wi := by
  unfold carryGain
  split_ifs
  · exact le_rfl
  · by_contra hlt
    have h64 := trailingZeros_le (~~~(a.windowWord lo hi wi))
    have hset := getLsbD_of_lt_trailingZeros (Nat.lt_of_not_le hlt)
    rw [BitVec.getLsbD_not, getLsbD_windowWord_of_le hwi le_rfl, Bool.not_false, Bool.and_true,
      decide_eq_false_iff_not] at hset
    omega

theorem clearEnd_le {w : BitVec 64} {nbits : ℕ} : ∀ (fuel i : ℕ), i ≤ nbits →
    clearEnd w nbits fuel i ≤ nbits
  | 0, _, h => h
  | fuel + 1, i, h => by
    rw [clearEnd]
    split
    · exact clearEnd_le fuel (i + 1) (by omega)
    · exact h

/-- What a scan finds or carries out ends by frame `stop`. -/
def Scan.EndsBy (count stop : ℕ) : Scan → Prop
  | .found s => s + count ≤ stop
  | .run rs rl => rs + rl ≤ stop

theorem scanBits_endsBy (hal : 0 < al) {w : BitVec 64} {nbits : ℕ} :
    ∀ (fuel i rs rl : ℕ), rs + rl ≤ wi * 64 + nbits →
      (scanBits count al wi w nbits fuel i rs rl).EndsBy count (wi * 64 + nbits)
  | 0, i, rs, rl, h => h
  | fuel + 1, i, rs, rl, h => by
    rw [scanBits]
    by_cases hin : i < nbits
    · rw [if_pos hin]
      by_cases hclear : w &&& (1#64 <<< i) = 0#64
      · rw [if_pos hclear]
        have hend : clearEnd w nbits 64 i ≤ nbits := clearEnd_le 64 i hin.le
        have hle : i ≤ clearEnd w nbits 64 i := le_clearEnd 64 i
        dsimp only
        cases he : emit count al (wi * 64 + i) (clearEnd w nbits 64 i - i) with
        | some s =>
          have := (emit_some hal he).2.1
          show s + count ≤ wi * 64 + nbits
          omega
        | none => exact scanBits_endsBy hal fuel _ _ _ (by omega)
      · rw [if_neg hclear]
        exact scanBits_endsBy hal fuel _ _ _ h
    · rw [if_neg hin]
      exact h

/-- A run carried to a word lies before it. -/
theorem Carries.le_end (hal : 0 < al) (h : Carries a count al lo hi wi rs rl) :
    rs + rl ≤ wi * 64 := by
  induction h with
  | start _ => exact Nat.zero_le _
  | @next wi rs rl rs' rl' hc _ hstep ih =>
    have h64 := wordBits_le a wi
    rcases scanWord_cases a count al lo hi wi rs rl with
      ⟨s, _, _, hf⟩ | ⟨_, _, s, _, hf⟩ | ⟨hw, hr⟩ | ⟨i, hb⟩
    · cases hf.symm.trans hstep
    · cases hf.symm.trans hstep
    · rw [hr] at hstep
      injection hstep with hrs hrl
      subst hrs hrl
      split_ifs <;> omega
    · rw [hb] at hstep
      have hle : (Scan.run rs' rl').EndsBy count (wi * 64 + a.wordBits wi) :=
        hstep ▸ scanBits_endsBy hal 65 i rs 0 (by omega)
      have : rs' + rl' ≤ wi * 64 + a.wordBits wi := hle
      omega

/-- …so a window found at a word ends in that word. -/
theorem Carries.found_le (hal : 0 < al) (h : Carries a count al lo hi wi rs rl)
    (hf : a.scanWord count al lo hi wi rs rl = .found s) :
    s + count ≤ wi * 64 + a.wordBits wi := by
  have hcarry := h.le_end hal
  rcases scanWord_cases a count al lo hi wi rs rl with
    ⟨s', hpos, he, hf'⟩ | ⟨rfl, hw, s', he, hf'⟩ | ⟨hw, hr⟩ | ⟨i, hb⟩
  · obtain rfl : s' = s := by simpa [hf'] using hf
    obtain ⟨-, hend, -⟩ := emit_some hal he
    have hgain : a.carryGain lo hi wi ≤ a.wordBits wi := by
      refine carryGain_le (lt_of_le_of_ne h.le_word fun hfirst => ?_)
      cases h with
      | start _ => exact absurd hpos (lt_irrefl 0)
      | next hc' => have := hc'.le_word; omega
    omega
  · obtain rfl : s' = s := by simpa [hf'] using hf
    obtain ⟨-, hend, -⟩ := emit_some hal he
    omega
  · cases hr.symm.trans hf
  · have hle : (scanBits count al wi (a.windowWord lo hi wi) (a.wordBits wi) 65 i rs
        0).EndsBy count (wi * 64 + a.wordBits wi) :=
      scanBits_endsBy hal 65 i rs 0 (by omega)
    rwa [← hb, hf] at hle

/-- A window the word loop returns ends in the managed range. -/
theorem scanWords_le (hal : 0 < al) (hhi : hi ≤ a.totalFrames) : ∀ (n wi rs rl : ℕ),
    Carries a count al lo hi wi rs rl → wi + n = endWord hi →
    a.scanWords count al lo hi (List.range' wi n) rs rl = some s → s + count ≤ a.totalFrames
  | 0, wi, rs, rl, _, _, h => by simp [scanWords] at h
  | n + 1, wi, rs, rl, hc, hn, h => by
    have hword : wi * 64 + a.wordBits wi ≤ a.totalFrames := by
      refine wordBits_end ?_
      unfold endWord at hn
      split_ifs at hn <;> omega
    rw [List.range'_succ, scanWords] at h
    cases hs : a.scanWord count al lo hi wi rs rl with
    | found s' =>
      obtain rfl : s' = s := by simpa [hs] using h
      exact (hc.found_le hal hs).trans hword
    | run rs' rl' =>
      rw [hs] at h
      exact scanWords_le hal hhi n (wi + 1) _ _ (hc.next (by omega) hs) (by omega) h

/-- **A window `findRun` returns ends in the managed range.** -/
theorem findRun_le (hal : 0 < al) (hhi : hi ≤ a.totalFrames)
    (h : a.findRun count al lo hi = some s) : s + count ≤ a.totalFrames := by
  unfold findRun at h
  split_ifs at h
  have hle : lo / 64 ≤ endWord hi := by unfold endWord; omega
  exact scanWords_le hal hhi (endWord hi - lo / 64) (lo / 64) 0 0 (Carries.start (by omega))
    (by omega) h

/-! ## The probes of one allocation -/

/-- The frame index both passes start from. -/
def cursor (a : BitmapAllocator) : ℕ := max a.nextFreeHint a.nextFree

/-- The request passes the argument checks. -/
def Accepts (a : BitmapAllocator) (count alignPages hiCap : ℕ) : Prop :=
  ¬(count = 0 ∨ a.totalFrames < count ∨ hiCap < count) ∧
    ¬(alignPages = 0 ∨ isPowerOfTwo alignPages = false)

/-- The windows `[lo, hi)` one call searches, with its wrap-around flag: first the cursor's tail,
then past every window that hits the kernel, and once from 0 up to the cursor. -/
inductive Probes (a : BitmapAllocator) (count alignPages hiCap : ℕ) : ℕ → ℕ → Bool → Prop
  | first : Accepts a count alignPages hiCap → Probes a count alignPages hiCap a.cursor hiCap false
  | skip {lo hi s : ℕ} {t : Bool} : Probes a count alignPages hiCap lo hi t →
      a.findRun count alignPages lo hi = some s → a.rangeOverlapsKernel s count = true →
      s + 1 + count ≤ hi → Probes a count alignPages hiCap (s + 1) hi t
  | wrapEmpty {lo : ℕ} : Probes a count alignPages hiCap lo hiCap false →
      a.findRun count alignPages lo hiCap = none → Probes a count alignPages hiCap 0 a.cursor true
  | wrapKernel {lo s : ℕ} : Probes a count alignPages hiCap lo hiCap false →
      a.findRun count alignPages lo hiCap = some s → a.rangeOverlapsKernel s count = true →
      hiCap < s + 1 + count → Probes a count alignPages hiCap 0 a.cursor true

/-- The allocator after the span of `count` frames from `s` was handed out. -/
def grant (a : BitmapAllocator) (s count : ℕ) : BitmapAllocator :=
  { a.setUsedRange s count with
    nextFree := s + count, nextFreeHint := s + count, freeCount := wrappingSub a.freeCount count }

variable {hiCap fuel : ℕ} {t : Bool}

theorem Accepts.align_pos (h : Accepts a count al hiCap) : 0 < al :=
  Nat.pos_of_ne_zero fun h0 => h.2 (Or.inl h0)

theorem Probes.accepts (h : Probes a count al hiCap lo hi t) :
    Accepts a count al hiCap := by
  induction h with
  | first h => exact h
  | skip _ _ _ _ ih | wrapEmpty _ _ ih | wrapKernel _ _ _ _ ih => exact ih

theorem rangeOverlapsKernel_false (h : a.rangeOverlapsKernel s count = false) :
    s ≠ 0 ∧ ¬(a.kernelStart < s * 4096 + count * 4096 ∧ s * 4096 < a.kernelEnd) := by
  unfold rangeOverlapsKernel at h
  split_ifs at h with hs
  exact ⟨hs, fun hk => by simp [hk.1, hk.2] at h⟩

/-- A window clear of the kernel ends the loop; the source's second kernel test cannot fire. -/
theorem contigLoop_grant (nextFree : ℕ) (hf : a.findRun count al lo hi = some s)
    (hk : a.rangeOverlapsKernel s count = false) :
    contigLoop count al hiCap nextFree (fuel + 1) a lo hi t
      = some (.ok (s * 4096), a.grant s count) := by
  have hno := (rangeOverlapsKernel_false hk).2
  simp only [contigLoop, hf, hk, Bool.false_eq_true, if_false, if_neg hno]
  rfl

/-- A window that hits the kernel moves the probe past it… -/
theorem contigLoop_skip (nextFree : ℕ) (hf : a.findRun count al lo hi = some s)
    (hk : a.rangeOverlapsKernel s count = true) (hle : s + 1 + count ≤ hi) :
    contigLoop count al hiCap nextFree (fuel + 1) a lo hi t
      = contigLoop count al hiCap nextFree fuel a (s + 1) hi t := by
  simp only [contigLoop, hf, hk, if_true, if_neg (Nat.not_lt.mpr hle)]

/-- …or, past the end of the window, out of this pass. -/
theorem contigLoop_skip_end (nextFree : ℕ) (hf : a.findRun count al lo hi = some s)
    (hk : a.rangeOverlapsKernel s count = true) (hlt : hi < s + 1 + count) :
    contigLoop count al hiCap nextFree (fuel + 1) a lo hi t
      = if t = false ∧ hi = hiCap then
          contigLoop count al hiCap nextFree fuel a 0 nextFree true
        else some (.error .noFrames, a) := by
  simp only [contigLoop, hf, hk, if_true, if_pos hlt]

theorem contigLoop_none (nextFree : ℕ) (hf : a.findRun count al lo hi = none) :
    contigLoop count al hiCap nextFree (fuel + 1) a lo hi t
      = if t = false ∧ hi = hiCap then
          contigLoop count al hiCap nextFree fuel a 0 nextFree true
        else some (.error .noFrames, a) := by
  simp only [contigLoop, hf]

theorem allocContigCore_eq (h : Accepts a count al hiCap) :
    a.allocContigCore count al hiCap
      = contigLoop count al hiCap a.cursor (hiCap + a.cursor + 2 + 1) a a.cursor hiCap false
    := by
  simp only [allocContigCore, if_neg h.1, if_neg h.2]
  rfl

/-- The loop refuses and changes nothing, or grants what it found in a window it probed. -/
theorem contigLoop_some : ∀ (fuel lo hi : ℕ) (t : Bool) {r : Except AllocError ℕ × BitmapAllocator},
    Probes a count al hiCap lo hi t →
    contigLoop count al hiCap a.cursor fuel a lo hi t = some r →
    r = (.error .noFrames, a) ∨ ∃ lo' hi' t' s, Probes a count al hiCap lo' hi' t' ∧
      a.findRun count al lo' hi' = some s ∧ a.rangeOverlapsKernel s count = false ∧
      r = (.ok (s * 4096), a.grant s count)
  | 0, lo, hi, t, r, _, h => by simp [contigLoop] at h
  | fuel + 1, lo, hi, t, r, hp, h => by
    cases hf : a.findRun count al lo hi with
    | none =>
      rw [contigLoop_none _ hf] at h
      split at h
      · rename_i hw
        obtain ⟨rfl, hhi⟩ := hw
        rw [hhi] at hp hf
        exact contigLoop_some fuel _ _ _ (hp.wrapEmpty hf) h
      · exact .inl (some.inj h).symm
    | some s =>
      cases hk : a.rangeOverlapsKernel s count with
      | false =>
        rw [contigLoop_grant _ hf hk] at h
        exact .inr ⟨lo, hi, t, s, hp, hf, hk, (some.inj h).symm⟩
      | true =>
        obtain hlt | hge := Nat.lt_or_ge hi (s + 1 + count)
        · rw [contigLoop_skip_end _ hf hk hlt] at h
          split at h
          · rename_i hw
            obtain ⟨rfl, hhi⟩ := hw
            rw [hhi] at hp hf hlt
            exact contigLoop_some fuel _ _ _ (hp.wrapKernel hf hk hlt) h
          · exact .inl (some.inj h).symm
        · rw [contigLoop_skip _ hf hk hge] at h
          exact contigLoop_some fuel _ _ _ (hp.skip hf hk hge) h

theorem allocContigCore_of_not_accepts (h : ¬Accepts a count al hiCap) :
    a.allocContigCore count al hiCap = some (.error .invalidCount, a) := by
  unfold allocContigCore
  split
  · rfl
  · rename_i h1
    split
    · rfl
    · exact absurd ⟨h1, ‹_›⟩ h

/-- **What is granted was found in a probed window**, clear of the kernel. -/
theorem allocContigCore_ok {addr : ℕ} {a' : BitmapAllocator}
    (h : a.allocContigCore count al hiCap = some (.ok addr, a')) :
    ∃ lo hi t s, Probes a count al hiCap lo hi t ∧
      a.findRun count al lo hi = some s ∧ a.rangeOverlapsKernel s count = false ∧
      addr = s * 4096 ∧ a' = a.grant s count := by
  by_cases hacc : Accepts a count al hiCap
  · rw [allocContigCore_eq hacc] at h
    obtain hno | ⟨lo, hi, t, s, hp, hf, hk, hr⟩ := contigLoop_some _ _ _ _ (.first hacc) h
    · simp at hno
    · simp only [Prod.mk.injEq, Except.ok.injEq] at hr
      exact ⟨lo, hi, t, s, hp, hf, hk, hr⟩
  · simp [allocContigCore_of_not_accepts hacc] at h

theorem allocContigCore_error {e : AllocError} {a' : BitmapAllocator}
    (h : a.allocContigCore count al hiCap = some (.error e, a')) : a' = a := by
  by_cases hacc : Accepts a count al hiCap
  · rw [allocContigCore_eq hacc] at h
    obtain hno | ⟨lo, hi, t, s, hp, hf, hk, hr⟩ := contigLoop_some _ _ _ _ (.first hacc) h
    · exact congrArg Prod.snd hno
    · simp at hr
  · rw [allocContigCore_of_not_accepts hacc] at h
    exact (congrArg Prod.snd (some.inj h)).symm

/-! ## What a grant changes -/

/-- What a caller of `alloc_contig_core` may rely on when the span at `addr` is granted: it was
free, it alone changed, it is aligned, and it avoids frame 0 and the kernel image. -/
structure ContigGrant (a a' : BitmapAllocator) (addr count alignPages : ℕ) : Prop where
  free_before : ∀ i, addr / 4096 ≤ i → i < addr / 4096 + count → a.isUsed i = false
  used_after : ∀ i, a'.isUsed i =
    (a.isUsed i || decide (addr / 4096 ≤ i ∧ i < addr / 4096 + count))
  aligned : addr % (alignPages * 4096) = 0
  not_reserved : ∀ i, addr / 4096 ≤ i → i < addr / 4096 + count →
    i ≠ 0 ∧ ¬(a.kernelStart ≤ i * 4096 ∧ i * 4096 < a.kernelEnd)

/-- Every grant of this call is safe. -/
def ContigSafe (a : BitmapAllocator) (count alignPages hiCap : ℕ) : Prop :=
  ∀ addr a', a.allocContigCore count alignPages hiCap = some (.ok addr, a') →
    ContigGrant a a' addr count alignPages

theorem Probes.hi_le (h : Probes a count al hiCap lo hi t) (hs : a.Sound)
    (hcap : hiCap ≤ a.totalFrames) : hi ≤ a.totalFrames := by
  induction h with
  | first _ => exact hcap
  | skip _ _ _ _ ih => exact ih
  | wrapEmpty _ _ _ | wrapKernel _ _ _ _ _ => exact max_le hs.nextFreeHint_le hs.nextFree_le

theorem totalFrames_setUsedRange (a : BitmapAllocator) (s n : ℕ) :
    (a.setUsedRange s n).totalFrames = a.totalFrames := by
  unfold setUsedRange
  induction List.range' s n generalizing a with
  | nil => rfl
  | cons i l ih => exact ih (a.setUsed i)

/-- **A contiguous grant lies in the managed range and keeps the allocator sound.** -/
theorem sound_of_allocContigCore {a' : BitmapAllocator} {addr : ℕ} (hs : a.Sound)
    (hcap : hiCap ≤ a.totalFrames)
    (h : a.allocContigCore count al hiCap = some (.ok addr, a')) :
    a'.Sound ∧ a'.totalFrames = a.totalFrames ∧ addr / 4096 + count ≤ a.totalFrames := by
  obtain ⟨lo, hi, t, s, hp, hf, -, rfl, rfl⟩ := allocContigCore_ok h
  have hle := findRun_le hp.accepts.align_pos (hp.hi_le hs hcap) hf
  have htotal : (a.grant s count).totalFrames = a.totalFrames :=
    totalFrames_setUsedRange a s count
  refine ⟨⟨htotal ▸ hle, htotal ▸ hle, htotal ▸ hs.total_le⟩, htotal, ?_⟩
  rwa [Nat.mul_div_cancel s (by decide)]

end BitmapAllocator

end Bedrock
