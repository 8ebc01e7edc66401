import Bedrock.Lib.Run
import Bedrock.Mm.Regions

/-!
# Mm/RegionInv — when the regions of an address space stay apart

Three tests keep regions from overlapping: the break's growth boundary, `collides` for a fixed
mapping and the interval test of the gap search.  Each treats the guard page and the boundary case
in its own way, and two of them miss a case:

    growth boundary    spans that start *above* the break       misses one that starts at it
    collides           candidate and its guard against spans    exact
    gap search         candidate without its guard              misses a span that ends at it

The gap search runs into its case only at the random point it starts from.  In a run that meets
neither, the regions stay apart, the heap is what lies between floor and break, and everything but
the stack ends below the ceiling (`noCollision_of_clean`).
-/

namespace Bedrock

open List Option

/-! ## Spans -/

namespace Region

/-- The collision spans have no byte in common. -/
def Apart (r q : Region) : Prop :=
  (collSpan r).2 ≤ (collSpan q).1 ∨ (collSpan q).2 ≤ (collSpan r).1

instance : DecidableRel Apart := fun _ _ => inferInstanceAs (Decidable (_ ∨ _))

variable {r : Region}

theorem Apart.symm {q : Region} (h : r.Apart q) : q.Apart r := Or.symm h

instance : Std.Symm Apart := ⟨fun _ _ => Apart.symm⟩

/-- Page-aligned, not empty, above the null page, and guarded exactly if it is a mapping or the
stack. -/
structure Sized (r : Region) : Prop where
  aligned : page ∣ r.vaddr
  nonempty : 1 ≤ r.pages
  aboveNull : page ≤ r.vaddr
  guarded : r.guard = decide (r.kind = .anon ∨ r.kind = .stack)

theorem collSpan_snd (r : Region) : (collSpan r).2 = r.stop := rfl

theorem collSpan_fst_le (r : Region) : (collSpan r).1 ≤ r.vaddr := Nat.sub_le _ _

theorem collSpan_fst_of_guard (h : r.guard = true) :
    (collSpan r).1 = r.vaddr - page := by simp [collSpan, h]

theorem collSpan_fst_of_not_guard (h : r.guard = false) :
    (collSpan r).1 = r.vaddr := by simp [collSpan, h]

theorem Sized.vaddr_add_page_le (h : r.Sized) : r.vaddr + page ≤ r.stop :=
  Nat.add_le_add_left (Nat.le_mul_of_pos_left _ h.nonempty) _

theorem Sized.dvd_stop (h : r.Sized) : page ∣ r.stop :=
  (Nat.dvd_add_right h.aligned).mpr (Nat.dvd_mul_left _ _)

theorem Sized.fst_lt_stop (h : r.Sized) : (collSpan r).1 < r.stop := by
  have hv := h.vaddr_add_page_le
  have hle := collSpan_fst_le r
  have hp : page = 4096 := rfl
  omega

/-- The span of a mapping or of the stack is two pages at least. -/
theorem Sized.two_pages (h : r.Sized) (hk : r.kind = .anon ∨ r.kind = .stack) :
    (collSpan r).1 + 2 * page ≤ r.stop := by
  have hv := h.vaddr_add_page_le
  have hn := h.aboveNull
  have hg : r.guard = true := by simpa [hk] using h.guarded
  rw [collSpan_fst_of_guard hg]
  omega

end Region

/-! ## What the loader registers -/

variable {imageFloor imageTop stackTop : ℕ}

theorem Loaded.gap (h : Loaded imageFloor imageTop stackTop) : imageTop + 9 * page ≤ stackTop := by
  have hwin := h.window
  have himg := h.imageMax
  have hmax : userImageMax + 9 * page = userStackTop - userStackAslrWindow := by decide
  omega

theorem Loaded.stackTop_lt (h : Loaded imageFloor imageTop stackTop) : stackTop < u64Bound :=
  h.stackMax.trans_lt (by decide)

theorem Loaded.image_stop (h : Loaded imageFloor imageTop stackTop) :
    imageFloor + (imageTop - imageFloor) / page * page = imageTop := by
  have := h.nonempty
  rw [Nat.div_mul_cancel (Nat.dvd_sub h.dvdTop h.dvdFloor)]
  omega

/-! ## The layout -/

namespace AddressSpace

open Region

/-- The regions never collide: spans apart, the heap exactly from floor to break, everything but
the stack below the ceiling. -/
structure NoCollision (asp : AddressSpace) : Prop where
  apart : asp.regions.Pairwise Region.Apart
  heap : (asp.regions.filter fun r => r.kind = .heap).map (fun r => (r.vaddr, r.stop)) =
    if asp.brkFloor < asp.brkCur then [(asp.brkFloor, asp.brkCur)] else []
  below : ∀ r ∈ asp.regions, r.kind ≠ .stack → r.stop ≤ asp.userCeiling

/-- The layout that the operations keep, below a ceiling that none of them moves. -/
structure Layout (ceil : ℕ) (asp : AddressSpace) : Prop where
  apart : asp.regions.Pairwise Region.Apart
  sized : ∀ r ∈ asp.regions, r.Sized
  image : ∀ r ∈ asp.regions, r.kind = .image → r.stop = asp.brkFloor
  hasImage : ∃ r ∈ asp.regions, r.kind = .image
  heap : ∀ r ∈ asp.regions, r.kind = .heap → r.vaddr = asp.brkFloor ∧ r.stop = asp.brkCur
  hasHeap : asp.brkFloor < asp.brkCur → ∃ r ∈ asp.regions, r.kind = .heap
  stack : ∀ r ∈ asp.regions, r.kind = .stack → (collSpan r).1 = ceil
  hasStack : ∃ r ∈ asp.regions, r.kind = .stack
  below : ∀ r ∈ asp.regions, r.kind ≠ .stack → r.stop ≤ ceil
  floorLe : asp.brkFloor ≤ asp.brkCur
  curLe : asp.brkCur ≤ ceil
  dvdFloor : page ∣ asp.brkFloor
  dvdCur : page ∣ asp.brkCur
  ceilLt : ceil < u64Bound

variable {ceil : ℕ} {asp : AddressSpace}

namespace Layout

variable (h : Layout ceil asp)
include h

theorem userCeiling_eq : asp.userCeiling = ceil := by
  obtain ⟨s, hs, hk⟩ := h.hasStack
  unfold userCeiling
  cases hf : asp.regions.find? fun r => r.kind = .stack with
  | none => simpa using find?_eq_none.mp hf s hs (by simpa using hk)
  | some r => exact h.stack r (mem_of_find?_eq_some hf) (by simpa using find?_some hf)

/-- Regions of different kinds are different regions. -/
theorem apart_of_kind {r q : Region} (hr : r ∈ asp.regions) (hq : q ∈ asp.regions)
    (hk : r.kind ≠ q.kind) : r.Apart q :=
  h.apart.forall hr hq fun he => hk (congrArg _ he)

/-- **There is at most one heap region.** -/
theorem heaps : (asp.regions.filter fun r => r.kind = .heap) = [] ∨
    ∃ q, (asp.regions.filter fun r => r.kind = .heap) = [q] := by
  match hf : asp.regions.filter fun r => r.kind = .heap with
  | [] => exact Or.inl hf
  | [q] => exact Or.inr ⟨q, hf⟩
  | q :: p :: rest =>
    have hmem : ∀ r ∈ q :: p :: rest, r ∈ asp.regions ∧ r.kind = .heap := fun r hr => by
      rw [← hf] at hr
      simpa using hr
    have hpw : (q :: p :: rest).Pairwise Region.Apart := hf ▸ h.apart.filter _
    obtain ⟨hq, hqk⟩ := hmem q (by simp)
    obtain ⟨hp, hpk⟩ := hmem p (by simp)
    have happ : q.Apart p := (pairwise_cons.mp hpw).1 p (by simp)
    have hlt := (h.sized q hq).fst_lt_stop
    have hle := (h.sized p hp).fst_lt_stop
    have hqs := (h.heap q hq hqk).2
    have hps := (h.heap p hp hpk).2
    simp only [Region.Apart, collSpan_snd] at happ
    omega

theorem noCollision : asp.NoCollision where
  apart := h.apart
  below r hr hk := h.userCeiling_eq ▸ h.below r hr hk
  heap := by
    have hmem : ∀ {r}, r ∈ (asp.regions.filter fun r => r.kind = .heap) ↔
        r ∈ asp.regions ∧ r.kind = .heap := by simp
    obtain hf | ⟨q, hf⟩ := h.heaps
    · rw [hf, if_neg]
      · rfl
      · intro hlt
        obtain ⟨r, hr, hk⟩ := h.hasHeap hlt
        simpa [hf] using hmem.mpr ⟨hr, hk⟩
    · obtain ⟨hq, hk⟩ := hmem.mp (hf ▸ mem_singleton_self q)
      obtain ⟨hv, hs⟩ := h.heap q hq hk
      have hne := (h.sized q hq).vaddr_add_page_le
      have hp : page = 4096 := rfl
      rw [hf, if_pos (by omega)]
      simp [hv, hs]

/-- A span that starts below the break ends at the floor or is the heap. -/
theorem stop_le_floor {r : Region} (hr : r ∈ asp.regions) (hk : r.kind ≠ .heap)
    (hlt : (collSpan r).1 < asp.brkCur) : r.stop ≤ asp.brkFloor := by
  by_cases hki : r.kind = .image
  · exact (h.image r hr hki).le
  obtain ⟨i, hi, hik⟩ := h.hasImage
  have hai : r.Apart i := h.apart_of_kind hr hi (hik ▸ hki)
  have hisz := (h.sized i hi).fst_lt_stop
  have histop := h.image i hi hik
  simp only [Region.Apart, collSpan_snd] at hai
  obtain hai | hai := hai
  · omega
  -- the region starts above the image, so the break is above the floor and there is a heap
  obtain ⟨p, hp, hpk⟩ := h.hasHeap (by omega)
  have hap : r.Apart p := h.apart_of_kind hr hp (hpk ▸ hk)
  obtain ⟨hpv, hps⟩ := h.heap p hp hpk
  have hple := collSpan_fst_le p
  simp only [Region.Apart, collSpan_snd] at hap
  omega

theorem stop_ne_above_brk {r : Region} (hr : r ∈ asp.regions) : r.stop ≠ asp.brkCur + page := by
  intro hs
  have hp : page = 4096 := rfl
  have hfc := h.floorLe
  cases hk : r.kind with
  | image => have := h.image r hr hk; omega
  | heap => have := (h.heap r hr hk).2; omega
  | stack | anon =>
    have h2 := (h.sized r hr).two_pages (by simp [hk])
    have := h.stop_le_floor hr (by simp [hk]) (by omega)
    omega

/-! ## The break -/

/-- Every span but the heap's leaves the room up to `new` alone, as long as `new` is no higher
than the spans that start at the break or above. -/
theorem room {new : ℕ} (hnew : ∀ r ∈ asp.regions, asp.brkCur ≤ (collSpan r).1 →
    new ≤ (collSpan r).1) {r : Region} (hr : r ∈ asp.regions) (hk : r.kind ≠ .heap) :
    r.stop ≤ asp.brkFloor ∨ new ≤ (collSpan r).1 := by
  obtain hlt | hge := Nat.lt_or_ge (collSpan r).1 asp.brkCur
  · exact Or.inl (h.stop_le_floor hr hk hlt)
  · exact Or.inr (hnew r hr hge)

/-- **The heap region can be put anywhere from the floor into the room above it.** -/
theorem setHeap {new c : ℕ} {p : Region} {rs : List Region} (hp : p.kind = .heap) (hps : p.Sized)
    (hpv : p.vaddr = asp.brkFloor) (hpe : p.stop = new) (hnew : page ∣ new)
    (hroom : ∀ r ∈ asp.regions, asp.brkCur ≤ (collSpan r).1 → new ≤ (collSpan r).1)
    (hrs : rs.Perm (p :: asp.regions.filter fun r => r.kind ≠ .heap)) :
    Layout ceil { asp with brkCur := new, committed := c, regions := rs } := by
  have hmem : ∀ r, r ∈ rs ↔ r = p ∨ r ∈ asp.regions ∧ r.kind ≠ .heap := fun r => by
    rw [hrs.mem_iff]
    simp
  have hle := hps.vaddr_add_page_le
  obtain ⟨s, hs, hsk⟩ := h.hasStack
  have hceil : new ≤ ceil := by
    have := h.stack s hs hsk
    exact this ▸ hroom s hs (this ▸ h.curLe)
  have hfst : (collSpan p).1 = asp.brkFloor := by
    rw [collSpan_fst_of_not_guard (by simpa [hp] using hps.guarded), hpv]
  constructor
  · rw [hrs.pairwise_iff (R := Region.Apart) fun h => h.symm, pairwise_cons]
    refine ⟨fun r hr => ?_, h.apart.filter _⟩
    have hr' : r ∈ asp.regions ∧ r.kind ≠ .heap := by simpa using hr
    have := h.room hroom hr'.1 hr'.2
    simp only [Region.Apart, collSpan_snd]
    omega
  · rintro r hr
    obtain rfl | ⟨hr, -⟩ := (hmem r).mp hr
    exacts [hps, h.sized r hr]
  · rintro r hr hk
    obtain rfl | ⟨hr, -⟩ := (hmem r).mp hr
    exacts [absurd (hp.symm.trans hk) (by decide), h.image r hr hk]
  · obtain ⟨i, hi, hik⟩ := h.hasImage
    exact ⟨i, (hmem i).mpr (Or.inr ⟨hi, by simp [hik]⟩), hik⟩
  · rintro r hr hk
    obtain rfl | ⟨-, hn⟩ := (hmem r).mp hr
    exacts [⟨hpv, hpe⟩, absurd hk hn]
  · exact fun _ => ⟨p, (hmem p).mpr (Or.inl rfl), hp⟩
  · rintro r hr hk
    obtain rfl | ⟨hr, -⟩ := (hmem r).mp hr
    exacts [absurd (hp.symm.trans hk) (by decide), h.stack r hr hk]
  · exact ⟨s, (hmem s).mpr (Or.inr ⟨hs, by simp [hsk]⟩), hsk⟩
  · rintro r hr hk
    obtain rfl | ⟨hr, -⟩ := (hmem r).mp hr
    exacts [hpe ▸ hceil, h.below r hr hk]
  · simp only
    omega
  · exact hceil
  · exact h.dvdFloor
  · exact hnew
  · exact h.ceilLt

end Layout

/-- Resizing the only heap region replaces it among the others. -/
theorem setHeapPages_perm (pages : ℕ) {q : Region} : ∀ {rs : List Region},
    (rs.filter fun r => r.kind = .heap) = [q] →
      (setHeapPages pages rs).Perm
        ({ q with pages := pages } :: rs.filter fun r => r.kind ≠ .heap)
  | [], h => by simp at h
  | r :: rs, h => by
    by_cases hk : r.kind = .heap
    · have hrs : r = q ∧ (rs.filter fun r => r.kind = .heap) = [] := by simpa [hk] using h
      have hall : (rs.filter fun r => r.kind ≠ .heap) = rs := by
        simpa using hrs.2
      obtain rfl := hrs.1
      rw [setHeapPages, if_pos hk, filter_cons_of_neg (by simp [hk]), hall]
    · have hrs : (rs.filter fun r => r.kind = .heap) = [q] := by simpa [hk] using h
      simpa [setHeapPages, hk] using
        ((setHeapPages_perm pages hrs).cons r).trans (List.Perm.swap _ _ _)

theorem growthBoundary_le {r : Region} (hr : r ∈ asp.regions) (hlt : asp.brkCur < (collSpan r).1) :
    asp.growthBoundary ≤ (collSpan r).1 := by
  -- the accumulator only goes down, and is at most
  have hmono : ∀ (rs : List Region) (b : ℕ), rs.foldl (fun b r =>
      if asp.brkCur < (collSpan r).1 then min b (collSpan r).1 else b) b ≤ b := by
    intro rs
    induction rs with
    | nil => exact fun b => le_rfl
    | cons q rs ih =>
      intro b
      refine (ih _).trans ?_
      dsimp only
      split
      exacts [min_le_left _ _, le_rfl]
  obtain ⟨pre, post, hsplit⟩ := append_of_mem hr
  unfold growthBoundary
  rw [hsplit, foldl_append, foldl_cons, if_pos hlt]
  exact (hmono post _).trans (min_le_right _ _)

namespace Layout

variable (h : Layout ceil asp)
include h

theorem pages_mul {new : ℕ} (hnew : page ∣ new) (hle : asp.brkFloor ≤ new) :
    asp.brkFloor + (new - asp.brkFloor) / page * page = new := by
  rw [Nat.div_mul_cancel (Nat.dvd_sub hnew h.dvdFloor)]
  omega

theorem floor_pages_pos {new : ℕ} (hnew : page ∣ new)
    (hlt : asp.brkFloor < new) : 1 ≤ (new - asp.brkFloor) / page := by
  by_contra hzero
  have hmul := h.pages_mul hnew hlt.le
  simp only [Nat.not_le, Nat.lt_one_iff] at hzero
  rw [hzero] at hmul
  omega

theorem page_le_floor : page ≤ asp.brkFloor := by
  obtain ⟨i, hi, hik⟩ := h.hasImage
  have := (h.sized i hi).vaddr_add_page_le
  have := h.image i hi hik
  omega

/-- A region from the floor to `new`, as `brk` writes it. -/
theorem sized_heap {new : ℕ} (hnew : page ∣ new) (hlt : asp.brkFloor < new)
    {p : Region} (hk : p.kind = .heap) (hv : p.vaddr = asp.brkFloor) (hg : p.guard = false)
    (hp : p.pages = (new - asp.brkFloor) / page) : p.Sized where
  aligned := hv ▸ h.dvdFloor
  nonempty := hp ▸ h.floor_pages_pos hnew hlt
  aboveNull := hv ▸ h.page_le_floor
  guarded := by simp [hk, hg]

theorem setHeapPages {new c : ℕ} (hnew : page ∣ new) (hlt : asp.brkFloor < new)
    (hroom : ∀ r ∈ asp.regions, asp.brkCur ≤ (collSpan r).1 → new ≤ (collSpan r).1) {q : Region}
    (hq : (asp.regions.filter fun r => r.kind = .heap) = [q]) : Layout ceil { asp with
      brkCur := new
      committed := c
      regions := AddressSpace.setHeapPages ((new - asp.brkFloor) / page) asp.regions } := by
  have hmem : q ∈ asp.regions ∧ q.kind = .heap := by
    have := hq ▸ mem_singleton_self q
    simpa using this
  have hv := (h.heap q hmem.1 hmem.2).1
  have hg : q.guard = false := by simpa [hmem.2] using (h.sized q hmem.1).guarded
  refine h.setHeap (p := { q with pages := (new - asp.brkFloor) / page }) hmem.2
    (h.sized_heap hnew hlt hmem.2 hv hg rfl) hv ?_ hnew hroom (setHeapPages_perm _ hq)
  exact (congrArg (· + _) hv).trans (h.pages_mul hnew hlt.le)

/-- **A committed growth keeps the layout**, unless a span starts right at the break. -/
theorem brkGrown {new npages : ℕ} (hnew : page ∣ new)
    (hlt : asp.brkCur < new) (hb : new ≤ asp.growthBoundary)
    (hfree : ∀ r ∈ asp.regions, (collSpan r).1 ≠ asp.brkCur) :
    Layout ceil (asp.brkGrown new npages) := by
  have hfloor : asp.brkFloor < new := h.floorLe.trans_lt hlt
  have hroom : ∀ r ∈ asp.regions, asp.brkCur ≤ (collSpan r).1 → new ≤ (collSpan r).1 :=
    fun r hr hle => hb.trans (growthBoundary_le hr (lt_of_le_of_ne hle (hfree r hr).symm))
  obtain hq | ⟨q, hq⟩ := h.heaps
  · have hnone : (asp.regions.any fun r => r.kind = .heap) = false := by simpa using hq
    have hall : (asp.regions.filter fun r => r.kind ≠ .heap) = asp.regions := by
      simpa using hq
    simp only [AddressSpace.brkGrown, hnone]
    refine h.setHeap (p := heapRegion asp.brkFloor ((new - asp.brkFloor) / page)) rfl
      (h.sized_heap hnew hfloor rfl rfl rfl rfl) rfl (h.pages_mul hnew hfloor.le) hnew hroom ?_
    rw [hall]
    exact perm_append_singleton _ _
  · have hsome : (asp.regions.any fun r => r.kind = .heap) = true := by
      have : q ∈ asp.regions.filter fun r => r.kind = .heap := hq ▸ mem_singleton_self q
      simpa using ⟨q, by simpa using this⟩
    simp only [AddressSpace.brkGrown, hsome]
    exact h.setHeapPages hnew hfloor hroom hq

/-- …and so does a shrink. -/
theorem brkShrunk {new npages : ℕ} (hnew : page ∣ new)
    (hlt : new < asp.brkCur) (hfloor : asp.brkFloor ≤ new) :
    Layout ceil (asp.brkShrunk new npages) := by
  have hroom : ∀ r ∈ asp.regions, asp.brkCur ≤ (collSpan r).1 → new ≤ (collSpan r).1 :=
    fun r _ hle => hlt.le.trans hle
  obtain heq | hgt := eq_or_lt_of_le hfloor
  · have hz : (new - asp.brkFloor) / page = 0 := by simp [heq]
    simp only [AddressSpace.brkShrunk, hz]
    have hmem : ∀ r, r ∈ (asp.regions.filter fun r => r.kind ≠ .heap) ↔
        r ∈ asp.regions ∧ r.kind ≠ .heap := by simp
    obtain ⟨i, hi, hik⟩ := h.hasImage
    obtain ⟨s, hs, hsk⟩ := h.hasStack
    exact { h with
      apart := h.apart.filter _
      sized := fun r hr => h.sized r ((hmem r).mp hr).1
      image := fun r hr => h.image r ((hmem r).mp hr).1
      hasImage := ⟨i, (hmem i).mpr ⟨hi, by simp [hik]⟩, hik⟩
      heap := fun r hr hk => absurd hk ((hmem r).mp hr).2
      hasHeap := fun hlt => absurd heq (Nat.ne_of_lt hlt)
      stack := fun r hr => h.stack r ((hmem r).mp hr).1
      hasStack := ⟨s, (hmem s).mpr ⟨hs, by simp [hsk]⟩, hsk⟩
      below := fun r hr => h.below r ((hmem r).mp hr).1
      floorLe := hfloor
      curLe := hlt.le.trans h.curLe
      dvdCur := hnew }
  · have hne : (new - asp.brkFloor) / page ≠ 0 := Nat.one_le_iff_ne_zero.mp
      (h.floor_pages_pos hnew hgt)
    obtain hq | ⟨q, hq⟩ := h.heaps
    · obtain ⟨r, hr, hk⟩ := h.hasHeap (by omega)
      exact absurd hk (by simpa using filter_eq_nil_iff.mp hq r hr)
    · simp only [AddressSpace.brkShrunk, hne]
      exact h.setHeapPages hnew hgt hroom hq

end Layout

/-! ## Mappings -/

/-- A range below the top of the address space that does not intersect a span. -/
theorem rangeIntersects_eq_false {a len b e : ℕ} (ha : a + len < u64Bound) :
    rangeIntersects a len b e = false ↔ e ≤ a ∨ a + len ≤ b := by
  simp only [rangeIntersects, decide_eq_false_iff_not]
  omega

/-- The gap search ends at its start or one page above a span that was in its way. -/
theorem fitLoop_some {len v : ℕ} : ∀ {fuel cand : ℕ}, asp.fitLoop len fuel cand = some v →
    v + len ≤ asp.userCeiling ∧
      (∀ r ∈ asp.regions, rangeIntersects v len (collSpan r).1 (collSpan r).2 = false) ∧
      (v = cand ∨ cand ≤ v ∧ ∃ r ∈ asp.regions, v = r.stop + page)
  | 0, cand, h => by simp [fitLoop] at h
  | fuel + 1, cand, h => by
    rw [fitLoop] at h
    split_ifs at h
    split at h
    · rename_i hc hlen hfind
      obtain rfl : cand = v := by simpa using h
      refine ⟨by omega, fun r hr => ?_, Or.inl rfl⟩
      simpa using find?_eq_none.mp hfind r hr
    · rename_i r hfind
      split at h
      · simp at h
      have hr := mem_of_find?_eq_some hfind
      have hlt : cand < r.stop := by
        have := find?_some hfind
        simp only [rangeIntersects, decide_eq_true_eq] at this
        exact this.1
      obtain ⟨hle, hno, hv⟩ := fitLoop_some h
      rw [collSpan_snd, max_eq_left (by omega)] at hv
      refine ⟨hle, hno, Or.inr ?_⟩
      obtain rfl | ⟨hge, q, hq, rfl⟩ := hv
      exacts [⟨by omega, r, hr, rfl⟩, ⟨by omega, q, hq, rfl⟩]

/-- A place for a mapping of `len` bytes: aligned, above the null page, below the ceiling, and
clear of every span together with its own guard page. -/
structure Free (ceil : ℕ) (asp : AddressSpace) (v len : ℕ) : Prop where
  aligned : page ∣ v
  aboveNull : page ≤ v
  below : v + len ≤ ceil
  clear : ∀ r ∈ asp.regions, r.stop ≤ v - page ∨ v + len ≤ (collSpan r).1

namespace Layout

variable (h : Layout ceil asp)
include h

/-- **What the gap search finds is free**, if no span ends where it starts. -/
theorem free_of_findFitFrom {npages start v : ℕ} (hal : page ∣ start)
    (hlo : asp.brkCur + page ≤ start) (hne : ∀ r ∈ asp.regions, r.stop ≠ start)
    (hf : asp.findFitFrom npages start = some v) : Free ceil asp v (npages * page) := by
  obtain ⟨hle, hno, hv⟩ := fitLoop_some hf
  rw [h.userCeiling_eq] at hle
  have hceil := h.ceilLt
  have hp : page = 4096 := rfl
  have hvlo : asp.brkCur + page ≤ v := by rcases hv with rfl | ⟨hv, -⟩ <;> omega
  have hval : page ∣ v := by
    obtain rfl | ⟨-, r, hr, rfl⟩ := hv
    exacts [hal, (h.sized r hr).dvd_stop.add (dvd_refl _)]
  refine ⟨hval, by omega, hle, fun r hr => ?_⟩
  -- the search leaves out the guard page, which only a span ending at `v` itself can reach
  have hnot := (rangeIntersects_eq_false (by omega)).mp (hno r hr)
  rw [collSpan_snd] at hnot
  have hstop : r.stop ≠ v := by
    obtain rfl | ⟨hge, q, hq, rfl⟩ := hv
    · exact hne r hr
    intro hs
    have hfc := h.floorLe
    have hqsz := (h.sized q hq).fst_lt_stop
    have happ : r.Apart q := h.apart.forall hr hq (by rintro rfl; omega)
    simp only [Region.Apart, collSpan_snd] at happ
    cases hk : r.kind with
    | image => have := h.image r hr hk; omega
    | heap => have := (h.heap r hr hk).2; omega
    | stack | anon =>
      have := (h.sized r hr).two_pages (by simp [hk])
      omega
  have hsal := (h.sized r hr).dvd_stop
  simp only [page] at hsal hval hnot ⊢
  omega

theorem free_of_randomFitStart {len rnd start : ℕ} (hs : asp.randomFitStart len rnd = some start) :
    page ∣ start ∧ asp.brkCur + page ≤ start := by
  unfold randomFitStart at hs
  simp only [ite_none_left_eq_some, some.injEq] at hs
  obtain ⟨-, -, -, rfl⟩ := hs
  exact ⟨(h.dvdCur.add (dvd_refl _)).add (Nat.dvd_mul_left _ _), by omega⟩

/-- …so the place that `find_fit` chooses is free, if no span ends at the random probe point. -/
theorem free_of_findFit {npages rnd v : ℕ}
    (hne : ∀ start, asp.randomFitStart (npages * page) rnd = some start →
      ∀ r ∈ asp.regions, r.stop ≠ start)
    (hf : asp.findFit npages rnd = some v) : Free ceil asp v (npages * page) := by
  unfold findFit at hf
  split at hf
  · simp at hf
  split at hf
  · rename_i hb
    obtain rfl : _ = v := by simpa using hf
    obtain ⟨start, hs, hfit⟩ := bind_eq_some_iff.mp hb
    obtain ⟨hal, hlo⟩ := h.free_of_randomFitStart hs
    exact h.free_of_findFitFrom hal hlo (hne start hs) hfit
  · split at hf
    · simp at hf
    exact h.free_of_findFitFrom (h.dvdCur.add (dvd_refl _)) le_rfl
      (fun r hr => h.stop_ne_above_brk hr) hf

theorem free_of_not_collides {addr len : ℕ} (hal : addr % page = 0)
    (hnull : page ≤ addr) (hle : addr + len ≤ asp.userCeiling)
    (hc : asp.collides addr len = false) : Free ceil asp addr len := by
  refine ⟨Nat.dvd_of_mod_eq_zero hal, hnull, h.userCeiling_eq ▸ hle, fun r hr => ?_⟩
  have := any_eq_false.mp hc r hr
  rw [decide_eq_true_iff, collSpan_snd] at this
  omega

theorem free_of_mmapPlace {addr len rnd v : ℕ} (hlen : len % page = 0)
    (hne : addr = 0 → ∀ start, asp.randomFitStart len rnd = some start →
      ∀ r ∈ asp.regions, r.stop ≠ start)
    (hp : asp.mmapPlace addr len rnd = .ok v) : Free ceil asp v len := by
  have hmul : len / page * page = len := Nat.div_mul_cancel (Nat.dvd_of_mod_eq_zero hlen)
  unfold mmapPlace at hp
  split at hp
  · rename_i ha
    split at hp
    · rename_i hf
      obtain rfl : _ = v := by simpa using hp
      have := h.free_of_findFit (by rw [hmul]; exact hne ha) hf
      rwa [hmul] at this
    · simp at hp
  split at hp
  · simp at hp
  split at hp
  · simp at hp
  split_ifs at hp with hc
  obtain rfl : addr = v := by simpa using hp
  exact h.free_of_not_collides (by omega) (by omega) (by omega) (by simpa using hc)

/-- **Adding a mapping at a free place keeps the layout.** -/
theorem mapped {p : MmapPlan} (hpos : 1 ≤ p.npages)
    (hf : Free ceil asp p.vaddr (p.npages * page)) : Layout ceil (asp.mapped p) := by
  have hmem : ∀ r, r ∈ (asp.mapped p).regions → r ∈ asp.regions ∨
      r.kind = .anon ∧ r.Sized ∧ r.stop ≤ ceil := by
    intro r hr
    obtain hr | hr := mem_append.mp hr
    · exact Or.inl hr
    · obtain rfl := mem_singleton.mp hr
      exact Or.inr ⟨rfl, ⟨hf.aligned, hpos, hf.aboveNull, rfl⟩, hf.below⟩
  have hkeep : ∀ k, (∃ r ∈ asp.regions, r.kind = k) → ∃ r ∈ (asp.mapped p).regions, r.kind = k :=
    fun k ⟨r, hr, hk⟩ => ⟨r, mem_append_left _ hr, hk⟩
  exact { h with
    apart := by
      refine pairwise_append.mpr ⟨h.apart, pairwise_singleton _ _, fun r hr q hq => ?_⟩
      obtain rfl := mem_singleton.mp hq
      exact hf.clear r hr
    sized := fun r hr => (hmem r hr).elim (h.sized r) (·.2.1)
    image := fun r hr hk => (hmem r hr).elim (h.image r · hk) fun hn => by simp [hk] at hn
    hasImage := hkeep _ h.hasImage
    heap := fun r hr hk => (hmem r hr).elim (h.heap r · hk) fun hn => by simp [hk] at hn
    hasHeap := fun hlt => hkeep _ (h.hasHeap hlt)
    stack := fun r hr hk => (hmem r hr).elim (h.stack r · hk) fun hn => by simp [hk] at hn
    hasStack := hkeep _ h.hasStack
    below := fun r hr hk => (hmem r hr).elim (h.below r · hk) (·.2.2) }

end Layout

end AddressSpace

/-! ## Unmapping -/

namespace Region

variable {addr stop : ℕ} {r q : Region}

/-- `q` is part of `r`, guard page and all. -/
structure PartOf (q r : Region) : Prop where
  kind : q.kind = r.kind
  sized : q.Sized
  fst_le : (collSpan r).1 ≤ (collSpan q).1
  stop_le : q.stop ≤ r.stop

theorem Apart.mono {r' q' : Region} (h : r.Apart q) (hr : r'.PartOf r) (hq : q'.PartOf q) :
    r'.Apart q' := by
  have := hr.fst_le
  have := hr.stop_le
  have := hq.fst_le
  have := hq.stop_le
  simp only [Region.Apart, collSpan_snd] at h ⊢
  omega

theorem cut_of_not_overlaps (h : r.overlaps addr stop = false) : r.cut addr stop = [r] := by
  simp [cut, h]

theorem partOf_of_le {a e : ℕ} (hr : r.Sized) (hk : r.kind = .anon) (ha : page ∣ a) (he : page ∣ e)
    (hlo : r.vaddr ≤ a) (hlt : a < e) (hhi : e ≤ r.stop) (hqk : q.kind = .anon)
    (hqv : q.vaddr = a) (hqp : q.pages = (e - a) / page) (hqg : q.guard = true) :
    q.PartOf r ∧ q.stop = e := by
  have hstop : q.stop = e := by
    unfold stop
    rw [hqp, Nat.div_mul_cancel (Nat.dvd_sub he ha)]
    omega
  have hpages : 1 ≤ q.pages := by
    by_contra hzero
    have : q.stop = a := by
      unfold stop
      rw [hqv, show q.pages = 0 by omega, Nat.zero_mul, Nat.add_zero]
    omega
  have hg : r.guard = true := by simpa [hk] using hr.guarded
  have hnull := hr.aboveNull
  refine ⟨⟨hqk.trans hk.symm, ⟨hqv ▸ ha, hpages, by omega, by simp [hqk, hqg]⟩, ?_, by omega⟩,
    hstop⟩
  rw [collSpan_fst_of_guard hg, collSpan_fst_of_guard hqg]
  omega

/-- **Cutting a mapping leaves parts of it, apart from one another.** -/
theorem cut_spec (hr : r.Sized) (hk : r.overlaps addr stop = true → r.kind = .anon)
    (ha : page ∣ addr) (hs : page ∣ stop) (hlt : addr < stop) :
    (∀ q ∈ r.cut addr stop, q.PartOf r) ∧ (r.cut addr stop).Pairwise Apart := by
  cases hov : r.overlaps addr stop with
  | false =>
    rw [cut_of_not_overlaps hov]
    refine ⟨fun q hq => ?_, pairwise_singleton _ _⟩
    obtain rfl := mem_singleton.mp hq
    exact ⟨rfl, hr, le_rfl, le_rfl⟩
  | true =>
    have hanon := hk hov
    have hg : r.guard = true := by simpa [hanon] using hr.guarded
    have hov' : addr < r.stop ∧ r.vaddr < stop := by
      simpa [overlaps] using hov
    have hve := hr.vaddr_add_page_le
    have hd1 : page ∣ max r.vaddr addr := by
      rcases max_choice r.vaddr addr with h | h <;> rw [h]
      exacts [hr.aligned, ha]
    have hd2 : page ∣ min r.stop stop := by
      rcases min_choice r.stop stop with h | h <;> rw [h]
      exacts [hr.dvd_stop, hs]
    simp only [cut, hov, Bool.true_eq_false, if_false]
    split_ifs with h1 h2 h3
    · simp
    · refine ⟨fun q hq => ?_, pairwise_singleton _ _⟩
      obtain rfl := mem_singleton.mp hq
      exact (partOf_of_le (q := { r with vaddr := _, pages := (r.stop - min r.stop stop) / page })
        hr hanon hd2 hr.dvd_stop (by omega) (by omega) le_rfl hanon rfl rfl hg).1
    · refine ⟨fun q hq => ?_, pairwise_singleton _ _⟩
      obtain rfl := mem_singleton.mp hq
      exact (partOf_of_le (q := { r with pages := (max r.vaddr addr - r.vaddr) / page })
        hr hanon hr.aligned hd1 le_rfl (by omega) (by omega) hanon rfl rfl hg).1
    · have hgap : 1 ≤ (min r.stop stop - max r.vaddr addr) / page := by
        simp only [page] at hd1 hd2 hve ⊢
        omega
      obtain ⟨hhead, hheadStop⟩ := partOf_of_le
        (q := { r with pages := (max r.vaddr addr - r.vaddr) / page }) hr hanon hr.aligned hd1
        le_rfl (by omega) (by omega) hanon rfl rfl hg
      obtain ⟨htail, -⟩ := partOf_of_le (q := ⟨.anon, _, _, r.flags, _, r.lazy, r.pkey⟩) hr hanon
        hd2 hr.dvd_stop (by omega) (by omega) le_rfl rfl rfl rfl (decide_eq_true hgap)
      constructor
      · intro q hq
        obtain rfl | rfl := mem_pair.mp hq
        exacts [hhead, htail]
      · refine pairwise_pair.mpr (Or.inl ?_)
        rw [collSpan_snd, hheadStop, collSpan_fst_of_guard (decide_eq_true hgap)]
        simp only [page] at hd1 hd2 ⊢
        omega

end Region

namespace AddressSpace

open Region

variable {ceil : ℕ} {asp : AddressSpace}

/-- **`munmap`'s patch of the region table keeps the layout.** -/
theorem Layout.munmapPlan {addr len : ℕ} {asp' : AddressSpace} {work : List (ℕ × ℕ)}
    (h : Layout ceil asp) (hp : asp.munmapPlan addr len = .ok (asp', work)) : Layout ceil asp' := by
  simp only [AddressSpace.munmapPlan] at hp
  split_ifs at hp with h1 h2 h3
  obtain ⟨rfl, -⟩ := hp
  have ha : page ∣ addr := Nat.dvd_of_mod_eq_zero (by omega)
  have hs : page ∣ addr + len := ha.add (Nat.dvd_of_mod_eq_zero (by omega))
  have hanon : ∀ r ∈ asp.regions, r.overlaps addr (addr + len) = true → r.kind = .anon := by
    intro r hr hov
    by_contra hk
    exact h3 (any_eq_true.mpr ⟨r, mem_filter.mpr ⟨hr, hov⟩, by simpa using hk⟩)
  have hcut := fun r hr => cut_spec (h.sized r hr) (hanon r hr) ha hs (by omega)
  have hpart : ∀ q ∈ asp.regions.flatMap (·.cut addr (addr + len)), ∃ r ∈ asp.regions,
      q.PartOf r ∧ (r.kind ≠ .anon → q = r) := by
    intro q hq
    obtain ⟨r, hr, hq⟩ := mem_flatMap.mp hq
    refine ⟨r, hr, (hcut r hr).1 q hq, fun hk => ?_⟩
    rw [cut_of_not_overlaps (by simpa using mt (hanon r hr) hk)] at hq
    exact mem_singleton.mp hq
  have hkeep : ∀ k ≠ RegionKind.anon, (∃ r ∈ asp.regions, r.kind = k) →
      ∃ r ∈ asp.regions.flatMap (·.cut addr (addr + len)), r.kind = k := by
    rintro k hne ⟨r, hr, rfl⟩
    refine ⟨r, mem_flatMap.mpr ⟨r, hr, ?_⟩, rfl⟩
    rw [cut_of_not_overlaps (by simpa using mt (hanon r hr) hne)]
    exact mem_singleton_self r
  -- a region that is not a mapping is one of the old ones
  have hold : ∀ {P : Region → Prop} {k}, k ≠ RegionKind.anon →
      (∀ r ∈ asp.regions, r.kind = k → P r) →
      ∀ q ∈ asp.regions.flatMap (·.cut addr (addr + len)), q.kind = k → P q := by
    intro P k hne hP q hq hk
    obtain ⟨r, hr, hqr, heq⟩ := hpart q hq
    have hkr : r.kind = k := hqr.kind.symm.trans hk
    rw [heq (hkr ▸ hne)]
    exact hP r hr hkr
  exact { h with
    apart := pairwise_flatMap.mpr ⟨fun r hr => (hcut r hr).2,
      h.apart.imp_of_mem fun hr hq hap x hx y hy =>
        hap.mono ((hcut _ hr).1 x hx) ((hcut _ hq).1 y hy)⟩
    sized := fun q hq => (hpart q hq).choose_spec.2.1.sized
    image := hold (by decide) h.image
    hasImage := hkeep _ (by decide) h.hasImage
    heap := hold (by decide) h.heap
    hasHeap := fun hlt => hkeep _ (by decide) (h.hasHeap hlt)
    stack := hold (by decide) h.stack
    hasStack := hkeep _ (by decide) h.hasStack
    below := fun q hq hk => by
      obtain ⟨r, hr, hqr, -⟩ := hpart q hq
      exact hqr.stop_le.trans (h.below r hr (hqr.kind ▸ hk)) }

/-! ## Runs -/

/-- The layout says nothing of the root and the page count. -/
theorem Layout.rebase {root committed : ℕ} (h : Layout ceil asp) :
    Layout ceil { asp with root := root, committed := committed } :=
  ⟨h.1, h.2, h.3, h.4, h.5, h.6, h.7, h.8, h.9, h.10, h.11, h.12, h.13, h.14⟩

/-- **A registered address space is laid out**, with the ceiling at the stack's guard page. -/
theorem layout_register {root imageFloor imageTop stackTop : ℕ} (stackFlags : PageFlags)
    (budget : Option ℕ) (h : Loaded imageFloor imageTop stackTop) : Layout (stackTop - 9 * page)
      (register root imageFloor imageTop stackTop stackFlags budget) := by
  have hgap := h.gap
  have hlt := h.nonempty
  have hstop := h.image_stop
  have hpos : 1 ≤ (imageTop - imageFloor) / page := by
    by_contra hzero
    rw [Nat.lt_one_iff.mp (Nat.not_le.mp hzero)] at hstop
    omega
  exact {
    apart := pairwise_pair.mpr <| Or.inl <| by
      rw [collSpan_fst_of_guard rfl]
      exact hstop.le.trans (by simp only; omega)
    sized := by
      simp only [register, mem_cons, not_mem_nil, or_false, forall_eq_or_imp, forall_eq]
      exact ⟨⟨h.dvdFloor, hpos, h.aboveNull, rfl⟩, ⟨Nat.dvd_sub h.dvdStack (Nat.dvd_mul_left _ _),
        by simp, by simp only; omega, rfl⟩⟩
    image := by simpa [register, stop] using hstop
    hasImage := by simp [register]
    heap := by simp [register]
    hasHeap := by simp [register]
    stack := by
      simp only [register, mem_cons, not_mem_nil, or_false, forall_eq_or_imp, forall_eq]
      refine ⟨by simp, fun _ => ?_⟩
      rw [collSpan_fst_of_guard rfl]
      simp only
      omega
    hasStack := by simp [register]
    below := by
      simp only [register, mem_cons, forall_eq_or_imp]
      exact ⟨fun _ => hstop.le.trans (by omega), by simp⟩
    floorLe := le_rfl
    curLe := show imageTop ≤ _ by omega
    dvdFloor := h.dvdTop
    dvdCur := h.dvdTop
    ceilLt := (Nat.sub_le _ _).trans_lt h.stackTop_lt }

/-- The break is about to grow. -/
def BrkPlan.grows : BrkPlan → Bool
  | .grow _ _ => true
  | _ => false

/-- No span is in a blind spot of the tests: none starts at the break when it grows, and none ends
at the random point from which the gap search starts. -/
def Clean (asp : AddressSpace) : Call → Prop
  | .brk freePages newBreak _ =>
    (asp.brkPlan freePages newBreak).grows → ∀ r ∈ asp.regions, (collSpan r).1 ≠ asp.brkCur
  | .mmap _ addr len _ rnd _ =>
    addr = 0 → ∀ r ∈ asp.regions, asp.randomFitStart len rnd ≠ some r.stop
  | _ => True

instance (asp : AddressSpace) (c : Call) : Decidable (Clean asp c) := by
  cases c <;> simp only [Clean] <;> infer_instance

theorem dvd_of_alignUp {x y : ℕ} (h : alignUp x = some y) : page ∣ y := by
  simp only [alignUp, ite_none_right_eq_some, some.injEq] at h
  exact h.2 ▸ Nat.dvd_mul_left _ _

theorem brkPlan_grow {freePages newBreak new npages : ℕ}
    (h : asp.brkPlan freePages newBreak = .grow new npages) :
    page ∣ new ∧ asp.brkCur < new ∧ new ≤ asp.growthBoundary := by
  simp only [brkPlan] at h
  split_ifs at h
  split at h
  · simp at h
  rename_i hal
  split_ifs at h
  obtain ⟨rfl, -⟩ := by simpa using h
  exact ⟨dvd_of_alignUp hal, by omega, by omega⟩

theorem brkPlan_shrink {freePages newBreak new npages : ℕ}
    (h : asp.brkPlan freePages newBreak = .shrink new npages) :
    page ∣ new ∧ new < asp.brkCur ∧ asp.brkFloor ≤ new := by
  simp only [brkPlan] at h
  split_ifs at h
  split at h
  · simp at h
  rename_i hal
  split_ifs at h
  obtain ⟨rfl, -⟩ := by simpa using h
  exact ⟨dvd_of_alignUp hal, by omega, by omega⟩

theorem mmapPlan_ok {freePages addr len rnd : ℕ} {prot : BitVec 64} {p : MmapPlan}
    (h : asp.mmapPlan freePages addr len prot rnd = .ok p) :
    len ≠ 0 ∧ len % page = 0 ∧ asp.mmapPlace addr len rnd = .ok p.vaddr ∧
      p.npages = len / page := by
  simp only [mmapPlan] at h
  split at h
  · simp at h
  split at h
  · simp at h
  split at h
  · simp at h
  split at h
  · simp at h
  rename_i hplace
  split_ifs at h
  obtain rfl := by simpa using h
  exact ⟨by omega, by omega, hplace, rfl⟩

/-- **A clean call keeps the layout.** -/
theorem Layout.step {c : Call} {asp' : AddressSpace} (h : Layout ceil asp) (hc : Clean asp c)
    (hs : asp.step c = some asp') : Layout ceil asp' := by
  cases c with simp only [AddressSpace.step, some.injEq] at hs
  | brk freePages newBreak commit =>
    subst hs
    cases hp : asp.brkPlan freePages newBreak with
    | answer r => exact h
    | grow new npages =>
      obtain ⟨hdvd, hlt, hb⟩ := brkPlan_grow hp
      cases commit with
      | false => exact h
      | true => exact h.brkGrown hdvd hlt hb (hc (by rw [hp, BrkPlan.grows]))
    | shrink new npages =>
      obtain ⟨hdvd, hlt, hb⟩ := brkPlan_shrink hp
      exact h.brkShrunk hdvd hlt hb
  | mmap freePages addr len prot rnd commit =>
    subst hs
    cases hp : asp.mmapPlan freePages addr len prot rnd with
    | error e => exact h
    | ok p =>
      obtain ⟨hne, hmod, hplace, hnp⟩ := mmapPlan_ok hp
      have hmul : p.npages * page = len := by
        rw [hnp]
        exact Nat.div_mul_cancel (Nat.dvd_of_mod_eq_zero hmod)
      have hfree := h.free_of_mmapPlace hmod
        (fun ha start hst r hr he => hc ha r hr (he ▸ hst)) hplace
      dsimp only
      split
      · refine h.mapped ?_ (hmul ▸ hfree)
        by_contra hzero
        rw [Nat.lt_one_iff.mp (Nat.not_le.mp hzero)] at hmul
        omega
      · exact h
  | munmap addr len freed =>
    subst hs
    cases hp : asp.munmapPlan addr len with
    | error e => exact h
    | ok res => exact (h.munmapPlan (hp.trans rfl)).rebase
  | fork childRoot =>
    subst hs
    exact h.rebase

/-- **The regions of a loaded process never collide** in a run that stays clear of the two blind
spots: the spans are pairwise disjoint, the heap is what lies between floor and break, and all but
the stack ends at or below the ceiling. -/
theorem noCollision_of_clean {root imageFloor imageTop stackTop : ℕ} {stackFlags : PageFlags}
    {budget : Option ℕ} (hl : Loaded imageFloor imageTop stackTop) (calls : List Call)
    (hc : RunMeets step Clean (register root imageFloor imageTop stackTop stackFlags budget) calls)
    {asp : AddressSpace}
    (hr : run step (register root imageFloor imageTop stackTop stackFlags budget) calls =
      some asp) : asp.NoCollision :=
  (run_invariant (Layout (stackTop - 9 * page)) (fun _ _ _ h hc hs => h.step hc hs) calls
    (layout_register stackFlags budget hl) hc hr).noCollision

/-- A process with one image page and nothing mapped. -/
def onePage : AddressSpace :=
  register 0x100000 0x400000 0x401000 userStackTop (.user ||| .read ||| .write) none

/-- Growth, a chosen and a fixed mapping, a hole in the middle, a shrink and a fork. -/
def mixedRun : List Call :=
  [.brk 100000 0x403000 true, .mmap 100000 0 0x3000 3 5 true, .munmap 0x40a000 0x1000 1,
   .mmap 100000 0x500000 0x2000 1 0 true, .brk 100000 0x402000 true, .fork 0x200000]

theorem mixedRun_noCollision : ∃ asp, run step onePage mixedRun = some asp ∧
    asp.regions.length = 6 ∧ asp.NoCollision := by
  have hl : Loaded 0x400000 0x401000 userStackTop := by constructor <;> decide
  refine ⟨(run step onePage mixedRun).get (by decide +kernel), by simp, by decide +kernel, ?_⟩
  exact noCollision_of_clean hl mixedRun (show RunMeets step Clean onePage mixedRun by
    decide +kernel) (by simp [onePage])

/-- A mapping whose guard page starts at the break, then a growth over it. -/
def guardRun : List Call := [.mmap 100000 0x402000 0x1000 3 0 true, .brk 100000 0x402000 true]

/-- Two mappings, the second from a random start right at the end of the first. -/
def probeRun : List Call := [.mmap 100000 0 0x1000 3 0 true, .mmap 100000 0 0x1000 3 1 true]

/-- **Both blind spots let regions collide.** -/
theorem guardRun_collides : (∃ asp, run step onePage guardRun = some asp ∧ ¬ asp.NoCollision) ∧
      ∃ asp, run step onePage probeRun = some asp ∧ ¬ asp.NoCollision := by
  refine ⟨⟨(run step onePage guardRun).get (by decide +kernel), by simp, fun h => ?_⟩,
    ⟨(run step onePage probeRun).get (by decide +kernel), by simp, fun h => ?_⟩⟩
  · exact absurd h.apart (by decide +kernel)
  · exact absurd h.apart (by decide +kernel)

end AddressSpace

end Bedrock
