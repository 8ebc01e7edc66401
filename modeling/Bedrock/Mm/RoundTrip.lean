import Bedrock.Mm.UnmapRange

/-!
# Mm/RoundTrip — mapping a range and unmapping it again

`map` takes 2 MiB pages while both addresses are aligned and 4 KiB pages for the rest; `unmap` goes
page by page and takes out 4 KiB leaves only.

    map     | 2 MiB | 2 MiB |4K|4K|4K|        while both addresses are aligned, then the rest
    unmap   |4K|4K|4K| ⋯            |4K|        a 2 MiB leaf stays

So the two are inverse to each other exactly if no 2 MiB page is taken and the end of the range is
an address (`roundTrip_iff`).
-/

namespace Bedrock

open Radix BitmapAllocator List

variable {m m' m'' : Machine} {r v p lo mid hi n : ℕ} {flags : PageFlags}

/-! ## Pages that come and pages that stay -/

/-- No address of `[lo, hi)` is mapped. -/
def Vacant (r lo hi : ℕ) (m : Machine) : Prop :=
  ∀ w, lo ≤ w → w < hi → isCanonical w = true ∧ leafOf m.mem r (leafPath w) = none

/-- The page map below `r` changed in `[lo, hi)` at most. -/
structure Grown (r lo hi : ℕ) (m m' : Machine) : Prop where
  tree : PageTree m' (Scope.whole r)
  same : ∀ w, isCanonical w = true → ¬(lo ≤ w ∧ w < hi) →
    leafOf m'.mem r (leafPath w) = leafOf m.mem r (leafPath w)

theorem Grown.refl (h : PageTree m (Scope.whole r)) : Grown r lo hi m m := ⟨h, fun _ _ _ => rfl⟩

theorem Grown.trans (h : Grown r lo mid m m') (h' : Grown r mid hi m' m'') (hlo : lo ≤ mid)
    (hhi : mid ≤ hi) : Grown r lo hi m m'' :=
  ⟨h'.tree, fun w hc hw => (h'.same w hc (by omega)).trans (h.same w hc (by omega))⟩

theorem Vacant.rest (h : Vacant r lo hi m) (hg : Grown r lo mid m m') (hlo : lo ≤ mid) :
    Vacant r mid hi m' := fun w hw hw' =>
  have hold := h w (hlo.trans hw) hw'
  ⟨hold.1, (hg.same w hold.1 (by omega)).trans hold.2⟩

/-- A page was mapped, and its path is that of the addresses in `[lo, hi)` only. -/
theorem Mapped.grown {q : List (Fin 512)} {i : Fin 512} {e : Pte}
    (h : Mapped (Scope.whole r) r q i e m m')
    (hpath : ∀ w, isCanonical w = true → q ++ [i] <+: leafPath w → lo ≤ w ∧ w < hi) :
    Grown r lo hi m m' :=
  ⟨h.tree, fun w hc hw => h.replaced.other (Scope.has_whole r _) (length_leafPath w)
    fun hpre => hw (hpath w hc hpre.2)⟩

/-- The addresses on the path of a 4 KiB page… -/
theorem page_of_prefix {w : ℕ} (hv : v % 4096 = 0) (hc : isCanonical v = true)
    (hw : isCanonical w = true) (h : dir v ++ [index 12 v] <+: leafPath w) :
    v ≤ w ∧ w < v + 4096 := by
  have hpath : leafPath v = leafPath w := h.eq_of_length rfl
  have hpage := (leafPath_eq_iff hc hw).mp hpath
  omega

/-- …and of a 2 MiB page. -/
theorem hugePage_of_prefix {w : ℕ} (hv : v % 2 ^ 21 = 0) (hc : isCanonical v = true)
    (hw : isCanonical w = true) (h : dirHuge v ++ [index 21 v] <+: leafPath w) :
    v ≤ w ∧ w < v + 2 ^ 21 := by
  have hdir : dir v = dir w :=
    (prefix_of_prefix_length_le h (prefix_append (dir w) _) le_rfl).eq_of_length rfl
  have hgroup := (dir_eq_iff hc hw).mp hdir
  omega

/-! ## One page -/

namespace PageTree

/-- A vacant page has no leaf, and what is missing on its way are tables. -/
theorem lookup_vacant (m : Machine) (hl : leafOf m.mem r (leafPath v) = none) :
    lookup Pte.next m.mem r (leafPath v) =
      some ((missing Pte.next m.mem r [dir v]).card, 0#64) := by
  obtain ⟨k, hk⟩ := (leafOf_eq_none (by simp [leafPath])).mp hl
  obtain ⟨e, he⟩ := lookup_missing Pte.next m.mem r (dir v) (index 12 v)
  rw [show dir v ++ [index 12 v] = leafPath v from rfl, hk] at he
  obtain ⟨rfl, rfl⟩ : k = _ ∧ 0#64 = e := by simpa using he
  exact hk

/-- **A 4 KiB page that `map_4k` maps was not in the way of anything.** -/
theorem map4k_grown (h : PageTree m (Scope.whole r)) (hl : leafOf m.mem r (leafPath v) = none)
    (hok : m.map4k r v p flags = some m') : p < 2 ^ 52 ∧ Grown r v (v + 4096) m m' := by
  have hval : v % 4096 = 0 ∧ p % 4096 = 0 ∧ isCanonical v = true ∧ p < 2 ^ 52 := by
    simp only [Machine.map4k] at hok
    split_ifs at hok
    grind
  obtain ⟨hv, hp, hc, hb⟩ := hval
  have hlook := lookup_vacant m hl
  have hd := Scope.has_whole r (leafPath v)
  cases ha : drawn (missing Pte.next m.mem r [dir v]).card m.alloc with
  | none =>
    rw [h.map4k_eq_none hv hp hc hb hd hlook (fun _ => rfl) (Or.inl ha)] at hok
    simp at hok
  | some a =>
    obtain ⟨m₁, hok1, -, hmap⟩ := h.map4k_spec hv hp hc hb hd hlook ha (.inr rfl) flags
    obtain rfl : m' = m₁ := Option.some.inj (hok.symm.trans hok1)
    exact ⟨hb, hmap.grown fun w hw hpre => page_of_prefix hv hc hw hpre⟩

/-- **…and a 2 MiB page neither; its addresses end in the 2 MiB leaf.** -/
theorem map2m_grown (h : PageTree m (Scope.whole r)) (hl : leafOf m.mem r (leafPath v) = none)
    (hok : m.map2m r v p flags = some m') : Grown r v (v + 2 ^ 21) m m' ∧
      leafOf m'.mem r (leafPath v) = some (1, Pte.ofFrame p (pageFlagsToX86 flags ||| ptePs)) := by
  have hval : v % 2 ^ 21 = 0 ∧ p % 2 ^ 21 = 0 ∧ isCanonical v = true ∧ p < 2 ^ 52 := by
    simp only [Machine.map2m] at hok
    split_ifs at hok
    grind
  obtain ⟨hv, hp, hc, hb⟩ := hval
  have hmp : m.map2m r v p flags = m.mapPage r v (dirHuge v) (index 21 v)
      (.ofFrame p (pageFlagsToX86 flags ||| ptePs))
      (tableFlagsFor (pageFlagsToX86 flags)) := by
    simp only [Machine.map2m]
    rw [if_neg (by omega), if_neg (by simpa [hc] using hb)]
  rw [hmp] at hok
  have hd := Scope.has_whole r (dirHuge v ++ [index 21 v])
  have he := leafFor_dirHuge hp hb v flags
  have hi := linkFlags_tableFlagsFor (pageFlagsToX86 flags)
  obtain ⟨k, e0, hlook⟩ := lookup_isSome m.mem (show dirHuge v ++ [index 21 v] ≠ [] by simp) r
  have hk : k ≠ 0 → e0 = 0#64 := fun hk => by
    obtain ⟨k, rfl⟩ := Nat.exists_eq_succ_of_ne_zero hk
    have hlong := lookup_concat_of_succ hlook (index 12 v)
    have := hlong.symm.trans (lookup_vacant m hl)
    simpa using (Prod.mk.inj (Option.some.inj this)).2
  by_cases hbad : drawn k m.alloc = none ∨ e0 ≠ 0#64
  · rw [h.mapPage_eq_none hi he hd hlook hk hbad] at hok
    simp at hok
  · obtain ⟨ha, hz⟩ := not_or.mp hbad
    obtain ⟨a, ha⟩ := Option.ne_none_iff_exists'.mp ha
    have hsync : m.newHigherHalfSlot r v = false ∨ Scope.whole r = Scope.whole r := .inr rfl
    obtain ⟨m₁, hok1, hmap, -⟩ := h.mapPage_spec hi he hd hlook hk (not_not.mp hz) ha hsync
    obtain rfl : m' = m₁ := Option.some.inj (hok.symm.trans hok1)
    refine ⟨hmap.grown fun w hw hpre => hugePage_of_prefix hv hc hw hpre, ?_⟩
    rw [leafOf_eq_some]
    exact ⟨hmap.replaced.self [index 12 v] rfl, Pte.ne_zero_of_isSet he.present⟩

/-! ## The loops of `map` -/

/-- **The 2 MiB loop touches the pages it went over only.** -/
theorem map2mLoop_grown : ∀ {fuel : ℕ} {m : Machine} {v p remaining v' p' remaining' : ℕ},
    PageTree m (Scope.whole r) → Vacant r v (v + remaining) m →
    Machine.map2mLoop r flags fuel m v p remaining = some (m', v', p', remaining') →
    v ≤ v' ∧ v' + remaining' = v + remaining ∧ Grown r v v' m m'
  | 0, m, v, p, remaining, v', p', remaining', h, _, hok => by
    obtain ⟨rfl, rfl, rfl, rfl⟩ := hok
    exact ⟨le_rfl, rfl, .refl h⟩
  | fuel + 1, m, v, p, remaining, v', p', remaining', h, hvac, hok => by
    rw [Machine.map2mLoop] at hok
    split at hok
    · split at hok
      · simp at hok
      rename_i m₁ hok1
      obtain ⟨hgrown, -⟩ := h.map2m_grown (hvac v le_rfl (by omega)).2 hok1
      have hvac1 : Vacant r (v + 2 ^ 21) (v + 2 ^ 21 + (remaining - 2 ^ 21)) m₁ := by
        rw [show v + 2 ^ 21 + (remaining - 2 ^ 21) = v + remaining by omega]
        exact hvac.rest hgrown (by omega)
      obtain ⟨hle, hsum, hrest⟩ := map2mLoop_grown hgrown.tree hvac1 hok
      exact ⟨by omega, by omega, hgrown.trans hrest (by omega) hle⟩
    · obtain ⟨rfl, rfl, rfl, rfl⟩ := hok
      exact ⟨le_rfl, rfl, .refl h⟩

/-- **…and so does the 4 KiB loop, whose frames are physical addresses.** -/
theorem map4kLoop_grown : ∀ {n : ℕ} {m : Machine} {v p : ℕ},
    PageTree m (Scope.whole r) → Vacant r v (v + n * 4096) m →
    Machine.map4kLoop r flags n m v p = some m' →
    (0 < n → p + (n - 1) * 4096 < 2 ^ 52) ∧ Grown r v (v + n * 4096) m m'
  | 0, m, v, p, h, _, hok => by
    simp only [Machine.map4kLoop, Option.some.injEq] at hok
    subst hok
    exact ⟨fun hn => absurd hn (lt_irrefl 0), .refl h⟩
  | n + 1, m, v, p, h, hvac, hok => by
    rw [Machine.map4kLoop] at hok
    split at hok
    · simp at hok
    rename_i m₁ hok1
    obtain ⟨hb, hgrown⟩ := h.map4k_grown (hvac v le_rfl (by omega)).2 hok1
    have hvac1 : Vacant r (v + 4096) (v + 4096 + n * 4096) m₁ := by
      rw [show v + 4096 + n * 4096 = v + (n + 1) * 4096 by omega]
      exact hvac.rest hgrown (by omega)
    obtain ⟨hlast, hrest⟩ := map4kLoop_grown hgrown.tree hvac1 hok
    refine ⟨fun _ => by omega, ?_⟩
    rw [show v + (n + 1) * 4096 = v + 4096 + n * 4096 by omega]
    exact hgrown.trans hrest (by omega) (by omega)

end PageTree

/-! ## Mapping with enough frames -/

theorem pagesOf_succ (v n : ℕ) : Machine.pagesOf v (v + (n + 1) * 4096) =
    v :: Machine.pagesOf (v + 4096) (v + 4096 + n * 4096) := by
  rw [Machine.pagesOf, Machine.pagesOf,
    show (v + (n + 1) * 4096 - v + 4095) / 4096 = n + 1 by omega,
    show (v + 4096 + n * 4096 - (v + 4096) + 4095) / 4096 = n by omega,
    range_succ_eq_map, map_cons, map_map]
  refine congrArg₂ List.cons (by omega) (map_congr_left fun k _ => ?_)
  simp only [Function.comp_apply]
  omega

theorem mem_pagesOf {w : ℕ} : w ∈ Machine.pagesOf v (v + n * 4096) ↔ ∃ k < n, v + k * 4096 = w := by
  rw [Machine.pagesOf, show (v + n * 4096 - v + 4095) / 4096 = n by omega]
  simp

/-- The number of tables that the pages of `[v, v + size)` still need. -/
def tablesMissing (m : Machine) (r v size : ℕ) : ℕ :=
  (missing Pte.next m.mem r ((Machine.pagesOf v (v + size)).map dir)).card

/-- The tables of the first page are drawn first; those of the others are still missing then. -/
theorem Mapped.serves_rest {i : Fin 512} {e : Pte} {a : BitmapAllocator}
    (h : Mapped (Scope.whole r) r (dir v) i e m m') (hal : m'.alloc = a)
    (hserves : serves (tablesMissing m r v ((n + 1) * 4096)) m.alloc = true)
    (ha : drawn (missing Pte.next m.mem r [dir v]).card m.alloc = some a) :
    serves (tablesMissing m' r (v + 4096) (n * 4096)) m'.alloc = true := by
  have hcard : tablesMissing m r v ((n + 1) * 4096) =
      (missing Pte.next m.mem r [dir v]).card + tablesMissing m' r (v + 4096) (n * 4096) := by
    rw [tablesMissing, pagesOf_succ, map_cons]
    refine card_missing_cons fun p' hp' q hq => ?_
    obtain ⟨w, -, rfl⟩ := mem_map.mp hp'
    rw [h.walks (Scope.has_whole r q) hq.length_le]
    simp
  rwa [hcard, serves, drawn_add, ha, Option.bind_some, ← hal] at hserves

namespace PageTree

/-- **With enough frames the 4 KiB loop maps its pages.** -/
theorem map4kLoop_spec (flags : PageFlags) : ∀ {n : ℕ} {m : Machine} {v p : ℕ},
    PageTree m (Scope.whole r) → v % 4096 = 0 → p % 4096 = 0 → Vacant r v (v + n * 4096) m →
    p + n * 4096 ≤ 2 ^ 52 → serves (tablesMissing m r v (n * 4096)) m.alloc = true →
    ∃ m', Machine.map4kLoop r flags n m v p = some m' ∧ Grown r v (v + n * 4096) m m' ∧
      ∀ k < n, leafOf m'.mem r (leafPath (v + k * 4096)) =
        some (0, Pte.ofFrame (p + k * 4096) (pageFlagsToX86 flags))
  | 0, m, v, p, h, _, _, _, _, _ => ⟨m, rfl, .refl h, fun k hk => absurd hk (by omega)⟩
  | n + 1, m, v, p, h, hv, hp, hvac, hb, hserves => by
    obtain ⟨hc, hl⟩ := hvac v le_rfl (by omega)
    have hfirst : (missing Pte.next m.mem r [dir v]).card ≤
        tablesMissing m r v ((n + 1) * 4096) := by
      refine Finset.card_le_card fun q hq => ?_
      rw [mem_missing] at hq ⊢
      exact ⟨⟨dir v, by simp [pagesOf_succ], by simpa using hq.1⟩, hq.2⟩
    obtain ⟨a, ha⟩ := Option.isSome_iff_exists.mp (serves_mono hfirst hserves)
    obtain ⟨m₁, hok, hal, hmap⟩ := h.map4k_spec hv hp hc (by omega) (Scope.has_whole r _)
      (lookup_vacant m hl) ha (Or.inr rfl) flags
    have hgrown := hmap.grown fun w hw hpre => page_of_prefix hv hc hw hpre
    have hvac1 : Vacant r (v + 4096) (v + 4096 + n * 4096) m₁ := by
      rw [show v + 4096 + n * 4096 = v + (n + 1) * 4096 by omega]
      exact hvac.rest hgrown (by omega)
    obtain ⟨m', hok', hrest, hleaves⟩ := map4kLoop_spec flags hgrown.tree (by omega)
      (p := p + 4096) (by omega) hvac1 (by omega) (hmap.serves_rest hal hserves ha)
    refine ⟨m', by rw [Machine.map4kLoop, hok]; exact hok', ?_, fun k hk => ?_⟩
    · rw [show v + (n + 1) * 4096 = v + 4096 + n * 4096 by omega]
      exact hgrown.trans hrest (by omega) (by omega)
    · match k with
      | 0 =>
        rw [Nat.add_zero, hrest.same v hc (by omega), leafOf_eq_some]
        exact ⟨hmap.replaced.self [] rfl,
          Pte.ne_zero_of_isSet (leafFor_dir hp (by omega) v flags).present⟩
      | k + 1 =>
        have := hleaves k (by omega)
        rwa [show v + 4096 + k * 4096 = v + (k + 1) * 4096 by omega,
          show p + 4096 + k * 4096 = p + (k + 1) * 4096 by omega] at this

end PageTree

/-! ## The round trip -/

/-- After `map` the range translates to the frames at `pa` and after `unmap` to nothing, and
neither changes any other address. -/
def RoundTrip (m : Machine) (root va pa size : ℕ) (flags : PageFlags) : Prop :=
  ∃ m₁ m₂, m.map root va pa size flags = some m₁ ∧ m₁.unmap root va size = some m₂ ∧
    (∀ o < size, m₁.translate root (va + o) = some (some (pa + o))) ∧
    (∀ w, ¬(va ≤ w ∧ w < va + size) → m₁.translate root w = m.translate root w) ∧
    (∀ o < size, m₂.translate root (va + o) = some none) ∧
    ∀ w, ¬(va ≤ w ∧ w < va + size) → m₂.translate root w = m.translate root w

/-- `map` begins with a 2 MiB page. -/
def TakesHuge (va pa size : ℕ) : Prop := 2 ^ 21 ≤ size ∧ va % 2 ^ 21 = 0 ∧ pa % 2 ^ 21 = 0

/-- Addresses of a leaf's page translate into its frame. -/
theorem translate_of_leaf {o : ℕ} (hl : leafOf m.mem r (leafPath v) =
      some (0, Pte.ofFrame p (pageFlagsToX86 flags))) (hv : v % 4096 = 0) (hp : p % 4096 = 0)
    (hb : p < 2 ^ 52) (hcv : isCanonical v = true) (hc : isCanonical (v + o) = true)
    (ho : o < 4096) : m.translate r (v + o) = some (some (p + o)) := by
  have hpath : leafPath (v + o) = leafPath v := (leafPath_eq_iff hc hcv).mpr (by omega)
  rw [Machine.translate_eq_decode hc, hpath, hl, Option.elim_some, decode,
    if_neg (leafOf_eq_some.mp hl).2, Pte.frame_ofFrame hp hb (pageFlagsToX86_spec flags).2.2.1,
    show (v + o) % 2 ^ 12 = o by omega]

/-- Outside the range that changed, so are the translations. -/
theorem Grown.translate_eq (h : Grown r lo hi m m') {w : ℕ} (hw : ¬(lo ≤ w ∧ w < hi)) :
    m'.translate r w = m.translate r w := by
  cases hc : isCanonical w with
  | false => simp [Machine.translate, hc]
  | true => exact Machine.translate_congr (h.same w hc hw)

/-- The pages that `unmap` goes over lie in its range. -/
theorem pagesOf_bounds {va size w : ℕ} (h : w ∈ Machine.pagesOf va ((va + size) % 2 ^ 64)) :
    va ≤ w ∧ w < va + size := by
  simp only [Machine.pagesOf, mem_map, mem_range] at h
  obtain ⟨k, hk, rfl⟩ := h
  omega

/-- **`unmap` clears the 4 KiB leaves of its range.** -/
theorem Tree.unmap_spec {va size : ℕ} (h : Tree m.mem (Scope.whole r)) (hva : va % 4096 = 0)
    (hcan : ∀ w, va ≤ w → w < va + size → isCanonical w = true) : ∃ m',
    m.unmap r va size = some m' ∧
      RangeUnmapped (Scope.whole r) r (Machine.pagesOf va ((va + size) % 2 ^ 64)) m m' := by
  have hpages : ∀ w ∈ Machine.pagesOf va ((va + size) % 2 ^ 64), isCanonical w = true :=
    fun w hw => hcan w (pagesOf_bounds hw).1 (pagesOf_bounds hw).2
  have hnodup : ((Machine.pagesOf va ((va + size) % 2 ^ 64)).map leafPath).Nodup := by
    refine List.Nodup.map_on (fun x hx y hy hxy => ?_) ?_
    · have hpage := (leafPath_eq_iff (hpages x hx) (hpages y hy)).mp hxy
      simp only [Machine.pagesOf, mem_map] at hx hy
      omega
    · exact nodup_range.map fun k l hkl => by omega
  obtain ⟨m', hok, hrange⟩ := h.unmapRange_spec (r := r) false rfl
    (fun w hw => ⟨hpages w hw, Scope.has_whole r _⟩) hnodup
  refine ⟨m', ?_, hrange⟩
  rw [Machine.unmap, if_neg (by omega), hok]

section RoundTrip

variable {va pa size : ℕ} (h : PageTree m (Scope.whole r)) (hva : va % 4096 = 0)
  (hsize : size % 4096 = 0) (hfree : ∀ o < size, m.translate r (va + o) = some none)

include h hfree in
theorem vacant_of_translate : Vacant r va (va + size) m := by
  intro w hlo hhi
  have hnone := hfree (w - va) (by omega)
  rw [show va + (w - va) = w by omega] at hnone
  have hc : isCanonical w = true := by
    by_contra hc
    simp [Machine.translate, hc] at hnone
  exact ⟨hc, (h.translate_eq_none (Scope.has_whole r _) hc).mp hnone⟩

/-- An unaligned range is mapped by the 4 KiB loop alone. -/
theorem map_of_not_takesHuge (m : Machine) (r : ℕ) (flags : PageFlags) (hva : va % 4096 = 0)
    (hpa : pa % 4096 = 0) (hsize : size % 4096 = 0) (hpos : 0 < size)
    (hsmall : ¬ TakesHuge va pa size) :
    m.map r va pa size flags = Machine.map4kLoop r flags (size / 4096) m va pa := by
  have hloop : Machine.map2mLoop r flags (size / 2 ^ 21) m va pa size = some (m, va, pa, size) := by
    cases size / 2 ^ 21 with
    | zero => rfl
    | succ fuel =>
      rw [TakesHuge] at hsmall
      rw [Machine.map2mLoop, if_neg hsmall]
  rw [Machine.map, if_neg (by omega), hloop]

theorem leafOf_of_takesHuge {m₁ : Machine} (hvac : Vacant r va (va + size) m)
    (hhuge : TakesHuge va pa size) (h : PageTree m (Scope.whole r))
    (hok : m.map r va pa size flags = some m₁) :
    PageTree m₁ (Scope.whole r) ∧ ∃ e, leafOf m₁.mem r (leafPath va) = some (1, e) := by
  rw [TakesHuge] at hhuge
  obtain ⟨fuel, hfuel⟩ : ∃ fuel, size / 2 ^ 21 = fuel + 1 :=
    Nat.exists_eq_succ_of_ne_zero (by omega)
  obtain ⟨hc, hnone⟩ := hvac va le_rfl (by omega)
  rw [Machine.map] at hok
  split_ifs at hok
  split at hok
  · simp at hok
  rename_i m' v p remaining hloop
  rw [hfuel, Machine.map2mLoop, if_pos hhuge] at hloop
  split at hloop
  · simp at hloop
  rename_i m0 hok0
  obtain ⟨hfirst, hleaf⟩ := h.map2m_grown hnone hok0
  have hsum : va + 2 ^ 21 + (size - 2 ^ 21) = va + size := by omega
  have hvac0 : Vacant r (va + 2 ^ 21) (va + 2 ^ 21 + (size - 2 ^ 21)) m0 := by
    rw [hsum]
    exact hvac.rest hfirst (by omega)
  obtain ⟨hle, hend, hmore⟩ := hfirst.tree.map2mLoop_grown hvac0 hloop
  have hvac' : Vacant r v (v + remaining / 4096 * 4096) m' := fun w hlo hhi =>
    hvac0.rest hmore hle w hlo (by omega)
  obtain ⟨-, hrest⟩ := hmore.tree.map4kLoop_grown hvac' hok
  refine ⟨hrest.tree, .ofFrame pa (pageFlagsToX86 flags ||| ptePs), ?_⟩
  rw [hrest.same va hc (by omega), hmore.same va hc (by omega), hleaf]

include h hva hfree

/-- **What a 2 MiB page maps is still mapped after `unmap`.** -/
theorem RoundTrip.not_takesHuge (hrt : RoundTrip m r va pa size flags) :
    ¬ TakesHuge va pa size := by
  intro hhuge
  obtain ⟨m₁, m₂, hmap, hunmap, -, -, hgone, -⟩ := hrt
  have hvac := vacant_of_translate h hfree
  have hpos : 0 < size := by have := hhuge.1; omega
  obtain ⟨hc, -⟩ := hvac va le_rfl (by omega)
  obtain ⟨htree, e, hleaf⟩ := leafOf_of_takesHuge hvac hhuge h hmap
  obtain ⟨m', hok, hrange⟩ := htree.toTree.unmap_spec hva fun w hlo hhi => (hvac w hlo hhi).1
  obtain rfl : m₂ = m' := Option.some.inj (hunmap.symm.trans hok)
  have hnone := (hrange.tree.translate_eq_none (Scope.has_whole r _) hc).mp (hgone 0 hpos)
  rw [hrange.cleared (Scope.has_whole r _) (length_leafPath va), hleaf] at hnone
  simp [removable] at hnone

/-- A range without 2 MiB pages that is mapped has physical addresses behind it. -/
theorem grown_of_map {m₁ : Machine} (hpa : pa % 4096 = 0) (hsize : size % 4096 = 0)
    (hpos : 0 < size) (hsmall : ¬ TakesHuge va pa size) (hok : m.map r va pa size flags = some m₁) :
    pa + size ≤ 2 ^ 52 ∧ Grown r va (va + size) m m₁ := by
  rw [map_of_not_takesHuge m r flags hva hpa hsize hpos hsmall] at hok
  have hn : size / 4096 * 4096 = size := by omega
  obtain ⟨hb, hgrown⟩ := h.map4kLoop_grown (hn.symm ▸ vacant_of_translate h hfree) hok
  exact ⟨by omega, hn ▸ hgrown⟩

/-- **A range that ends with the address space is not unmapped at all.** -/
theorem RoundTrip.end_lt (hpa : pa % 4096 = 0) (hsize : size % 4096 = 0) (hpos : 0 < size)
    (hrt : RoundTrip m r va pa size flags) : va + size < 2 ^ 64 := by
  have hsmall := hrt.not_takesHuge h hva hfree
  obtain ⟨m₁, m₂, hmap, hunmap, hthere, -, hgone, -⟩ := hrt
  obtain ⟨-, hgrown⟩ := grown_of_map h hva hfree hpa hsize hpos hsmall hmap
  have hvac := vacant_of_translate h hfree
  by_contra hend
  obtain ⟨hlast, -⟩ := hvac (va + size - 1) (by omega) (by omega)
  simp only [isCanonical, decide_eq_true_eq] at hlast
  obtain ⟨m', hok, hrange⟩ := hgrown.tree.toTree.unmap_spec hva
    fun w hlo hhi => (hvac w hlo hhi).1
  obtain rfl : m₂ = m' := Option.some.inj (hunmap.symm.trans hok)
  have hsame : m₂.translate r va = m₁.translate r va := by
    refine Machine.translate_congr ?_
    rw [hrange.cleared (Scope.has_whole r _) (length_leafPath va),
      show (va + size) % 2 ^ 64 = 0 by omega]
    simp [Machine.pagesOf]
  rw [show m₂.translate r va = some none from hgone 0 hpos,
    show m₁.translate r va = some (some pa) from hthere 0 hpos] at hsame
  simp at hsame

/-- **With 4 KiB pages and enough frames, `unmap` takes back what `map` did.** -/
theorem roundTrip_of_not_takesHuge (hpa : pa % 4096 = 0) (hsize : size % 4096 = 0)
    (hserves : serves (tablesMissing m r va size) m.alloc = true) (hpos : 0 < size)
    (hsmall : ¬ TakesHuge va pa size) (hend : va + size < 2 ^ 64) (hphys : pa + size ≤ 2 ^ 52) :
    RoundTrip m r va pa size flags := by
  have hvac := vacant_of_translate h hfree
  obtain ⟨n, rfl⟩ : ∃ n, size = n * 4096 := ⟨size / 4096, by omega⟩
  obtain ⟨m₁, hmap, hgrown, hleaves⟩ := h.map4kLoop_spec flags hva hpa hvac hphys hserves
  obtain ⟨m₂, hunmap, hrange⟩ := hgrown.tree.toTree.unmap_spec hva
    fun w hlo hhi => (hvac w hlo hhi).1
  rw [Nat.mod_eq_of_lt hend] at hrange
  -- the page of an address of the range
  have hpage : ∀ o < n * 4096, isCanonical (va + o / 4096 * 4096) = true ∧
      isCanonical (va + o / 4096 * 4096 + o % 4096) = true ∧
      leafOf m₁.mem r (leafPath (va + o / 4096 * 4096)) =
        some (0, .ofFrame (pa + o / 4096 * 4096) (pageFlagsToX86 flags)) := fun o ho =>
    have hlt := Nat.add_lt_add_left (lt_of_le_of_lt (Nat.div_mul_le_self o 4096) ho) va
    ⟨(hvac (va + o / 4096 * 4096) (by omega) hlt).1,
      (hvac (va + o / 4096 * 4096 + o % 4096) (by omega) (by omega)).1,
      hleaves (o / 4096) (by omega)⟩
  refine ⟨m₁, m₂, ?_, hunmap, fun o ho => ?_, fun w hw => hgrown.translate_eq hw,
    fun o ho => ?_, fun w hw => ?_⟩
  · rw [map_of_not_takesHuge m r flags hva hpa hsize hpos hsmall,
      Nat.mul_div_cancel n (by decide), hmap]
  · obtain ⟨hcv, hc, hl⟩ := hpage o ho
    have := translate_of_leaf hl (by omega) (by omega) (by omega) hcv hc (Nat.mod_lt o (by decide))
    rwa [show va + o / 4096 * 4096 + o % 4096 = va + o by omega,
      show pa + o / 4096 * 4096 + o % 4096 = pa + o by omega] at this
  · obtain ⟨hcv, hc, hl⟩ := hpage o ho
    rw [show va + o / 4096 * 4096 + o % 4096 = va + o by omega] at hc
    rw [hrange.tree.translate_eq_none (Scope.has_whole r _) hc,
      (leafPath_eq_iff hc hcv).mpr (by omega),
      hrange.cleared (Scope.has_whole r _) (length_leafPath _), if_pos]
    refine ⟨rfl, mem_map_of_mem (mem_pagesOf.mpr ⟨o / 4096, by omega, rfl⟩), ?_⟩
    rw [hl, removable, Pte.isSet_ofFrame (by omega) (by omega) (by decide),
      (pageFlagsToX86_spec flags).2.1]
    rfl
  · rw [← hgrown.translate_eq hw]
    cases hc : isCanonical w with
    | false => simp [Machine.translate, hc]
    | true =>
      refine Machine.translate_congr ?_
      rw [hrange.cleared (Scope.has_whole r _) (length_leafPath _), if_neg]
      rintro ⟨-, hmem, -⟩
      obtain ⟨v, hv, hpath⟩ := mem_map.mp hmem
      obtain ⟨k, hk, rfl⟩ := mem_pagesOf.mp hv
      have hlt : va + k * 4096 < va + n * 4096 :=
        Nat.add_lt_add_left (Nat.mul_lt_mul_of_pos_right hk (by decide)) va
      have hcv := (hvac (va + k * 4096) (by omega) hlt).1
      have := (leafPath_eq_iff hcv hc).mp hpath
      omega

end RoundTrip

/-- **Mapping and unmapping are inverse exactly for ranges without a 2 MiB page** that end before
the address space does, with physical addresses behind them. -/
theorem roundTrip_iff {root va pa size : ℕ} (h : PageTree m (Scope.whole root))
    (hva : va % 4096 = 0) (hpa : pa % 4096 = 0) (hsize : size % 4096 = 0)
    (hfree : ∀ o < size, m.translate root (va + o) = some none)
    (hserves : serves (tablesMissing m root va size) m.alloc = true) :
    RoundTrip m root va pa size flags ↔
      0 < size ∧ ¬(2 ^ 21 ≤ size ∧ va % 2 ^ 21 = 0 ∧ pa % 2 ^ 21 = 0) ∧ va + size < 2 ^ 64 ∧
        pa + size ≤ 2 ^ 52 := by
  constructor
  · intro hrt
    have hsmall := hrt.not_takesHuge h hva hfree
    have hpos : 0 < size := by
      obtain ⟨m₁, -, hmap, -⟩ := hrt
      by_contra hz
      obtain rfl : size = 0 := by omega
      simp [Machine.map] at hmap
    refine ⟨hpos, hsmall, hrt.end_lt h hva hfree hpa hsize hpos, ?_⟩
    obtain ⟨m₁, -, hmap, -⟩ := hrt
    exact (grown_of_map h hva hfree hpa hsize hpos hsmall hmap).1
  · rintro ⟨hpos, hsmall, hend, hphys⟩
    exact roundTrip_of_not_takesHuge h hva hfree hpa hsize hserves hpos hsmall hend hphys

/-! ## A fresh root -/

/-- **An empty root is a tree.** -/
theorem pageTree_of_zero {root : ℕ} (hs : m.alloc.Sound) (hz : ∀ i, m.mem root i = 0#64)
    (hu : m.alloc.isUsed (root / 4096) = true) (hc : m.clones = []) :
    PageTree m (Scope.whole root) := by
  have hat : ∀ {r p f}, TableAt m.mem (.whole root) r p f → r = root ∧ p = [] ∧ f = root := by
    intro r p f ha
    obtain rfl : r = root := ha.root
    have hw := ha.walk_eq
    cases p with
    | nil => exact ⟨rfl, rfl, (Option.some.inj hw).symm⟩
    | cons i p => simp [walk_cons, hz, Pte.next_zero] at hw
  refine ⟨⟨fun r r' p p' f h1 h2 => ?_, fun r p f ha i _ => ?_, fun r hr i _ => ?_⟩, hs,
    fun r p f ha => ?_, by simp [hc]⟩
  · obtain ⟨rfl, rfl, -⟩ := hat h1
    obtain ⟨rfl, rfl, -⟩ := hat h2
    exact ⟨rfl, rfl⟩
  · obtain ⟨-, -, rfl⟩ := hat ha
    exact .inl (hz i)
  · obtain rfl : r = root := hr
    rw [hz, Pte.isSet_zero]
  · obtain ⟨-, -, rfl⟩ := hat ha
    exact hu

theorem translate_of_zero {root w : ℕ} (hz : ∀ i, m.mem root i = 0#64)
    (hc : isCanonical w = true) : m.translate root w = some none := by
  simp [Machine.translate, hc, hz, Pte.isSet_zero]

/-- 64 frames, of which frame 1 is an empty root. -/
def freshMachine : Machine where
  mem _ _ := 0#64
  alloc := ⟨fun b => if b = 0 then 0x03#8 else 0#8, 64, 0, 0, 2, 2, 62⟩
  counts := ⟨64, false, fun _ => 0⟩
  clones := []
  kernelRoot := 0x1000
  slots := []
  freeSlots := []
  freed := []

theorem pageTree_freshMachine : PageTree freshMachine (Scope.whole 0x1000) :=
  pageTree_of_zero ⟨by decide, by decide, by decide⟩ (fun _ => rfl) (by decide) rfl

theorem freshMachine_vacant {w : ℕ} (hw : w < 2 ^ 47) :
    freshMachine.translate 0x1000 w = some none :=
  translate_of_zero (fun _ => rfl) (by simp only [isCanonical, decide_eq_true_eq]; omega)

/-- Two 4 KiB pages come and go. -/
theorem roundTrip_two_pages : RoundTrip freshMachine 0x1000 0x400000 0x5000 0x2000 0#8 :=
  (roundTrip_iff pageTree_freshMachine (by decide) (by decide) (by decide)
    (fun o ho => freshMachine_vacant (by omega)) (by decide +kernel)).mpr (by decide)

/-- **A 2 MiB page stays**: after `map` and `unmap` of 2 MiB at aligned addresses the range still
translates. -/
theorem hugePage_survives_unmap :
    ((freshMachine.map 0x1000 0x400000 0x200000 0x200000 0#8).bind fun m₁ =>
      (m₁.unmap 0x1000 0x400000 0x200000).bind fun m₂ => m₂.translate 0x1000 0x400000) =
        some (some 0x200000) ∧
      (∀ o < 0x200000, freshMachine.translate 0x1000 (0x400000 + o) = some none) ∧
      ¬ RoundTrip freshMachine 0x1000 0x400000 0x200000 0x200000 0#8 := by
  have hfree : ∀ o < 0x200000, freshMachine.translate 0x1000 (0x400000 + o) = some none :=
    fun o ho => freshMachine_vacant (by omega)
  refine ⟨by decide +kernel, hfree, fun hrt => ?_⟩
  exact hrt.not_takesHuge pageTree_freshMachine (by decide) hfree (by simp [TakesHuge])

end Bedrock
