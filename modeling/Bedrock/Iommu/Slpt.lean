import Bedrock.Iommu.Domain
import Bedrock.Mm.FrameAlloc

/-!
# Iommu/Slpt — the second-level page tables

What the tables say is a map from pages of device addresses to frames.  The tables on the way to a
leaf are made when they are missing, each from a frame of its own, and never given back, so they are
a set of prefixes:

    (level, iova / 2 ^ (12 + 9 · level))       one index per level below the root

`map_4k` refuses a page that is mapped.  Hence a call to `map_phys_to_iova` maps pages that were not
mapped, all of them or none (`mapPhysToIova_some`, `mapPhysToIova_none`).
-/

namespace Bedrock.Iommu

open Function BitmapAllocator

/-- The tables: what their leaves say, and which tables there are below the root. -/
structure Slpt where
  leaf : ℕ → Option ℕ
  tables : List (ℕ × ℕ)

/-- The levels below the root, from the top. -/
def Agaw.below : Agaw → List ℕ
  | level3 => [2, 1]
  | level4 => [3, 2, 1]

namespace Slpt

/-- The walk of `map_4k`: a table that is missing is made.  Tables made before the allocator runs
out stay. -/
def linkTables (iova : ℕ) : List ℕ → Slpt × BitmapAllocator → Bool × Slpt × BitmapAllocator
  | [], t => (true, t)
  | level :: levels, (s, a) =>
    let key := (level, iova / 2 ^ (12 + 9 * level))
    if key ∈ s.tables then linkTables iova levels (s, a)
    else
      match a.alloc with
      | none => (false, s, a)
      | some (_, a) => linkTables iova levels ({ s with tables := key :: s.tables }, a)

/-- `map_4k`. -/
def map4k (agaw : Agaw) (t : Slpt × BitmapAllocator) (iova phys : ℕ) :
    Bool × Slpt × BitmapAllocator :=
  if iova % 4096 ≠ 0 ∨ phys % 4096 ≠ 0 then (false, t)
  else if 2 ^ agaw.bits ≤ iova then (false, t)
  else if 2 ^ 52 ≤ phys then (false, t)
  else
    match linkTables iova agaw.below t with
    | (false, t) => (false, t)
    | (true, s, a) =>
      match s.leaf iova with
      | some _ => (false, s, a)
      | none => (true, { s with leaf := update s.leaf iova (some phys) }, a)

/-- `unmap_4k`. -/
def unmap4k (agaw : Agaw) (s : Slpt) (iova : ℕ) : Slpt :=
  if iova % 4096 ≠ 0 ∨ 2 ^ agaw.bits ≤ iova then s
  else { s with leaf := update s.leaf iova none }

/-- `translate` of the page of an address, as `translate_iova` calls it. -/
def translate (agaw : Agaw) (s : Slpt) (iova : ℕ) : Option ℕ :=
  if 2 ^ agaw.bits ≤ pageDown iova then none
  else (s.leaf (pageDown iova)).map fun p => pageDown p + iova % 4096

/-- The tables and the frames they are made from, as `map_phys_to_iova` uses them. -/
def pageTables (agaw : Agaw) : PageTables (Slpt × BitmapAllocator) where
  map4k := map4k agaw
  unmap4k t iova := (unmap4k agaw t.1 iova, t.2)

end Slpt

/-! ## Frames drawn for tables -/

/-- `a'` is `a` after some allocations. -/
def Draws (a a' : BitmapAllocator) : Prop := ∃ n, drawn n a = some a'

theorem Draws.refl (a : BitmapAllocator) : Draws a a := ⟨0, rfl⟩

theorem Draws.trans {a b c : BitmapAllocator} (h : Draws a b) (h' : Draws b c) : Draws a c := by
  obtain ⟨n, hn⟩ := h
  obtain ⟨k, hk⟩ := h'
  exact ⟨n + k, by rw [drawn_add, hn, Option.bind_some, hk]⟩

theorem Draws.of_alloc {a a' : BitmapAllocator} {f : ℕ} (h : a.alloc = some (f, a')) :
    Draws a a' := ⟨1, by rw [drawn_succ_of_alloc h, drawn_zero]⟩

namespace Slpt

variable {agaw : Agaw} {t t' : Slpt × BitmapAllocator} {iova phys : ℕ}

theorem linkTables_spec (iova : ℕ) : ∀ (levels : List ℕ) (t : Slpt × BitmapAllocator),
    (linkTables iova levels t).2.1.leaf = t.1.leaf ∧ Draws t.2 (linkTables iova levels t).2.2
  | [], t => ⟨rfl, .refl _⟩
  | level :: levels, (s, a) => by
    rw [linkTables]
    split_ifs
    · exact linkTables_spec iova levels (s, a)
    · cases ha : a.alloc with
      | none => exact ⟨rfl, .refl _⟩
      | some r =>
        obtain ⟨hleaf, hdraws⟩ := linkTables_spec iova levels
          ({ s with tables := (level, iova / 2 ^ (12 + 9 * level)) :: s.tables }, r.2)
        exact ⟨hleaf, (Draws.of_alloc ha).trans hdraws⟩

/-- A page that could not be mapped leaves the leaves as they were. -/
theorem map4k_false (h : map4k agaw t iova phys = (false, t')) :
    t'.1.leaf = t.1.leaf ∧ Draws t.2 t'.2 := by
  obtain ⟨hleaf, hdraws⟩ := linkTables_spec iova agaw.below t
  unfold map4k at h
  split_ifs at h
  · obtain rfl := (Prod.mk.inj h).2
    exact ⟨rfl, .refl _⟩
  · obtain rfl := (Prod.mk.inj h).2
    exact ⟨rfl, .refl _⟩
  · obtain rfl := (Prod.mk.inj h).2
    exact ⟨rfl, .refl _⟩
  · split at h
    next t'' heq =>
      obtain rfl := (Prod.mk.inj h).2
      rw [heq] at hleaf hdraws
      exact ⟨hleaf, hdraws⟩
    next s a heq =>
      rw [heq] at hleaf hdraws
      split at h
      · obtain rfl := (Prod.mk.inj h).2
        exact ⟨hleaf, hdraws⟩
      · cases (Prod.mk.inj h).1

/-- **A page that is mapped was not mapped before.** -/
theorem map4k_true (h : map4k agaw t iova phys = (true, t')) :
    iova % 4096 = 0 ∧ phys % 4096 = 0 ∧ iova < 2 ^ agaw.bits ∧ phys < 2 ^ 52 ∧
    t.1.leaf iova = none ∧ t'.1.leaf = update t.1.leaf iova (some phys) ∧ Draws t.2 t'.2 := by
  obtain ⟨hleaf, hdraws⟩ := linkTables_spec iova agaw.below t
  unfold map4k at h
  split_ifs at h with halign
  · cases (Prod.mk.inj h).1
  · cases (Prod.mk.inj h).1
  · cases (Prod.mk.inj h).1
  · split at h
    next t'' heq => cases (Prod.mk.inj h).1
    next s a heq =>
      rw [heq] at hleaf hdraws
      split at h
      · cases (Prod.mk.inj h).1
      next hnone =>
        obtain rfl := (Prod.mk.inj h).2
        rw [hleaf] at hnone
        exact ⟨by omega, by omega, by omega, by omega, hnone, by rw [← hleaf], hdraws⟩

/-! ## Windows of pages -/

/-- The page of `v` is one of the `n` pages from `iova`. -/
def InWindow (iova n v : ℕ) : Prop := ∃ i < n, v = iova + i * 4096

/-- The leaves after `n` pages from `iova` were mapped to those from `phys`. -/
def window (leaf : ℕ → Option ℕ) (iova phys : ℕ) : ℕ → ℕ → Option ℕ
  | 0 => leaf
  | n + 1 => update (window leaf iova phys n) (iova + n * 4096) (some (phys + n * 4096))

theorem window_of_lt {leaf : ℕ → Option ℕ} : ∀ {n i : ℕ}, i < n →
    window leaf iova phys n (iova + i * 4096) = some (phys + i * 4096)
  | n + 1, i, h => by
    rw [window]
    by_cases hi : i = n
    · rw [hi, update_self]
    · rw [update_of_ne (by omega), window_of_lt (by omega)]

theorem window_of_not {leaf : ℕ → Option ℕ} {v : ℕ} : ∀ {n : ℕ}, ¬ InWindow iova n v →
    window leaf iova phys n v = leaf v
  | 0, _ => rfl
  | n + 1, h => by
    have hne : v ≠ iova + n * 4096 := fun hv => h ⟨n, Nat.lt_succ_self n, hv⟩
    rw [window, update_of_ne hne]
    exact window_of_not fun ⟨i, hi, hv⟩ => h ⟨i, Nat.lt_succ_of_lt hi, hv⟩

/-- The page can be mapped to the frame. -/
structure Fits (agaw : Agaw) (iova phys : ℕ) : Prop where
  iova_aligned : iova % 4096 = 0
  phys_aligned : phys % 4096 = 0
  iova_lt : iova < 2 ^ agaw.bits
  phys_lt : phys < 2 ^ 52

/-- The first `n` pages of a window have been mapped, none of which was before. -/
structure MappedTo (agaw : Agaw) (iova phys n : ℕ) (t t' : Slpt × BitmapAllocator) : Prop where
  leaf : t'.1.leaf = window t.1.leaf iova phys n
  fresh : ∀ i < n, t.1.leaf (iova + i * 4096) = none
  fits : ∀ i < n, Fits agaw (iova + i * 4096) (phys + i * 4096)
  draws : Draws t.2 t'.2

theorem MappedTo.refl (t : Slpt × BitmapAllocator) : MappedTo agaw iova phys 0 t t :=
  ⟨rfl, nofun, nofun, .refl _⟩

theorem MappedTo.succ {n : ℕ} {t'' : Slpt × BitmapAllocator} (h : MappedTo agaw iova phys n t t')
    (hmap : map4k agaw t' (iova + n * 4096) (phys + n * 4096) = (true, t'')) :
    MappedTo agaw iova phys (n + 1) t t'' := by
  obtain ⟨hi, hp, hiova, hphys, hnone, hleaf, hdraws⟩ := map4k_true hmap
  rw [h.leaf, window_of_not (by rintro ⟨i, hi, hv⟩; omega)] at hnone
  refine ⟨by rw [hleaf, h.leaf, window], fun i hi' => ?_, fun i hi' => ?_, h.draws.trans hdraws⟩
  · obtain hlt | rfl := Nat.lt_succ_iff_lt_or_eq.mp hi'
    · exact h.fresh i hlt
    · exact hnone
  · obtain hlt | rfl := Nat.lt_succ_iff_lt_or_eq.mp hi'
    · exact h.fits i hlt
    · exact ⟨hi, hp, hiova, hphys⟩

/-- **How the loop over the pages ends.**  Addresses overflow at the first page or not at all. -/
theorem mapPages_spec {t0 : Slpt × BitmapAllocator} : ∀ (n p : ℕ) (t : Slpt × BitmapAllocator),
    MappedTo agaw iova phys p t0 t → (∀ t', mapPages (pageTables agaw) iova phys p n t = .done t' →
      MappedTo agaw iova phys (p + n) t0 t') ∧
    (∀ q t', mapPages (pageTables agaw) iova phys p n t = .failed q t' →
      ∃ t'', MappedTo agaw iova phys q t0 t'' ∧ t'.1.leaf = t''.1.leaf ∧ Draws t0.2 t'.2) ∧
    (∀ t', mapPages (pageTables agaw) iova phys p n t = .overflow t' →
      t'.1.leaf = t0.1.leaf ∧ Draws t0.2 t'.2)
  | 0, p, t, h => ⟨fun t' ht => by cases ht; exact h, nofun, nofun⟩
  | n + 1, p, t, h => by
    rw [mapPages]
    by_cases hover : 2 ^ 64 ≤ iova + p * 4096 ∨ 2 ^ 64 ≤ phys + p * 4096
    · rw [if_pos hover]
      refine ⟨nofun, nofun, fun t' ht => ?_⟩
      obtain rfl := Mapped.overflow.inj ht
      cases p with
      | zero => exact ⟨h.leaf, h.draws⟩
      | succ p =>
        -- the page before was in range
        have hfits := h.fits p (Nat.lt_succ_self p)
        have hiova := hfits.iova_lt
        have hphys := hfits.phys_lt
        have hbits : 2 ^ agaw.bits ≤ 2 ^ 48 := by cases agaw <;> decide
        omega
    · rw [if_neg hover]
      cases hmap : (pageTables agaw).map4k t (iova + p * 4096) (phys + p * 4096) with
      | mk ok t1 =>
        cases ok with
        | true =>
          have := mapPages_spec n (p + 1) t1 (h.succ hmap)
          rw [Nat.add_right_comm] at this
          exact this
        | false =>
          obtain ⟨hleaf, hdraws⟩ := map4k_false hmap
          refine ⟨nofun, fun q t' ht => ?_, nofun⟩
          obtain ⟨rfl, rfl⟩ := Mapped.failed.inj ht
          exact ⟨t, h, hleaf, h.draws.trans hdraws⟩

theorem unmapPages_alloc : ∀ (n : ℕ) (t : Slpt × BitmapAllocator),
    (unmapPages (pageTables agaw) iova n t).2 = t.2
  | 0, _ => rfl
  | n + 1, t => unmapPages_alloc n t

theorem unmapPages_of_not {v : ℕ} : ∀ (n : ℕ) (t : Slpt × BitmapAllocator), ¬ InWindow iova n v →
    (unmapPages (pageTables agaw) iova n t).1.leaf v = t.1.leaf v
  | 0, _, _ => rfl
  | n + 1, t, h => by
    have hne : v ≠ iova + n * 4096 := fun hv => h ⟨n, Nat.lt_succ_self n, hv⟩
    rw [← unmapPages_of_not n t fun ⟨i, hi, hv⟩ => h ⟨i, Nat.lt_succ_of_lt hi, hv⟩]
    show (unmap4k agaw _ _).leaf v = _
    unfold unmap4k
    split_ifs
    · rfl
    · exact update_of_ne hne _ _

theorem unmapPages_of_lt : ∀ (n : ℕ) (t : Slpt × BitmapAllocator) {i : ℕ}, i < n →
    (∀ i < n, (iova + i * 4096) % 4096 = 0 ∧ iova + i * 4096 < 2 ^ agaw.bits) →
    (unmapPages (pageTables agaw) iova n t).1.leaf (iova + i * 4096) = none
  | n + 1, t, i, hi, hfits => by
    have hlast : (unmapPages (pageTables agaw) iova (n + 1) t).1.leaf =
        update (unmapPages (pageTables agaw) iova n t).1.leaf (iova + n * 4096) none := by
      show (unmap4k agaw _ _).leaf = _
      have hn := hfits n (Nat.lt_succ_self n)
      rw [unmap4k, if_neg (by omega)]
    rw [hlast]
    by_cases hin : i = n
    · rw [hin, update_self]
    · rw [update_of_ne (by omega),
        unmapPages_of_lt n t (by omega) fun j hj => hfits j (by omega)]

theorem MappedTo.unmapPages {n : ℕ} {t'' : Slpt × BitmapAllocator}
    (h : MappedTo agaw iova phys n t t') (hleaf : t''.1.leaf = t'.1.leaf) :
    (unmapPages (pageTables agaw) iova n t'').1.leaf = t.1.leaf := by
  funext v
  by_cases hv : InWindow iova n v
  · obtain ⟨i, hi, rfl⟩ := hv
    rw [unmapPages_of_lt n t'' hi fun j hj => ⟨(h.fits j hj).iova_aligned, (h.fits j hj).iova_lt⟩,
      h.fresh i hi]
  · rw [unmapPages_of_not n t'' hv, hleaf, h.leaf, window_of_not hv]

section Map

variable {rmrrs : List Rmrr} {d d' : Domain} {size : ℕ} {limit : Option ℕ}

/-- **A failed call leaves every leaf as it was**… -/
theorem mapPhysToIova_none
    (h : mapPhysToIova (pageTables agaw) rmrrs d t phys size limit = (none, d', t')) :
    t'.1.leaf = t.1.leaf ∧ Draws t.2 t'.2 := by
  obtain heq | ⟨iova, d1, -, ⟨t1, -, heq⟩ | ⟨t1, hmap, heq⟩ | ⟨p, t1, hmap, heq⟩⟩ :=
    mapPhysToIova_cases (pageTables agaw) rmrrs d t phys size limit
  · cases heq.symm.trans h
    exact ⟨rfl, .refl _⟩
  · cases heq.symm.trans h
  · cases heq.symm.trans h
    exact (mapPages_spec _ 0 t (.refl t)).2.2 _ hmap
  · cases heq.symm.trans h
    obtain ⟨t2, hto, hleaf, hdraws⟩ := (mapPages_spec _ 0 t (.refl t)).2.1 _ _ hmap
    exact ⟨hto.unmapPages hleaf, (unmapPages_alloc p t1).symm ▸ hdraws⟩

/-- …and a successful one maps a window of pages that were not mapped. -/
theorem mapPhysToIova_some {addr : ℕ}
    (h : mapPhysToIova (pageTables agaw) rmrrs d t phys size limit = (some addr, d', t')) :
    ∃ iova, addr = iova + phys % 4096 ∧
      MappedTo agaw iova (pageDown phys) (pageUp (size + phys % 4096) / 4096) t t' := by
  obtain heq | ⟨iova, d1, -, ⟨t1, hmap, heq⟩ | ⟨t1, -, heq⟩ | ⟨p, t1, -, heq⟩⟩ :=
    mapPhysToIova_cases (pageTables agaw) rmrrs d t phys size limit
  · cases heq.symm.trans h
  · cases heq.symm.trans h
    refine ⟨iova, rfl, ?_⟩
    have := (mapPages_spec _ 0 t (.refl t)).1 _ hmap
    rwa [Nat.zero_add] at this
  · cases heq.symm.trans h
  · cases heq.symm.trans h

end Map

end Slpt

end Bedrock.Iommu
