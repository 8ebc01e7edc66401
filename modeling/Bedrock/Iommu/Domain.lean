import Bedrock.Iommu.FreeWindows

/-!
# Iommu/Domain — device addresses and the pages behind them

A domain hands out windows of device addresses: from the list of reclaimed ones, and otherwise from
a cursor that jumps over the reserved ranges.

    0x1000 ------ handed out or reclaimed ------▸ nextIova ---------▸ iovaLimit

`mapPhysToIova` takes a window and maps it page by page into the second-level page tables; if a page
cannot be mapped, it unmaps the pages before, gives the window back **and** sets the cursor back to
where it was.  The page tables are an interface here (`PageTables`), with a state of any type.
-/

namespace Bedrock.Iommu

/-- Whole pages, upwards: `(n + 0xFFF) & !0xFFF`. -/
def pageUp (n : ℕ) : ℕ := (n + 0xFFF) / 4096 * 4096

/-- Whole pages, downwards: `n & !0xFFF`. -/
def pageDown (n : ℕ) : ℕ := n / 4096 * 4096

theorem le_pageUp (n : ℕ) : n ≤ pageUp n := by
  unfold pageUp
  omega

/-- `acpi::Rmrr`: a reserved range, with its last address. -/
structure Rmrr where
  baseAddress : ℕ
  limitAddress : ℕ

namespace Rmrr

/-- The first page of the range. -/
def start (r : Rmrr) : ℕ := pageDown r.baseAddress

/-- One past its last page. -/
def stop (r : Rmrr) : ℕ := r.limitAddress / 4096 * 4096 + 4096

/-- The addresses of the pages of the range. -/
def Contains (r : Rmrr) (x : ℕ) : Prop := r.start ≤ x ∧ x < r.stop

end Rmrr

/-- The address widths of the second-level tables. -/
inductive Agaw
  | level3 | level4

def Agaw.bits : Agaw → ℕ
  | level3 => 39
  | level4 => 48

/-- The part of `Domain` that hands out addresses. -/
structure Domain where
  nextIova : ℕ
  iovaLimit : ℕ
  freeWindows : List Block
  deriving DecidableEq

namespace Domain

/-- `Domain::new`. -/
def new (agaw : Agaw) (mgaw haw : ℕ) : Domain :=
  let limit := 2 ^ agaw.bits
  let limit := if haw < agaw.bits then min limit (2 ^ haw) else limit
  let limit := if mgaw < agaw.bits then min limit (2 ^ mgaw) else limit
  ⟨0x1000, limit, []⟩

/-! ## The cursor -/

/-- What a look at the reserved ranges says about a candidate. -/
inductive Look
  | clear
  | skip (candidate : ℕ)
  | exhausted
  deriving DecidableEq

/-- The first reserved range that overlaps `pages` bytes from the candidate sends it past its end.
A range up to the end of the address space ends the search. -/
def look (candidate pages : ℕ) : List Rmrr → Look
  | [] => .clear
  | r :: rs =>
    if 2 ^ 64 ≤ r.stop then .exhausted
    else if candidate < r.stop ∧ r.start < candidate + pages then
      if 2 ^ 64 ≤ r.stop + 0xFFF then .exhausted else .skip (pageUp r.stop)
    else look candidate pages rs

/-- The attempts to place a window at the cursor. -/
def search (pages limit : ℕ) (rmrrs : List Rmrr) : ℕ → ℕ → Option ℕ
  | 0, _ => none
  | attempts + 1, candidate =>
    -- a sum that leaves the word is past every limit too
    if limit < candidate + pages then none
    else
      match look candidate pages rmrrs with
      | .exhausted => none
      | .skip candidate => search pages limit rmrrs attempts candidate
      | .clear =>
        if candidate = 0 then search pages limit rmrrs attempts 0x1000 else some candidate

/-- `alloc_iova_with_limit`. -/
def allocIovaWithLimit (d : Domain) (size limit : ℕ) (rmrrs : List Rmrr) : Option (ℕ × Domain) :=
  if size = 0 ∨ 2 ^ 64 ≤ size + 0xFFF then none
  else
    match take d.freeWindows (pageUp size) limit with
    | some (va, free) => some (va, { d with freeWindows := free })
    | none =>
      if 2 ^ 64 ≤ d.nextIova + 0xFFF then none
      else
        (search (pageUp size) limit rmrrs 64 (pageUp d.nextIova)).map fun candidate =>
          (candidate, { d with nextIova := candidate + pageUp size })

/-- `alloc_iova`. -/
def allocIova (d : Domain) (size : ℕ) (rmrrs : List Rmrr) : Option (ℕ × Domain) :=
  d.allocIovaWithLimit size d.iovaLimit rmrrs

/-- `alloc_iova_below`. -/
def allocIovaBelow (d : Domain) (size limit : ℕ) (rmrrs : List Rmrr) : Option (ℕ × Domain) :=
  if d.iovaLimit < limit then none else d.allocIovaWithLimit size limit rmrrs

/-- `free_iova`. -/
def freeIova (d : Domain) (iova size : ℕ) : Domain :=
  if pageUp size = 0 ∨ iova % 4096 ≠ 0 then d
  else { d with freeWindows := push d.freeWindows iova (pageUp size) }

section Alloc

variable {d d' : Domain} {rmrrs : List Rmrr} {candidate c pages size limit va : ℕ}

theorem look_clear (h : look candidate pages rmrrs = .clear) :
    ∀ r ∈ rmrrs, r.stop ≤ candidate ∨ candidate + pages ≤ r.start := by
  induction rmrrs with
  | nil => exact nofun
  | cons r rs ih =>
    rw [look] at h
    split_ifs at h with _
    intro r' hr'
    obtain rfl | hmem := List.mem_cons.mp hr'
    · omega
    · exact ih h r' hmem

theorem lt_of_look_skip (h : look candidate pages rmrrs = .skip c) : candidate < c := by
  induction rmrrs with
  | nil => cases h
  | cons r rs ih =>
    rw [look] at h
    split_ifs at h with _ hover
    · obtain rfl := Look.skip.inj h
      exact lt_of_lt_of_le hover.1 (le_pageUp _)
    · exact ih h

/-- The cursor finds a place at or after the candidate that keeps off every reserved range. -/
theorem search_some {attempts : ℕ} (h : search pages limit rmrrs attempts candidate = some c) :
    candidate ≤ c ∧ c + pages ≤ limit ∧ look c pages rmrrs = .clear := by
  induction attempts generalizing candidate with
  | zero => cases h
  | succ attempts ih =>
    rw [search] at h
    by_cases hlimit : limit < candidate + pages
    · rw [if_pos hlimit] at h
      cases h
    rw [if_neg hlimit] at h
    split at h
    next => cases h
    next c' hlook =>
      obtain ⟨hle, hrest⟩ := ih h
      exact ⟨(lt_of_look_skip hlook).le.trans hle, hrest⟩
    next hlook =>
      split_ifs at h with hzero
      · obtain ⟨hle, hrest⟩ := ih h
        exact ⟨by omega, hrest⟩
      · cases h
        exact ⟨le_rfl, by omega, hlook⟩

/-- **Where a window comes from**: the list of reclaimed ones, or the cursor. -/
theorem allocIovaWithLimit_some (h : d.allocIovaWithLimit size limit rmrrs = some (va, d')) :
    (∃ free, take d.freeWindows (pageUp size) limit = some (va, free) ∧
      d' = { d with freeWindows := free }) ∨
    take d.freeWindows (pageUp size) limit = none ∧ d.nextIova ≤ va ∧
      va + pageUp size ≤ limit ∧
      (∀ r ∈ rmrrs, r.stop ≤ va ∨ va + pageUp size ≤ r.start) ∧
      d' = { d with nextIova := va + pageUp size } := by
  unfold allocIovaWithLimit at h
  by_cases hsize : size = 0 ∨ 2 ^ 64 ≤ size + 0xFFF
  · rw [if_pos hsize] at h
    cases h
  rw [if_neg hsize] at h
  split at h
  next va' free htake =>
    cases h
    exact .inl ⟨free, htake, rfl⟩
  next htake =>
    split_ifs at h
    obtain ⟨c, hc, heq⟩ := Option.map_eq_some_iff.mp h
    cases heq
    obtain ⟨hle, hlimit, hlook⟩ := search_some hc
    exact .inr ⟨htake, (le_pageUp _).trans hle, hlimit, look_clear hlook, rfl⟩

end Alloc

end Domain

/-! ## Windows and their pages -/

/-- The second-level page tables: `map_4k` says whether it succeeded. -/
structure PageTables (τ : Type) where
  map4k : τ → ℕ → ℕ → Bool × τ
  unmap4k : τ → ℕ → τ

/-- How the loop over the pages of a window ends. -/
inductive Mapped (τ : Type)
  | done (t : τ)
  | failed (page : ℕ) (t : τ)
  | overflow (t : τ)

/-- A page could not be mapped. -/
def Mapped.isFailed {τ : Type} : Mapped τ → Bool
  | .failed _ _ => true
  | _ => false

section Map

variable {τ : Type} (io : PageTables τ)

/-- The loop: page `p` of the window goes to page `p` of the memory. -/
def mapPages (iova phys : ℕ) : ℕ → ℕ → τ → Mapped τ
  | _, 0, t => .done t
  | p, n + 1, t =>
    if 2 ^ 64 ≤ iova + p * 4096 ∨ 2 ^ 64 ≤ phys + p * 4096 then .overflow t
    else
      match io.map4k t (iova + p * 4096) (phys + p * 4096) with
      | (true, t) => mapPages iova phys (p + 1) n t
      | (false, t) => .failed p t

/-- The first `n` pages of a window are unmapped. -/
def unmapPages (iova : ℕ) : ℕ → τ → τ
  | 0, t => t
  | n + 1, t => io.unmap4k (unmapPages iova n t) (iova + n * 4096)

/-- The window for a request, with or without a limit. -/
def allocFor (d : Domain) (size : ℕ) (limit : Option ℕ) (rmrrs : List Rmrr) : Option (ℕ × Domain) :=
  match limit with
  | some limit => d.allocIovaBelow size limit rmrrs
  | none => d.allocIova size rmrrs

/-- `map_phys_to_iova_inner`.  A window whose addresses overflow on the way stays taken. -/
def mapPhysToIova (rmrrs : List Rmrr) (d : Domain) (t : τ) (phys size : ℕ) (limit : Option ℕ) :
    Option ℕ × Domain × τ :=
  let total := size + phys % 4096
  if size = 0 ∨ 2 ^ 64 ≤ total then (none, d, t)
  else
    match allocFor d total limit rmrrs with
    | none => (none, d, t)
    | some (iova, d') =>
      match mapPages io iova (pageDown phys) 0 (pageUp total / 4096) t with
      | .done t => (some (iova + phys % 4096), d', t)
      | .overflow t => (none, d', t)
      | .failed p t =>
        (none, { d'.freeIova iova (pageUp total) with nextIova := d.nextIova },
          unmapPages io iova p t)

/-- The limit that a request is under. -/
def askedLimit (d : Domain) (limit : Option ℕ) : ℕ := limit.getD d.iovaLimit

variable {io}

theorem allocFor_some {d d' : Domain} {rmrrs : List Rmrr} {size va : ℕ} {limit : Option ℕ}
    (h : allocFor d size limit rmrrs = some (va, d')) :
    d.allocIovaWithLimit size (askedLimit d limit) rmrrs = some (va, d') := by
  cases limit with
  | none => exact h
  | some limit =>
    rw [allocFor, Domain.allocIovaBelow] at h
    split_ifs at h
    exact h

/-- **How a call to `map_phys_to_iova` ends.** -/
theorem mapPhysToIova_cases (io : PageTables τ) (rmrrs : List Rmrr) (d : Domain) (t : τ)
    (phys size : ℕ) (limit : Option ℕ) : mapPhysToIova io rmrrs d t phys size limit = (none, d, t) ∨
    ∃ iova d', allocFor d (size + phys % 4096) limit rmrrs = some (iova, d') ∧
      ((∃ t', mapPages io iova (pageDown phys) 0 (pageUp (size + phys % 4096) / 4096) t = .done t' ∧
        mapPhysToIova io rmrrs d t phys size limit = (some (iova + phys % 4096), d', t')) ∨
      (∃ t', mapPages io iova (pageDown phys) 0 (pageUp (size + phys % 4096) / 4096) t =
          .overflow t' ∧ mapPhysToIova io rmrrs d t phys size limit = (none, d', t')) ∨
      ∃ p t', mapPages io iova (pageDown phys) 0 (pageUp (size + phys % 4096) / 4096) t =
          .failed p t' ∧ mapPhysToIova io rmrrs d t phys size limit =
            (none, { d'.freeIova iova (pageUp (size + phys % 4096)) with nextIova := d.nextIova },
              unmapPages io iova p t')) := by
  unfold mapPhysToIova
  dsimp only
  split_ifs
  · exact .inl rfl
  · split
    next => exact .inl rfl
    next iova d' halloc =>
      refine .inr ⟨iova, d', halloc, ?_⟩
      split
      next t' hmap => exact .inl ⟨t', hmap, rfl⟩
      next t' hmap => exact .inr (.inl ⟨t', hmap, rfl⟩)
      next p t' hmap => exact .inr (.inr ⟨p, t', hmap, rfl⟩)

variable (io)

/-- `unmap_iova`. -/
def unmapIova (d : Domain) (t : τ) (iova size : ℕ) : Domain × τ :=
  if size = 0 ∨ iova % 4096 ≠ 0 ∨ size % 4096 ≠ 0 then (d, t)
  else (d.freeIova iova size, unmapPages io iova (size / 4096) t)

end Map

end Bedrock.Iommu
