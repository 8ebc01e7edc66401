import Bedrock.Mm.Vmm

/-!
# Mm/UserRange — the batched check of a user range

`translate_user` walks the four levels for one page.  `translate_user_range_ok` checks a range page
by page and keeps the upper entries of the last full walk; while the indices above the page table
stay the same, only the leaf is read:

    va           full walk --▸ cached (i0, i1, i2, e1, e2)
    va + 4096    same indices: leaf only
    ⋯            other indices: full walk, cached anew

The entries are checked before they are cached, so both agree (`translateUserRangeOk_iff`).
-/

namespace Bedrock

def userBoundary : ℕ := 0x800000000000

section

variable (mem : ℕ → Fin 512 → Pte) (root : ℕ)

/-- `translate_user`: the address, whether the page is for the user, and whether it is writable. -/
def translateUser (va : ℕ) : Option (ℕ × Bool × Bool) :=
  let e0 := mem root (index 39 va)
  if e0.isSet ptePresent = false then none
  else
    let e1 := mem e0.frame (index 30 va)
    if e1.isSet ptePresent = false then none
    else
      let userOk := e0.isSet pteUser && e1.isSet pteUser
      if e1.isSet ptePs then some (e1.frame ||| va % 2 ^ 30, userOk, e1.isSet pteWritable)
      else
        let e2 := mem e1.frame (index 21 va)
        if e2.isSet ptePresent = false then none
        else
          let userOk := userOk && e2.isSet pteUser
          if e2.isSet ptePs then some (e2.frame ||| va % 2 ^ 21, userOk, e2.isSet pteWritable)
          else
            let e3 := mem e2.frame (index 12 va)
            if e3.isSet ptePresent = false then none
            else some (e3.frame ||| va % 2 ^ 12, userOk && e3.isSet pteUser, e3.isSet pteWritable)

/-- The entries kept from a full walk. -/
structure CachedWalk where
  i0 : Fin 512
  i1 : Fin 512
  i2 : Fin 512
  e0 : Pte
  e1 : Pte
  e2 : Pte
  haveE2 : Bool

/-- The cached entries are those on the way to `va`. -/
def CachedWalk.hits (c : CachedWalk) (va : ℕ) : Bool :=
  c.i0 = index 39 va ∧ c.i1 = index 30 va ∧ c.i2 = index 21 va

/-- An entry that does not let the user pass. -/
def Pte.refused (e : Pte) : Bool := e.isSet ptePresent = false ∨ e.isSet pteUser = false

/-- A leaf that the request may not write. -/
def Pte.readOnlyFor (needWritable : Bool) (e : Pte) : Bool :=
  needWritable && !e.isSet pteWritable

/-- The full walk for a page, and what it caches; `none` is `return false`. -/
def fullWalk (needWritable : Bool) (va : ℕ) : Option CachedWalk :=
  let e0 := mem root (index 39 va)
  if e0.refused then none
  else
    let e1 := mem e0.frame (index 30 va)
    if e1.refused then none
    else if e1.isSet ptePs then
      if e1.readOnlyFor needWritable then none
      else some ⟨index 39 va, index 30 va, index 21 va, e0, e1, 0#64, false⟩
    else
      let e2 := mem e1.frame (index 21 va)
      if e2.refused then none
      else if e2.isSet ptePs then
        if e2.readOnlyFor needWritable then none
        else some ⟨index 39 va, index 30 va, index 21 va, e0, e1, e2, true⟩
      else
        let e3 := mem e2.frame (index 12 va)
        if e3.refused then none
        else if e3.readOnlyFor needWritable then none
        else some ⟨index 39 va, index 30 va, index 21 va, e0, e1, e2, true⟩

/-- The check of the leaf behind cached entries. -/
def leafOnly (needWritable : Bool) (c : CachedWalk) (va : ℕ) : Bool :=
  if c.e1.isSet ptePs then !c.e1.readOnlyFor needWritable
  else if c.haveE2 && c.e2.isSet ptePs then !c.e2.readOnlyFor needWritable
  else
    let e3 := mem c.e2.frame (index 12 va)
    e3.isSet ptePresent && !e3.readOnlyFor needWritable && e3.isSet pteUser

/-- The loop over the pages. -/
def checkPages (needWritable : Bool) : ℕ → Option CachedWalk → ℕ → Bool
  | 0, _, _ => true
  | pages + 1, cached, va =>
    match cached.filter (·.hits va) with
    | some c =>
      leafOnly mem needWritable c va &&
        checkPages needWritable pages cached ((va + 0x1000) % 2 ^ 64)
    | none =>
      match fullWalk mem root needWritable va with
      | none => false
      | some c => checkPages needWritable pages (some c) ((va + 0x1000) % 2 ^ 64)

/-- `translate_user_range_ok`. -/
def translateUserRangeOk (ptr len : ℕ) (needWritable : Bool) : Bool :=
  if len = 0 then true
  else
    checkPages mem root needWritable ((ptr % 0x1000 + len + 0xFFF) % 2 ^ 64 / 2 ^ 12) none
      (ptr / 0x1000 * 0x1000)

/-- The plain walk finds a page of the user, writable if that is needed. -/
def PageOk (needWritable : Bool) (va : ℕ) : Prop :=
  ∃ pa w, translateUser mem root va = some (pa, true, w) ∧ (needWritable = true → w = true)

end

variable {mem : ℕ → Fin 512 → Pte} {root va va' : ℕ} {needWritable : Bool} {c : CachedWalk}

/-- What a plain walk found is enough for the request. -/
def permits (needWritable : Bool) : Option (ℕ × Bool × Bool) → Bool
  | none => false
  | some (_, userOk, writable) => userOk && (!needWritable || writable)

theorem pageOk_iff : PageOk mem root needWritable va ↔
    permits needWritable (translateUser mem root va) = true := by
  rw [PageOk]
  cases translateUser mem root va with
  | none => simp [permits]
  | some r => cases needWritable <;> simp [permits, Prod.ext_iff]

theorem not_refused {e : Pte} (h : ¬e.refused = true) :
    ¬e.isSet ptePresent = false ∧ e.isSet pteUser = true := by
  simpa [Pte.refused] using h

/-- The check of a leaf, as the walk that reads it and as a look at what the plain walk found. -/
theorem leaf_isSome (e : Pte) (pa : ℕ) (c : CachedWalk) :
    (if e.readOnlyFor needWritable = true then none else some c).isSome =
      permits needWritable (some (pa, true, e.isSet pteWritable)) := by
  cases needWritable <;> cases h : e.isSet pteWritable <;> simp [Pte.readOnlyFor, permits, h]

/-- **The full walk passes exactly the pages that the plain walk passes.** -/
theorem fullWalk_isSome : (fullWalk mem root needWritable va).isSome =
    permits needWritable (translateUser mem root va) := by
  rw [fullWalk, translateUser]
  dsimp only
  generalize mem root (index 39 va) = e0
  generalize mem e0.frame (index 30 va) = e1
  generalize mem e1.frame (index 21 va) = e2
  generalize mem e2.frame (index 12 va) = e3
  -- level by level: a refused entry is absent, or makes the page one that is not the user's
  by_cases h0 : e0.refused = true
  · rw [if_pos h0]
    obtain hp | hu := of_decide_eq_true h0
    · rw [if_pos hp]
      rfl
    · simp only [hu, Bool.false_and]
      split_ifs <;> rfl
  obtain ⟨hp0, hu0⟩ := not_refused h0
  rw [if_neg h0, if_neg hp0, hu0, Bool.true_and]
  by_cases h1 : e1.refused = true
  · rw [if_pos h1]
    obtain hp | hu := of_decide_eq_true h1
    · rw [if_pos hp]
      rfl
    · simp only [hu, Bool.false_and]
      split_ifs <;> rfl
  obtain ⟨hp1, hu1⟩ := not_refused h1
  rw [if_neg h1, if_neg hp1, hu1, Bool.true_and]
  by_cases hs1 : e1.isSet ptePs = true
  · rw [if_pos hs1, if_pos hs1]
    exact leaf_isSome e1 _ _
  rw [if_neg hs1, if_neg hs1]
  by_cases h2 : e2.refused = true
  · rw [if_pos h2]
    obtain hp | hu := of_decide_eq_true h2
    · rw [if_pos hp]
      rfl
    · simp only [hu, Bool.false_and]
      split_ifs <;> rfl
  obtain ⟨hp2, hu2⟩ := not_refused h2
  rw [if_neg h2, if_neg hp2, hu2, Bool.true_and]
  by_cases hs2 : e2.isSet ptePs = true
  · rw [if_pos hs2, if_pos hs2]
    exact leaf_isSome e2 _ _
  rw [if_neg hs2, if_neg hs2]
  by_cases h3 : e3.refused = true
  · rw [if_pos h3]
    obtain hp | hu := of_decide_eq_true h3
    · rw [if_pos hp]
      rfl
    · rw [hu]
      split_ifs <;> rfl
  obtain ⟨hp3, hu3⟩ := not_refused h3
  rw [if_neg h3, if_neg hp3, hu3]
  exact leaf_isSome e3 _ _

/-- On a hit, the leaf decides as the full walk would. -/
theorem leafOnly_eq (hc : fullWalk mem root needWritable va' = some c) (hhit : c.hits va = true) :
    leafOnly mem needWritable c va = (fullWalk mem root needWritable va).isSome := by
  have hidx : index 39 va = index 39 va' ∧ index 30 va = index 30 va' ∧
      index 21 va = index 21 va' := by
    simp only [fullWalk] at hc
    grind [CachedWalk.hits]
  simp only [fullWalk, leafOnly, hidx.1] at hc ⊢
  grind [Pte.refused]

/-- **The loop checks every page**, from any cache that a full walk has filled. -/
theorem checkPages_iff : ∀ (pages : ℕ) {cached : Option CachedWalk} {va : ℕ},
    (∀ c, cached = some c → ∃ va', fullWalk mem root needWritable va' = some c) →
    va + pages * 0x1000 ≤ 2 ^ 64 → (checkPages mem root needWritable pages cached va = true ↔
      ∀ k < pages, PageOk mem root needWritable (va + k * 0x1000))
  | 0, _, _, _, _ => by simp [checkPages]
  | pages + 1, cached, va, hcached, hle => by
    have hsplit : (∀ k < pages + 1, PageOk mem root needWritable (va + k * 0x1000)) ↔
        PageOk mem root needWritable va ∧
          ∀ k < pages, PageOk mem root needWritable (va + 0x1000 + k * 0x1000) := by
      rw [Nat.forall_lt_succ_left]
      simp only [Nat.succ_mul]
      refine and_congr_right fun _ => forall₂_congr fun k _ => ?_
      rw [Nat.add_assoc va, Nat.add_comm (k * 0x1000)]
    rw [hsplit]
    -- the last page may end the address space, but then no page is left
    have hnext : ∀ {cached : Option CachedWalk},
        (∀ c, cached = some c → ∃ va', fullWalk mem root needWritable va' = some c) →
        (checkPages mem root needWritable pages cached ((va + 0x1000) % 2 ^ 64) = true ↔
          ∀ k < pages, PageOk mem root needWritable (va + 0x1000 + k * 0x1000)) := by
      intro cached hcached
      obtain rfl | hpos := Nat.eq_zero_or_pos pages
      · simp [checkPages]
      · rw [Nat.mod_eq_of_lt (by omega)]
        exact checkPages_iff pages hcached (by omega)
    rw [checkPages]
    split
    · rename_i c hc
      obtain ⟨rfl, hhit⟩ := Option.filter_eq_some_iff.mp hc
      obtain ⟨va', hva'⟩ := hcached c rfl
      rw [Bool.and_eq_true, leafOnly_eq hva' hhit, fullWalk_isSome, ← pageOk_iff, hnext hcached]
    · split
      · rename_i hnone
        refine iff_of_false Bool.false_ne_true fun hok => ?_
        have := pageOk_iff.mp hok.1
        rw [← fullWalk_isSome, hnone] at this
        cases this
      · rename_i c hc
        rw [hnext fun c' hc' => ⟨va, hc' ▸ hc⟩]
        refine (and_iff_right (pageOk_iff.mpr ?_)).symm
        rw [← fullWalk_isSome, hc]
        rfl

/-- **The batched check agrees with the plain walk of every page that the range touches.** -/
theorem translateUserRangeOk_iff {ptr len : ℕ} (h : ptr + len ≤ userBoundary) :
    translateUserRangeOk mem root ptr len needWritable = true ↔
      ∀ x, ptr ≤ x → x < ptr + len → PageOk mem root needWritable (x / 0x1000 * 0x1000) := by
  have hbound : userBoundary = 2 ^ 47 := rfl
  rw [translateUserRangeOk]
  split
  · exact iff_of_true rfl fun x h1 h2 => by omega
  · rw [checkPages_iff _ (by simp) (by omega)]
    constructor
    · intro hall x h1 h2
      have hpage := hall (x / 0x1000 - ptr / 0x1000) (by omega)
      rwa [show ptr / 0x1000 * 0x1000 + (x / 0x1000 - ptr / 0x1000) * 0x1000
        = x / 0x1000 * 0x1000 by omega] at hpage
    · intro hall k hk
      have hpage := hall (max ptr (ptr / 0x1000 * 0x1000 + k * 0x1000)) (by omega) (by omega)
      rwa [show max ptr (ptr / 0x1000 * 0x1000 + k * 0x1000) / 0x1000 * 0x1000
        = ptr / 0x1000 * 0x1000 + k * 0x1000 by omega] at hpage

/-- Every entry a writable huge page of the user: a range that crosses two of them passes. -/
theorem translateUserRangeOk_huge :
    translateUserRangeOk (fun _ _ => 0x87#64) 0 0x1FFFFF 2 true = true ∧
      ∀ x, 0x1FFFFF ≤ x → x < 0x1FFFFF + 2 →
        PageOk (fun _ _ => 0x87#64) 0 true (x / 0x1000 * 0x1000) := by
  have htrue : translateUserRangeOk (fun _ _ => 0x87#64) 0 0x1FFFFF 2 true = true := by
    decide +kernel
  exact ⟨htrue, (translateUserRangeOk_iff (by decide)).mp htrue⟩

end Bedrock
