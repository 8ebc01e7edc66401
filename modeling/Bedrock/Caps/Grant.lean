import Bedrock.Caps.Check

/-!
# Caps/Grant — granting a capability to a task

A successful creation on a directory grants the new path to the creator and to each of its
ancestors: the object itself and sixteen methods, all `RW` (`autoGrants`).  A grant replaces the
permission of an existing entry or adds an entry; it fails on a full set, on a path the validation
refuses, and when the first page of a task without a set cannot be allocated.  Every failure is
ignored.

On a task that has a set of validated capabilities both granting functions act alike (`grantSet`),
and a set that accepts all grants keeps covering whatever it covered (`isSubset_grantSets`).
-/

namespace Bedrock

open List

/-- What the capability system reads of a task: its address-space index and its set, if any. -/
structure CapTask where
  vm : ℕ
  caps : Option (List Cap)
  deriving DecidableEq, Repr

/-- `current_caps`: without a set, a task with no address space bypasses every check and any other
task is denied everything. -/
def CapTask.current (t : CapTask) : Option (List Cap) :=
  match t.caps with
  | some caps => some caps
  | none => if t.vm = 0 then none else some []

/-! ## One grant -/

/-- Do two capabilities stand for the same entry? -/
def Cap.sameEntry (c cap : Cap) : Bool := c.path = cap.path && c.method = cap.method

/-- Raise the first entry for the capability to what is granted, or add the entry at the end. -/
def insertCap (cap : Cap) : List Cap → List Cap
  | [] => [cap]
  | c :: cs =>
    if c.sameEntry cap then
      if c.perm.covers cap.perm then c :: cs else { c with perm := cap.perm } :: cs
    else c :: insertCap cap cs

/-- `grant_to_current`.  An entry that is already there is not validated again. -/
def grantToCurrent (pageOk : Bool) (cap : Cap) (t : CapTask) : Except UnispaceError CapTask :=
  match t.caps with
  | none =>
    match validateCap cap with
    | .error e => .error e
    | .ok () => if pageOk then .ok { t with caps := some [cap] } else .error .outOfMemory
  | some caps =>
    if maxCapsPerTask ≤ caps.length then .error .outOfMemory
    else if caps.any (·.sameEntry cap) then .ok { t with caps := some (insertCap cap caps) }
    else
      match validateCap cap with
      | .error e => .error e
      | .ok () => .ok { t with caps := some (insertCap cap caps) }

/-- `grant_cap_to_pid`, on the task the process number stands for. -/
def grantCapToPid (pageOk : Bool) (cap : Cap) (t : CapTask) : Except UnispaceError CapTask :=
  match validateCap cap with
  | .error e => .error e
  | .ok () =>
    match t.caps with
    | none => if pageOk then .ok { t with caps := some (insertCap cap []) } else .error .outOfMemory
    | some caps =>
      if maxCapsPerTask ≤ caps.length then .error .outOfMemory
      else .ok { t with caps := some (insertCap cap caps) }

/-- The callers ignore a failed grant. -/
def ignoreError (grant : CapTask → Except UnispaceError CapTask) (t : CapTask) : CapTask :=
  match grant t with
  | .ok t' => t'
  | .error _ => t

/-! ## What a creation grants -/

/-- The methods whose success grants the new child. -/
def createLike : List Str :=
  ["create", "mkdir", "symlink", "mkfifo", "mknod", "link", "rename"].map String.toList

/-- The methods granted on it. -/
def childMethods : List Str :=
  ["stat", "lstat", "readlink", "truncate", "chmod", "chown", "utimens", "create", "mkdir",
    "rmdir", "unlink", "rename", "symlink", "link", "mkfifo", "mknod"].map String.toList

/-- The path of the child: the name as it was given, after the directory's joined components. -/
def childPath (dir : List Str) (name : Str) : Str :=
  if joinPath dir = [] then name else joinPath dir ++ '/' :: name

/-- The capabilities granted, in order. -/
def autoGrants (dir : List Str) (name : Str) : List Cap :=
  ⟨childPath dir name, none, .rw⟩ ::
    childMethods.map fun m => ⟨childPath dir name, some m, .rw⟩

/-! ## Grants on a set -/

section

variable {c cap : Cap} {a b l g : List Cap}

theorem length_insertCap (cap : Cap) (l : List Cap) : (insertCap cap l).length ≤ l.length + 1 := by
  induction l with
  | nil => simp [insertCap]
  | cons c cs ih =>
    simp only [insertCap]
    split_ifs <;> simp [ih]

/-- An insertion keeps what was granted, raising at most one entry. -/
theorem isSubset_insertCap_old (cap : Cap) (l : List Cap) :
    isSubset (insertCap cap l) l = true := by
  rw [isSubset_iff]
  induction l with
  | nil => simp
  | cons c cs ih =>
    intro x hx
    simp only [insertCap]
    split_ifs with hsame hcov
    · exact ⟨x, hx, rfl, rfl, x.perm.covers_self⟩
    · obtain rfl | hx := mem_cons.mp hx
      · refine ⟨{ x with perm := cap.perm }, mem_cons_self, rfl, rfl, ?_⟩
        revert hcov
        cases x.perm <;> cases cap.perm <;> simp
      · exact ⟨x, mem_cons_of_mem _ hx, rfl, rfl, x.perm.covers_self⟩
    · obtain rfl | hx := mem_cons.mp hx
      · exact ⟨x, mem_cons_self, rfl, rfl, x.perm.covers_self⟩
      · obtain ⟨y, hy, h⟩ := ih x hx
        exact ⟨y, mem_cons_of_mem c hy, h⟩

/-- …and adds what it was given. -/
theorem isSubset_insertCap_new (cap : Cap) (l : List Cap) :
    isSubset (insertCap cap l) [cap] = true := by
  rw [isSubset_iff]
  simp only [mem_singleton, forall_eq]
  induction l with
  | nil => exact ⟨cap, mem_singleton_self cap, rfl, rfl, cap.perm.covers_self⟩
  | cons c cs ih =>
    simp only [insertCap]
    split_ifs with hsame hcov
    · simp only [Cap.sameEntry, Bool.and_eq_true, decide_eq_true_eq] at hsame
      exact ⟨c, mem_cons_self, hsame.1, hsame.2, hcov⟩
    · simp only [Cap.sameEntry, Bool.and_eq_true, decide_eq_true_eq] at hsame
      exact ⟨{ c with perm := cap.perm }, mem_cons_self, hsame.1, hsame.2,
        cap.perm.covers_self⟩
    · obtain ⟨y, hy, h⟩ := ih
      exact ⟨y, mem_cons_of_mem c hy, h⟩

/-- …and nothing else. -/
theorem mem_insertCap (h : c ∈ insertCap cap l) : c ∈ l ∨ c = cap := by
  induction l with
  | nil => exact .inr (mem_singleton.mp h)
  | cons d ds ih =>
    simp only [insertCap] at h
    split_ifs at h with hsame
    · exact .inl h
    · obtain rfl | h := mem_cons.mp h
      · simp only [Cap.sameEntry, Bool.and_eq_true, decide_eq_true_eq] at hsame
        rw [hsame.1, hsame.2]
        exact .inr rfl
      · exact .inl (mem_cons_of_mem d h)
    · obtain rfl | h := mem_cons.mp h
      · exact .inl mem_cons_self
      · exact (ih h).imp_left (mem_cons_of_mem d)

/-- Every capability of the set passes the validation. -/
def AllValid (l : List Cap) : Prop := ∀ c ∈ l, validateCap c = .ok ()

/-- One grant as it acts on a set of validated capabilities. -/
def grantSet (l : List Cap) (cap : Cap) : List Cap :=
  if maxCapsPerTask ≤ l.length ∨ validateCap cap ≠ .ok () then l else insertCap cap l

theorem length_grantSet : (grantSet l cap).length ≤ l.length + 1 := by
  unfold grantSet
  split_ifs
  · omega
  · exact length_insertCap cap l

theorem isSubset_grantSet_old (l : List Cap) (cap : Cap) : isSubset (grantSet l cap) l = true := by
  unfold grantSet
  split_ifs
  · exact isSubset_refl l
  · exact isSubset_insertCap_old cap l

/-- What a grant brings into a set is the capability itself, which is then valid. -/
theorem mem_grantSet (h : c ∈ grantSet l cap) : c ∈ l ∨ c = cap ∧ validateCap cap = .ok () := by
  unfold grantSet at h
  split_ifs at h with hno
  · exact .inl h
  · push Not at hno
    exact (mem_insertCap h).imp_right fun hc => ⟨hc, hno.2⟩

theorem AllValid.grantSet (hv : AllValid l) (cap : Cap) : AllValid (grantSet l cap) := by
  intro c hc
  obtain hc | ⟨rfl, hcap⟩ := mem_grantSet hc
  · exact hv c hc
  · exact hcap

theorem isSubset_grantSet_new (hroom : l.length < maxCapsPerTask)
    (hcap : validateCap cap = .ok ()) : isSubset (grantSet l cap) [cap] = true := by
  rw [grantSet, if_neg (by simp [hcap, hroom])]
  exact isSubset_insertCap_new cap l

/-! ## All grants of a creation -/

/-- The grants in order. -/
def grantSets (g l : List Cap) : List Cap := g.foldl grantSet l

theorem isSubset_grantSets_old (g l : List Cap) : isSubset (grantSets g l) l = true := by
  induction g generalizing l with
  | nil => exact isSubset_refl l
  | cons cap g ih => exact isSubset_trans (ih (grantSet l cap)) (isSubset_grantSet_old l cap)

theorem mem_grantSets (h : c ∈ grantSets g l) : c ∈ l ∨ c ∈ g ∧ validateCap c = .ok () := by
  induction g generalizing l with
  | nil => exact .inl h
  | cons cap g ih =>
    obtain hc | ⟨hc, hval⟩ := ih h
    · exact (mem_grantSet hc).imp_right fun ⟨hcap, hval⟩ =>
        ⟨hcap ▸ mem_cons_self, hcap ▸ hval⟩
    · exact .inr ⟨mem_cons_of_mem cap hc, hval⟩

/-- A full set takes no grant, not even of what would only raise an entry. -/
theorem grantSets_of_full (hfull : maxCapsPerTask ≤ l.length) : grantSets g l = l := by
  induction g with
  | nil => rfl
  | cons cap g ih => rwa [grantSets, foldl_cons, grantSet, if_pos (.inl hfull)]

/-- Does the set take all grants?  It has room for every one of them, or covers them already. -/
def Accepts (g l : List Cap) : Prop :=
  l.length + g.length ≤ maxCapsPerTask ∨ isSubset l g = true

/-- With room for all grants, each valid one is covered in the end. -/
theorem hasPerm_grantSets_of_room (hroom : l.length + g.length ≤ maxCapsPerTask) (hc : c ∈ g)
    (hval : validateCap c = .ok ()) : hasPerm (grantSets g l) c.path c.method c.perm = true := by
  induction g generalizing l with
  | nil => cases hc
  | cons cap g ih =>
    rw [length_cons] at hroom
    have hlen : (grantSet l cap).length ≤ l.length + 1 := length_grantSet
    obtain rfl | hc := mem_cons.mp hc
    · have hnew := isSubset_trans (isSubset_grantSets_old g (grantSet l c))
        (isSubset_grantSet_new (by omega) hval)
      simpa [isSubset, grantSets] using hnew
    · exact ih (by omega) hc

theorem hasPerm_grantSets (hacc : Accepts g l) (hc : c ∈ g) (hval : validateCap c = .ok ()) :
    hasPerm (grantSets g l) c.path c.method c.perm = true := by
  obtain hroom | hcov := hacc
  · exact hasPerm_grantSets_of_room hroom hc hval
  · have hall := isSubset_trans (isSubset_grantSets_old g l) hcov
    rw [isSubset, all_eq_true] at hall
    exact hall c hc

/-- **A set that accepts the grants keeps covering**: the same grants on the covered set add nothing
it does not get itself. -/
theorem isSubset_grantSets (hacc : Accepts g a) (h : isSubset a b = true) :
    isSubset (grantSets g a) (grantSets g b) = true := by
  rw [isSubset, all_eq_true]
  intro c hc
  obtain hc | ⟨hc, hval⟩ := mem_grantSets hc
  · have hb := isSubset_trans (isSubset_grantSets_old g a) h
    rw [isSubset, all_eq_true] at hb
    exact hb c hc
  · exact hasPerm_grantSets hacc hc hval

/-! ## The granting functions on a task with a set -/

theorem validateCap_congr {c cap : Cap} (h : c.sameEntry cap = true) :
    validateCap c = validateCap cap := by
  simp only [Cap.sameEntry, Bool.and_eq_true, decide_eq_true_eq] at h
  simp only [validateCap, h.1, h.2]

theorem grantCapToPid_eq {t : CapTask} (ht : t.caps = some l) (pageOk : Bool) (cap : Cap) :
    ignoreError (grantCapToPid pageOk cap) t = { t with caps := some (grantSet l cap) } := by
  have hself : { t with caps := some l } = t := by rw [← ht]
  unfold ignoreError grantCapToPid grantSet
  cases hval : validateCap cap with
  | error e => simp [hself]
  | ok u =>
    by_cases hlen : maxCapsPerTask ≤ l.length
    · simp [ht, hlen, hself]
    · simp [ht, hlen]

theorem grantToCurrent_eq {t : CapTask} (ht : t.caps = some l) (hv : AllValid l) (pageOk : Bool)
    (cap : Cap) :
    ignoreError (grantToCurrent pageOk cap) t = { t with caps := some (grantSet l cap) } := by
  have hself : { t with caps := some l } = t := by rw [← ht]
  unfold ignoreError grantToCurrent grantSet
  simp only [ht]
  by_cases hlen : maxCapsPerTask ≤ l.length
  · simp [hlen, hself]
  by_cases hany : l.any (·.sameEntry cap) = true
  · obtain ⟨c, hc, hsame⟩ := any_eq_true.mp hany
    have hval := (validateCap_congr hsame).symm.trans (hv c hc)
    simp [hlen, hany, hval]
  · cases hval : validateCap cap with
    | error e => simp [hlen, hany, hself]
    | ok u => simp [hlen]

/-- A task's set, if it has one, is validated. -/
def CapTask.Valid (t : CapTask) : Prop := ∀ l, t.caps = some l → AllValid l

theorem allValid_singleton (hval : validateCap cap = .ok ()) : AllValid [cap] :=
  fun _ hc => mem_singleton.mp hc ▸ hval

theorem CapTask.Valid.grantCapToPid {t : CapTask} (ht : t.Valid) (pageOk : Bool) (cap : Cap) :
    (ignoreError (grantCapToPid pageOk cap) t).Valid := by
  cases hcaps : t.caps with
  | some l =>
    rw [grantCapToPid_eq hcaps]
    rintro l' ⟨⟩
    exact (ht l hcaps).grantSet cap
  | none =>
    cases hval : validateCap cap with
    | error e => simpa [ignoreError, Bedrock.grantCapToPid, hval] using ht
    | ok u =>
      cases pageOk with
      | false => simpa [ignoreError, Bedrock.grantCapToPid, hcaps, hval] using ht
      | true =>
        simp only [ignoreError, Bedrock.grantCapToPid, hcaps, hval]
        rintro l' ⟨⟩
        exact allValid_singleton hval

theorem CapTask.Valid.grantToCurrent {t : CapTask} (ht : t.Valid) (pageOk : Bool) (cap : Cap) :
    (ignoreError (grantToCurrent pageOk cap) t).Valid := by
  cases hcaps : t.caps with
  | some l =>
    rw [grantToCurrent_eq hcaps (ht l hcaps)]
    rintro l' ⟨⟩
    exact (ht l hcaps).grantSet cap
  | none =>
    -- without capabilities the two grants are the same
    have heq : Bedrock.grantToCurrent pageOk cap t = Bedrock.grantCapToPid pageOk cap t := by
      simp only [Bedrock.grantToCurrent, Bedrock.grantCapToPid, hcaps]
      rfl
    rw [ignoreError, heq]
    exact ht.grantCapToPid pageOk cap

end

end Bedrock
