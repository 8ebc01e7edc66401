import Bedrock.Caps.Cap

/-!
# Caps/Check — the two capability checkers

A request names components, an optional method and a wanted permission.  It passes when every
proper front of the path is readable and the leaf grants what is wanted; `/proc/<pid>` stands for
`/proc/self` when the caller is an ancestor of the process.  The kernel has the check twice, on
joined texts (`checkPath`) and on components (`checkPathOn`).

A smaller set never passes more (`checkPathOn_of_isSubset`), hence no set at the end of a chain of
attenuations does.  The two checkers differ: the component walk takes any capability for a
proper front, the text walk only the object's own.
-/

namespace Bedrock

open List

/-! ## Process numbers -/

/-- What the running task may know about other processes: nothing if there is no current task,
otherwise whether it is an ancestor of a process. -/
abbrev Oracle := Option (ℕ → Bool)

/-- True if the text is a decimal process number of one to twenty digits. -/
def isNumericPid (s : Str) : Bool := s ≠ [] && byteLen s ≤ 20 && s.all Char.isDigit

def checkedU64 (n : ℕ) : Option ℕ := if n < 2 ^ 64 then some n else none

/-- The number a process name spells, unless it overflows. -/
def parsePid (s : Str) : Option ℕ :=
  if isNumericPid s then
    s.foldlM (fun v b => (checkedU64 (v * 10)).bind fun v => checkedU64 (v + (b.toNat - 48))) 0
  else none

def procName : Str := "proc".toList

def selfName : Str := "self".toList

/-- `canonicalize_proc_alias`: `proc/<pid>/…` is `proc/self/…` to an ancestor and hidden from every
other task; `none` means that the components are no alias. -/
def canonicalizeProcAlias (o : Oracle) : List Str → Except UnispaceError (Option (List Str))
  | c₀ :: c₁ :: rest =>
    if c₀ = procName ∧ c₁ ≠ selfName then
      match parsePid c₁, o with
      | some target, some isAncestor =>
        if isAncestor target then .ok (some (c₀ :: selfName :: rest)) else .error .notFound
      | _, _ => .ok none
    else .ok none
  | _ => .ok none

/-- The components the capabilities are looked up by. -/
def compRef (o : Oracle) (components : List Str) : Except UnispaceError (List Str) :=
  (canonicalizeProcAlias o components).map (·.getD components)

/-! ## The checkers -/

/-- `has_ancestor_r`: the object's own `R` on every proper front, by text. -/
def hasAncestorR (caps : List Cap) (components : List Str) : Bool :=
  (List.range (components.length - 1)).all fun i =>
    hasPerm caps (joinPath (components.take (i + 1))) none .r

/-- `has_ancestor_r_on`: some `R` on every proper front, by components. -/
def hasAncestorROn (caps : List Cap) (components : List Str) : Bool :=
  (List.range' 1 (components.length - 1)).all fun n =>
    caps.any fun c => segs c.path = components.take n && c.perm.covers .r

/-- What both checkers decide at the leaf, given what the capabilities grant on it. -/
def checkLeaf (grants : Option Str → Perm → Bool) (method : Option Str) (want : Perm) :
    Except UnispaceError Unit :=
  if method.isSome then
    if ¬grants none .r then .error .notFound
    else if ¬grants method want then
      if grants method .r && want = .rw then .error .accessDenied else .error .methodNotFound
    else .ok ()
  else if ¬grants none want then
    if grants none .r && want = .rw then .error .accessDenied else .error .notFound
  else .ok ()

/-- The shape of both checkers.  No set at all is the kernel's bypass; an empty one hides
everything but the root. -/
def checkPathBy (ancestorR : List Cap → List Str → Bool)
    (grants : List Cap → List Str → Option Str → Perm → Bool) (o : Oracle)
    (caps : Option (List Cap)) (components : List Str) (method : Option Str) (want : Perm) :
    Except UnispaceError Unit :=
  match caps with
  | none => .ok ()
  | some caps =>
    if caps = [] ∧ components ≠ [] then .error .notFound
    else
      match compRef o components with
      | .error e => .error e
      | .ok comps =>
        if ¬ancestorR caps comps then .error .notFound
        else checkLeaf (grants caps comps) method want

/-- `check_path`: joined texts. -/
def checkPath : Oracle → Option (List Cap) → List Str → Option Str → Perm →
    Except UnispaceError Unit :=
  checkPathBy hasAncestorR fun caps comps => hasPerm caps (joinPath comps)

/-- `check_path_on`: components. -/
def checkPathOn : Oracle → Option (List Cap) → List Str → Option Str → Perm →
    Except UnispaceError Unit :=
  checkPathBy hasAncestorROn hasPermOn

variable {caps parent child : List Cap} {comps components : List Str} {method : Option Str}
  {want : Perm} {o : Oracle}

theorem hasAncestorR_iff : hasAncestorR caps comps = true ↔
      ∀ n, 0 < n → n < comps.length → hasPerm caps (joinPath (comps.take n)) none .r = true := by
  simp only [hasAncestorR, all_eq_true, mem_range]
  constructor
  · intro h n hpos hlt
    simpa [Nat.sub_add_cancel hpos] using h (n - 1) (by omega)
  · intro h i hi
    exact h (i + 1) (by omega) (by omega)

theorem hasAncestorROn_iff : hasAncestorROn caps comps = true ↔
      ∀ n, 0 < n → n < comps.length → ∃ c ∈ caps, segs c.path = comps.take n := by
  simp only [hasAncestorROn, all_eq_true, mem_range'_1, any_eq_true,
    Perm.covers_r, Bool.and_true, decide_eq_true_eq]
  exact ⟨fun h n hpos hlt => h n (by omega), fun h n hn => h n (by omega) (by omega)⟩

/-- The leaf lets a request through when it grants it and, for a method, is readable. -/
theorem checkLeaf_eq_ok {grants : Option Str → Perm → Bool} :
    checkLeaf grants method want = .ok () ↔
      (method.isSome → grants none .r = true) ∧ grants method want = true := by
  cases method <;> simp only [checkLeaf] <;> split_ifs <;> simp_all

/-- A readable leaf is never answered as missing, and an unreadable one is as far as the object
goes. -/
theorem checkLeaf_eq_notFound {grants : Option Str → Perm → Bool}
    (hmono : grants none want = true → grants none .r = true) :
    checkLeaf grants method want = .error .notFound ↔ grants none .r = false := by
  cases method <;> cases want <;> simp only [checkLeaf] <;> split_ifs <;> simp_all

theorem hasPermOn_readable
    (h : hasPermOn caps comps method want = true) : hasPermOn caps comps method .r = true := by
  obtain ⟨c, hc, hm, hs, -⟩ := hasPermOn_iff.mp h
  exact hasPermOn_iff.mpr ⟨c, hc, hm, hs, c.perm.covers_r⟩

/-- **What passes the component check**: the path is not hidden, each proper front carries some
capability, and the leaf grants the request. -/
theorem checkPathOn_eq_ok : checkPathOn o (some caps) components method want = .ok () ↔
      ∃ comps, compRef o components = .ok comps ∧ hasAncestorROn caps comps = true ∧
        (method.isSome → hasPermOn caps comps none .r = true) ∧
        hasPermOn caps comps method want = true := by
  have hempty : ∀ comps, ¬hasPermOn [] comps method want = true := by simp [hasPermOn]
  simp only [checkPathOn, checkPathBy]
  split_ifs with hnil
  · simp [hnil.1, hempty]
  · cases hr : compRef o components with
    | error e => simp
    | ok comps =>
      by_cases ha : hasAncestorROn caps comps = true
      · simp [ha, checkLeaf_eq_ok]
      · simp [ha]

/-! ## Attenuation -/

/-- `is_subset`: every capability of the child is covered by one of the parent. -/
def isSubset (parent child : List Cap) : Bool :=
  child.all fun c => hasPerm parent c.path c.method c.perm

theorem isSubset_iff : isSubset parent child = true ↔ ∀ c ∈ child, ∃ p ∈ parent,
      p.path = c.path ∧ p.method = c.method ∧ p.perm.covers c.perm = true := by
  simp [isSubset, hasPerm_iff]

@[simp] theorem isSubset_refl (caps : List Cap) : isSubset caps caps = true :=
  isSubset_iff.mpr fun c hc => ⟨c, hc, rfl, rfl, c.perm.covers_self⟩

theorem isSubset_trans {a b c : List Cap} (h1 : isSubset a b = true) (h2 : isSubset b c = true) :
    isSubset a c = true := by
  rw [isSubset_iff] at *
  intro z hz
  obtain ⟨y, hy, hpath, hmethod, hperm⟩ := h2 z hz
  obtain ⟨x, hx, hpath', hmethod', hperm'⟩ := h1 y hy
  exact ⟨x, hx, hpath'.trans hpath, hmethod'.trans hmethod, Perm.covers_trans hperm' hperm⟩

theorem hasPermOn_of_isSubset (h : isSubset parent child = true)
    (hc : hasPermOn child comps method want = true) :
    hasPermOn parent comps method want = true := by
  obtain ⟨c, hmem, rfl, rfl, hcov⟩ := hasPermOn_iff.mp hc
  obtain ⟨p, hp, hpath, hmethod, hperm⟩ := isSubset_iff.mp h c hmem
  exact hasPermOn_iff.mpr ⟨p, hp, hmethod, congrArg segs hpath, Perm.covers_trans hperm hcov⟩

theorem hasAncestorROn_of_isSubset
    (h : isSubset parent child = true) (hc : hasAncestorROn child comps = true) :
    hasAncestorROn parent comps = true := by
  rw [hasAncestorROn_iff] at hc ⊢
  intro n hpos hlt
  obtain ⟨c, hmem, hsegs⟩ := hc n hpos hlt
  obtain ⟨p, hp, hpath, -⟩ := isSubset_iff.mp h c hmem
  exact ⟨p, hp, (congrArg segs hpath).trans hsegs⟩

/-- What a covered set passes, the covering set passes. -/
theorem checkPathOn_of_isSubset (h : isSubset parent child = true)
    (hc : checkPathOn o (some child) components method want = .ok ()) :
    checkPathOn o (some parent) components method want = .ok () := by
  obtain ⟨comps, hr, ha, hleaf, hw⟩ := checkPathOn_eq_ok.mp hc
  exact checkPathOn_eq_ok.mpr ⟨comps, hr, hasAncestorROn_of_isSubset h ha,
    fun hm => hasPermOn_of_isSubset h (hleaf hm), hasPermOn_of_isSubset h hw⟩

theorem isSubset_getLast (first : List Cap) (rest : List (List Cap))
    (h : (first :: rest).IsChain fun parent child => isSubset parent child = true) :
    isSubset first ((first :: rest).getLast (cons_ne_nil first rest)) = true := by
  induction rest generalizing first with
  | nil => simp
  | cons second rest ih =>
    obtain ⟨hstep, hrest⟩ := isChain_cons_cons.mp h
    exact isSubset_trans hstep (ih second hrest)

/-- **No descendant reaches what its ancestors cannot**: along a chain of capability sets each
covered by the one before, whatever passes for the last passes for the first. -/
theorem checkPathOn_of_isChain (o : Oracle) (first : List Cap) (rest : List (List Cap))
    (h : (first :: rest).IsChain fun parent child => isSubset parent child = true)
    (components : List Str) (method : Option Str) (want : Perm)
    (hok : checkPathOn o (some ((first :: rest).getLast (cons_ne_nil first rest)))
      components method want = .ok ()) :
    checkPathOn o (some first) components method want = .ok () :=
  checkPathOn_of_isSubset (isSubset_getLast first rest h) hok

/-- A task that may write `a` and read `a/b` hands down reading both. -/
theorem readOnlyChild_checkPathOn :
    checkPathOn none (some [⟨"a".toList, none, .rw⟩, ⟨"a/b".toList, none, .r⟩])
      ["a".toList, "b".toList] none .r = .ok () :=
  checkPathOn_of_isChain none [⟨"a".toList, none, .rw⟩, ⟨"a/b".toList, none, .r⟩]
    [[⟨"a".toList, none, .r⟩, ⟨"a/b".toList, none, .r⟩]] (by decide)
    ["a".toList, "b".toList] none .r (by decide)

/-! ## Where the checkers differ -/

theorem isComponent_of_compRef
    (hc : ∀ c ∈ components, IsComponent c) (h : compRef o components = .ok comps) :
    ∀ c ∈ comps, IsComponent c := by
  unfold compRef at h
  cases hcanon : canonicalizeProcAlias o components with
  | error e => simp [hcanon, Except.map] at h
  | ok canon =>
    rw [hcanon] at h
    cases h
    unfold canonicalizeProcAlias at hcanon
    split at hcanon
    · split_ifs at hcanon
      · split at hcanon
        · split_ifs at hcanon
          cases hcanon
          have hself : IsComponent selfName := ⟨by decide, by decide⟩
          simp only [Option.getD_some, mem_cons, forall_eq_or_imp] at hc ⊢
          exact ⟨hc.1, hself, hc.2.2⟩
        · cases hcanon
          exact hc
      · cases hcanon
        exact hc
    · cases hcanon
      exact hc

/-- A path the component walk gets through on a method capability: every proper front carries some
capability, one of them no capability of the object itself, and the leaf is readable. -/
def MethodBridge (caps : List Cap) (comps : List Str) : Prop :=
  (∀ n, 0 < n → n < comps.length → ∃ c ∈ caps, segs c.path = comps.take n) ∧
  (∃ n, 0 < n ∧ n < comps.length ∧ ∀ c ∈ caps, c.method = none → segs c.path ≠ comps.take n) ∧
  ∃ c ∈ caps, c.method = none ∧ segs c.path = comps

section

variable {caps : List Cap} {comps : List Str}

variable (hv : ∀ cap ∈ caps, validateCap cap = .ok ())
include hv

theorem hasAncestorR_iff_on (hc : ∀ c ∈ comps, IsComponent c) : hasAncestorR caps comps = true ↔
      ∀ n, 0 < n → n < comps.length → hasPermOn caps (comps.take n) none .r = true := by
  rw [hasAncestorR_iff]
  refine forall_congr' fun n => imp_congr_right fun _ => imp_congr_right fun _ => ?_
  rw [hasPerm_joinPath none .r hv fun c hcn => hc c (mem_of_mem_take hcn)]

omit hv in
theorem hasPermOn_none_r_iff :
    hasPermOn caps comps none .r = true ↔ ∃ c ∈ caps, c.method = none ∧ segs c.path = comps := by
  simp [hasPermOn_iff]

/-- The text walk is the stricter one. -/
theorem hasAncestorROn_of_hasAncestorR
    (hc : ∀ c ∈ comps, IsComponent c) (h : hasAncestorR caps comps = true) :
    hasAncestorROn caps comps = true := by
  rw [hasAncestorROn_iff]
  intro n hpos hlt
  obtain ⟨c, hmem, -, hsegs⟩ :=
    hasPermOn_none_r_iff.mp ((hasAncestorR_iff_on hv hc).mp h n hpos hlt)
  exact ⟨c, hmem, hsegs⟩

/-- A bridge is exactly a readable leaf behind fronts only the component walk accepts. -/
theorem methodBridge_iff (hc : ∀ c ∈ comps, IsComponent c) :
    MethodBridge caps comps ↔ hasAncestorROn caps comps = true ∧
      ¬hasAncestorR caps comps = true ∧ hasPermOn caps comps none .r = true := by
  rw [hasAncestorROn_iff, hasAncestorR_iff_on hv hc]
  simp only [hasPermOn_none_r_iff]
  push Not
  rfl

end

/-- **When the two checkers agree**: for validated capabilities and parsed components they give the
same answer exactly when the path, with a process alias resolved, is not a bridge. -/
theorem checkPath_eq_checkPathOn_iff (o : Oracle) (caps : List Cap)
    (hv : ∀ cap ∈ caps, validateCap cap = .ok ()) (path : Str) (p : ParsedPath)
    (hp : parse path = .ok p) (method : Option Str) (want : Perm) :
    checkPath o (some caps) p.components method want =
        checkPathOn o (some caps) p.components method want ↔
      ¬∃ comps, compRef o p.components = .ok comps ∧ MethodBridge caps comps := by
  have hcomp := isComponent_of_parse hp
  simp only [checkPath, checkPathOn, checkPathBy]
  split_ifs with hnil
  · obtain ⟨rfl, -⟩ := hnil
    simp [MethodBridge]
  · cases hr : compRef o p.components with
    | error e => simp
    | ok comps =>
      have hc := isComponent_of_compRef hcomp hr
      have hleaf : hasPerm caps (joinPath comps) = hasPermOn caps comps := by
        funext m w
        exact hasPerm_joinPath m w hv hc
      have hfound : checkLeaf (hasPermOn caps comps) method want = .error .notFound ↔ _ :=
        checkLeaf_eq_notFound hasPermOn_readable
      simp only [hleaf, Except.ok.injEq, exists_eq_left', methodBridge_iff hv hc]
      by_cases ha : hasAncestorR caps comps = true
      · simp [ha, hasAncestorROn_of_hasAncestorR hv hc ha]
      · by_cases hon : hasAncestorROn caps comps = true
        · simp [ha, eq_comm (a := Except.error UnispaceError.notFound), hfound]
        · simp [ha, hon]

/-- With `a` known by a method only, the text walk hides `a/b` and the component walk opens it. -/
theorem methodOnlyParent_checkPath_ne :
    let caps : List Cap := [⟨"a".toList, some "m".toList, .r⟩, ⟨"a/b".toList, none, .r⟩]
    (∀ cap ∈ caps, validateCap cap = .ok ()) ∧
      parse "/a/b".toList = .ok ⟨["a".toList, "b".toList], none⟩ ∧
      checkPath none (some caps) ["a".toList, "b".toList] none .r = .error .notFound ∧
      checkPathOn none (some caps) ["a".toList, "b".toList] none .r = .ok () := by
  decide

/-- …so there is a bridge; with a capability for `a` itself there is none, and they agree. -/
theorem methodOnlyParent_bridge : (∃ comps, compRef none ["a".toList, "b".toList] = .ok comps ∧
      MethodBridge [⟨"a".toList, some "m".toList, .r⟩, ⟨"a/b".toList, none, .r⟩] comps) ∧
    checkPath none (some [⟨"a".toList, none, .r⟩, ⟨"a/b".toList, none, .r⟩])
        ["a".toList, "b".toList] none .r =
      checkPathOn none (some [⟨"a".toList, none, .r⟩, ⟨"a/b".toList, none, .r⟩])
        ["a".toList, "b".toList] none .r := by
  constructor
  · by_contra hno
    exact absurd ((checkPath_eq_checkPathOn_iff none
      [⟨"a".toList, some "m".toList, .r⟩, ⟨"a/b".toList, none, .r⟩] (by decide) "/a/b".toList
      ⟨["a".toList, "b".toList], none⟩ (by decide) none .r).mpr hno) (by decide)
  · refine (checkPath_eq_checkPathOn_iff none [⟨"a".toList, none, .r⟩, ⟨"a/b".toList, none, .r⟩]
      (by decide) "/a/b".toList ⟨["a".toList, "b".toList], none⟩ (by decide) none .r).mpr ?_
    rintro ⟨comps, href, -, ⟨n, hpos, hlt, hno⟩, -⟩
    obtain rfl : ["a".toList, "b".toList] = comps := Except.ok.inj href
    obtain rfl : n = 1 := by
      simp only [List.length_cons, List.length_nil] at hlt
      omega
    exact hno ⟨"a".toList, none, .r⟩ (by simp) rfl (by decide)

end Bedrock
