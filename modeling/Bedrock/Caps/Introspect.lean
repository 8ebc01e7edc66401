import Bedrock.Caps.Check

/-!
# Caps/Introspect — listings and method tables, filtered by capability

A readable object shows the caller its children and its methods, filtered by what the caller may
read.  The filters re-implement the path matching of `checkPathOn`: the listing on components, with
an alias rule of its own under `/proc`, the method table on the joined text, with none:

    P      --filterListingOn--▸      {n | P/n readable} ?
    P:desc --filterMethodsByPerm--▸  {m | P:m readable} ?

`introspection_exact_iff` says for which capability sets the answer is yes.
-/

namespace Bedrock

inductive ObjectKind
  | file | dir | device | service
  deriving DecidableEq, Repr

structure ListingEntry where
  name : Str
  kind : ObjectKind
  deriving DecidableEq, Repr

/-- A method's name with the schemas of its input and output. -/
structure MethodDesc (σ : Type) where
  name : Str
  input : σ
  output : σ
  deriving DecidableEq, Repr

/-- What the `:desc` encoding reads from an object: an object has static or owned schemas. -/
structure Object (σ : Type) where
  kind : ObjectKind
  valueSchema : σ
  ownedValueSchema : Option σ
  methods : List (MethodDesc σ)
  ownedMethods : List (MethodDesc σ)
  deriving Repr

/-- …and what it writes down. -/
structure ObjectDesc (σ : Type) where
  kind : ObjectKind
  schema : σ
  methods : List (MethodDesc σ)
  deriving DecidableEq, Repr

/-! ## The filters -/

/-- Is the name a process the running task is an ancestor of? -/
def ancestorAllows (o : Oracle) (name : Str) : Bool :=
  match parsePid name, o with
  | some pid, some isAncestor => isAncestor pid
  | _, _ => false

/-- The last component a listed child is looked up by. -/
def wantedChild (o : Oracle) (dir : List Str) (name : Str) : Str :=
  if dir = [procName] ∧ isNumericPid name ∧ ancestorAllows o name then selfName else name

/-- `filter_listing_on`. -/
def filterListingOn (o : Oracle) (caps : List Cap) (dir : List Str) (names : List ListingEntry) :
    List ListingEntry :=
  names.filter fun e => caps.any fun c =>
    c.method = none && c.perm.covers .r && segs c.path = dir ++ [wantedChild o dir e.name]

/-- `filter_methods_by_perm`, and the same for owned descriptors. -/
def filterMethodsByPerm {σ : Type} (caps : List Cap) (leafPath : Str)
    (methods : List (MethodDesc σ)) : List (MethodDesc σ) :=
  methods.filter fun m => hasPerm caps leafPath (some m.name) .r

/-- The method table an object answers with: the owned one if there is any. -/
def Object.table {σ : Type} (obj : Object σ) : List (MethodDesc σ) :=
  if obj.ownedMethods ≠ [] then obj.ownedMethods else obj.methods

/-- `encode_object_desc_filtered`: the path is joined as it was parsed, aliases unresolved. -/
def encodeObjectDescFiltered {σ : Type} (obj : Object σ) (components : List Str)
    (caps : Option (List Cap)) : ObjectDesc σ where
  kind := obj.kind
  schema := obj.ownedValueSchema.getD obj.valueSchema
  methods :=
    match caps with
    | some caps => filterMethodsByPerm caps (joinPath components) obj.table
    | none => obj.table

/-! ## Aliases and children -/

section

variable {o : Oracle} {caps : List Cap} {dir comps : List Str} {name : Str}

/-- Below any directory but `/proc` itself, resolving an alias leaves the last component alone. -/
theorem compRef_concat (hdir : dir ≠ [procName]) (h : compRef o dir = .ok comps) (name : Str) :
    compRef o (dir ++ [name]) = .ok (comps ++ [name]) := by
  match dir with
  | [] =>
    cases h
    rfl
  | [c] =>
    cases h
    have hc : c ≠ procName := fun hc => hdir (by rw [hc])
    simp [compRef, canonicalizeProcAlias, hc, Except.map]
  | c0 :: c1 :: rest =>
    simp only [compRef, canonicalizeProcAlias, List.cons_append] at h ⊢
    split_ifs at h ⊢ with halias
    · revert h
      split
      · split_ifs
        · rintro ⟨⟩
          rfl
        · rintro ⟨⟩
      · rintro ⟨⟩
        rfl
    · cases h
      rfl

/-- A child of `/proc` is looked up by the same component in both places, unless it is the process
of somebody else: such a child is hidden, and the listing takes its name as it stands. -/
theorem compRef_proc (o : Oracle) (name : Str) :
    compRef o [procName, name] = .ok [procName, wantedChild o [procName] name] ∨
      compRef o [procName, name] = .error .notFound ∧ wantedChild o [procName] name = name := by
  by_cases hself : name = selfName
  · left
    simp [compRef, canonicalizeProcAlias, wantedChild, hself, Except.map]
  · simp only [compRef, canonicalizeProcAlias, wantedChild, ancestorAllows]
    cases hp : parsePid name with
    | none => simp [Except.map]
    | some pid =>
      have hnum : isNumericPid name = true := by
        by_contra hn
        simp [parsePid, hn] at hp
      cases o with
      | none => simp [Except.map]
      | some isAncestor => cases ha : isAncestor pid <;> simp [hself, hnum, ha, Except.map]

theorem wantedChild_of_ne (hdir : dir ≠ [procName]) : wantedChild o dir name = name := by
  simp [wantedChild, hdir]

/-- What may be listed below a readable path may be traversed. -/
theorem hasAncestorROn_concat (ha : hasAncestorROn caps comps = true)
    (hr : hasPermOn caps comps none .r = true) (name : Str) :
    hasAncestorROn caps (comps ++ [name]) = true := by
  rw [hasAncestorROn_iff] at ha ⊢
  intro n hpos hlt
  rw [List.length_append, List.length_singleton, Nat.lt_succ_iff] at hlt
  rw [List.take_append_of_le_length hlt]
  obtain hlt | rfl := hlt.lt_or_eq
  · exact ha n hpos hlt
  · obtain ⟨c, hc, -, hsegs⟩ := hasPermOn_none_r_iff.mp hr
    exact ⟨c, hc, by rw [hsegs, List.take_length]⟩

/-- The child a readable path resolves to is readable when the object's own capability is there. -/
theorem checkPathOn_child (ha : hasAncestorROn caps comps = true)
    (hr : hasPermOn caps comps none .r = true) {w : Str}
    (hchild : compRef o (dir ++ [name]) = .ok (comps ++ [w])) :
    checkPathOn o (some caps) (dir ++ [name]) none .r = .ok () ↔
      hasPermOn caps (comps ++ [w]) none .r = true := by
  simp [checkPathOn_eq_ok, hchild, hasAncestorROn_concat ha hr]

end

/-! ## Exactness -/

section

variable {σ : Type} {o : Oracle} {caps : List Cap} {dir comps : List Str}

/-- Introspection shows exactly what enforcement allows: the listed children are the readable ones,
and so are the methods of the description. -/
def IntrospectionExact (o : Oracle) (caps : List Cap) (dir : List Str) (names : List ListingEntry)
    (obj : Object σ) : Prop :=
  (∀ e ∈ names, e ∈ filterListingOn o caps dir names ↔
    checkPathOn o (some caps) (dir ++ [e.name]) none .r = .ok ()) ∧
  ∀ m ∈ obj.table, m ∈ (encodeObjectDescFiltered obj dir (some caps)).methods ↔
    checkPathOn o (some caps) dir (some m.name) .r = .ok ()

/-- The capabilities name aliased paths consistently.  No object capability spells out the hidden
process of somebody else in a listing of `/proc`; a child has one under the path as it was spelled
exactly when it has one under the resolved path; and likewise each method, its capability's path
being the joined text. -/
structure SpelledAlike (o : Oracle) (caps : List Cap) (dir : List Str) (names : List ListingEntry)
    (table : List (MethodDesc σ)) : Prop where
  hidden : dir = [procName] → ∀ e ∈ names, compRef o [procName, e.name] = .error .notFound →
    ¬∃ c ∈ caps, c.method = none ∧ segs c.path = [procName, e.name]
  children : ∀ comps, compRef o dir = .ok comps → ∀ e ∈ names,
    (∃ c ∈ caps, c.method = none ∧ segs c.path = dir ++ [e.name]) ↔
      ∃ c ∈ caps, c.method = none ∧ segs c.path = comps ++ [e.name]
  methods : ∀ comps, compRef o dir = .ok comps → ∀ m ∈ table,
    (∃ c ∈ caps, c.path = joinPath dir ∧ c.method = some m.name) ↔
      ∃ c ∈ caps, c.method = some m.name ∧ segs c.path = comps

theorem mem_filterListingOn {names : List ListingEntry} {e : ListingEntry} (he : e ∈ names) :
    e ∈ filterListingOn o caps dir names ↔
      hasPermOn caps (dir ++ [wantedChild o dir e.name]) none .r = true := by
  simp [filterListingOn, hasPermOn_none_r_iff, he]

theorem mem_desc_methods {obj : Object σ} {m : MethodDesc σ} (hm : m ∈ obj.table) :
    m ∈ (encodeObjectDescFiltered obj dir (some caps)).methods ↔
      ∃ c ∈ caps, c.path = joinPath dir ∧ c.method = some m.name := by
  simp [encodeObjectDescFiltered, filterMethodsByPerm, hasPerm_iff, hm]

/-- Of a readable object, a method is readable when the resolved path has a capability for it. -/
theorem checkPathOn_method (hdir : compRef o dir = .ok comps)
    (ha : hasAncestorROn caps comps = true) (hr : hasPermOn caps comps none .r = true) (m : Str) :
    checkPathOn o (some caps) dir (some m) .r = .ok () ↔
      ∃ c ∈ caps, c.method = some m ∧ segs c.path = comps := by
  have hm : hasPermOn caps comps (some m) .r = true ↔
      ∃ c ∈ caps, c.method = some m ∧ segs c.path = comps := by simp [hasPermOn_iff]
  simp [checkPathOn_eq_ok, hdir, ha, hr, hm]

/-- A child of `/proc` is shown as it is enforced unless it is hidden and spelled out. -/
theorem listed_proc_iff (ha : hasAncestorROn caps [procName] = true)
    (hr : hasPermOn caps [procName] none .r = true) (name : Str) :
    ((hasPermOn caps [procName, wantedChild o [procName] name] none .r = true) ↔
        checkPathOn o (some caps) [procName, name] none .r = .ok ()) ↔
      (compRef o [procName, name] = .error .notFound →
        ¬∃ c ∈ caps, c.method = none ∧ segs c.path = [procName, name]) := by
  obtain hok | ⟨herr, hname⟩ := compRef_proc o name
  · have hchild : checkPathOn o (some caps) [procName, name] none .r = .ok () ↔ _ :=
      checkPathOn_child ha hr (show compRef o ([procName] ++ [name]) = _ from hok)
    simp [hok, hchild]
  · rw [hname, ← hasPermOn_none_r_iff]
    simp [checkPathOn_eq_ok, herr]

/-- The listing's part of exactness, for a readable directory. -/
theorem listing_exact_iff (hdir : compRef o dir = .ok comps)
    (ha : hasAncestorROn caps comps = true) (hr : hasPermOn caps comps none .r = true)
    (names : List ListingEntry) : (∀ e ∈ names, e ∈ filterListingOn o caps dir names ↔
        checkPathOn o (some caps) (dir ++ [e.name]) none .r = .ok ()) ↔
      (dir = [procName] → ∀ e ∈ names, compRef o [procName, e.name] = .error .notFound →
        ¬∃ c ∈ caps, c.method = none ∧ segs c.path = [procName, e.name]) ∧
      ∀ e ∈ names, (∃ c ∈ caps, c.method = none ∧ segs c.path = dir ++ [e.name]) ↔
        ∃ c ∈ caps, c.method = none ∧ segs c.path = comps ++ [e.name] := by
  by_cases hproc : dir = [procName]
  · subst hproc
    obtain rfl : [procName] = comps := Except.ok.inj hdir
    simp only [true_imp_iff, implies_true, and_true]
    refine forall₂_congr fun e he => ?_
    rw [mem_filterListingOn he]
    exact listed_proc_iff ha hr e.name
  · simp only [hproc, false_imp_iff, true_and]
    refine forall₂_congr fun e he => ?_
    rw [mem_filterListingOn he, wantedChild_of_ne hproc, ← hasPermOn_none_r_iff,
      ← hasPermOn_none_r_iff, checkPathOn_child ha hr (compRef_concat hproc hdir e.name)]

/-- …and the method table's. -/
theorem desc_exact_iff (hdir : compRef o dir = .ok comps)
    (ha : hasAncestorROn caps comps = true) (hr : hasPermOn caps comps none .r = true)
    (obj : Object σ) :
    (∀ m ∈ obj.table, m ∈ (encodeObjectDescFiltered obj dir (some caps)).methods ↔
        checkPathOn o (some caps) dir (some m.name) .r = .ok ()) ↔
      ∀ m ∈ obj.table, (∃ c ∈ caps, c.path = joinPath dir ∧ c.method = some m.name) ↔
        ∃ c ∈ caps, c.method = some m.name ∧ segs c.path = comps := by
  refine forall₂_congr fun m hm => ?_
  rw [mem_desc_methods hm, checkPathOn_method hdir ha hr]

/-- **Introspection is exact precisely for capabilities that spell aliased paths alike**, for every
readable object, listing and method table. -/
theorem introspection_exact_iff (o : Oracle) (caps : List Cap) (dir : List Str)
    (names : List ListingEntry) (obj : Object σ)
    (hread : checkPathOn o (some caps) dir none .r = .ok ()) :
    IntrospectionExact o caps dir names obj ↔ SpelledAlike o caps dir names obj.table := by
  obtain ⟨comps, hdir, ha, -, hr⟩ := checkPathOn_eq_ok.mp hread
  rw [IntrospectionExact, desc_exact_iff hdir ha hr, listing_exact_iff hdir ha hr]
  constructor
  · rintro ⟨⟨hhidden, hchildren⟩, hm⟩
    refine ⟨hhidden, fun comps' h' => ?_, fun comps' h' => ?_⟩
    · obtain rfl := Except.ok.inj (hdir.symm.trans h')
      exact hchildren
    · obtain rfl := Except.ok.inj (hdir.symm.trans h')
      exact hm
  · rintro ⟨hhidden, hchildren, hm⟩
    exact ⟨⟨hhidden, hchildren comps hdir⟩, hm comps hdir⟩

/-- For validated capabilities and a path that is no alias, all that can be spelled in two ways is a
hidden process in a listing of `/proc`. -/
theorem spelledAlike_iff_of_compRef {names : List ListingEntry} {table : List (MethodDesc σ)}
    (hv : ∀ cap ∈ caps, validateCap cap = .ok ()) (hc : ∀ c ∈ dir, IsComponent c)
    (hdir : compRef o dir = .ok dir) : SpelledAlike o caps dir names table ↔
      (dir = [procName] → ∀ e ∈ names, compRef o [procName, e.name] = .error .notFound →
        ¬∃ c ∈ caps, c.method = none ∧ segs c.path = [procName, e.name]) := by
  refine ⟨fun h => h.hidden, fun h => ⟨h, fun comps hcomps e _ => ?_, fun comps hcomps m _ => ?_⟩⟩
  · obtain rfl := Except.ok.inj (hdir.symm.trans hcomps)
    exact Iff.rfl
  · obtain rfl := Except.ok.inj (hdir.symm.trans hcomps)
    refine exists_congr fun cap => and_congr_right fun hcap => ?_
    rw [path_eq_joinPath_iff (hv cap hcap) hc, and_comm]

/-- To the ancestor of process 7 the directory `/proc/7` is readable as `/proc/self`, but its
listing leaves out the readable child `status`. -/
theorem aliasedDir_not_exact :
    let caps : List Cap := [⟨procName, none, .r⟩, ⟨"proc/self".toList, none, .r⟩,
      ⟨"proc/self/status".toList, none, .r⟩]
    checkPathOn (some (· == 7)) (some caps) [procName, "7".toList] none .r = .ok () ∧
      checkPathOn (some (· == 7)) (some caps) [procName, "7".toList, "status".toList] none .r =
        .ok () ∧
      filterListingOn (some (· == 7)) caps [procName, "7".toList] [⟨"status".toList, .file⟩] = [] ∧
      ¬IntrospectionExact (some (· == 7)) caps [procName, "7".toList] [⟨"status".toList, .file⟩]
        (⟨.dir, (), none, [], []⟩ : Object Unit) := by
  refine ⟨by decide, by decide, by decide, fun h => ?_⟩
  exact absurd ((h.1 _ List.mem_cons_self).mpr (by decide)) (by decide)

/-- Below an ordinary directory a readable child is shown and an unreadable one is not. -/
theorem plainDir_exact :
    IntrospectionExact none [⟨"a".toList, none, .r⟩, ⟨"a/b".toList, none, .r⟩] ["a".toList]
      [⟨"b".toList, .file⟩, ⟨"c".toList, .file⟩] (⟨.dir, (), none, [], []⟩ : Object Unit) := by
  refine (introspection_exact_iff none [⟨"a".toList, none, .r⟩, ⟨"a/b".toList, none, .r⟩]
    ["a".toList] [⟨"b".toList, .file⟩, ⟨"c".toList, .file⟩] ⟨.dir, (), none, [], []⟩
    (by decide)).mpr ⟨fun h => absurd h (by decide), fun comps h => ?_, fun comps h m hm => ?_⟩
  · obtain rfl : ["a".toList] = comps := Except.ok.inj h
    simp
  · simp [Object.table] at hm

end

end Bedrock
