import Mathlib.Tactic

/-!
# Lib/Radix — radix trees stored in a memory of tables

A memory holds tables, `mem f i` is entry `i` of the table in frame `f`, and `next` says which
table an entry links to, if any.  A path of indices is walked from a root:

    r --i₀--▸ f₁ --i₁--▸ f₂ --i₂--▸ f₃          walk mem r [i₀, i₁, i₂] = some f₃

Several trees may share the memory.  They form a `Forest` when no table is reached along two
different walks, up to the depth `n` and among the paths that begin with a `low` index.  In a
forest an update changes only the walks that go through it (`Forest.walk_write`); the rest of the
module says which updates keep a forest a forest.
-/

namespace Bedrock.Radix

open List Nat

variable {F I E : Type*} {next : E → Option F} {mem mem' : F → I → E}

/-! ## Walks -/

/-- The table reached from `f` along a path. -/
def walk (next : E → Option F) (mem : F → I → E) : F → List I → Option F
  | f, [] => some f
  | f, i :: p => (next (mem f i)).bind fun g => walk next mem g p

@[simp] theorem walk_nil (f : F) : walk next mem f [] = some f := rfl

theorem walk_cons (f : F) (i : I) (p : List I) :
    walk next mem f (i :: p) = (next (mem f i)).bind fun g => walk next mem g p := rfl

theorem walk_append (f : F) (p q : List I) :
    walk next mem f (p ++ q) = (walk next mem f p).bind fun g => walk next mem g q := by
  induction p generalizing f with
  | nil => rfl
  | cons i p ih => simp only [cons_append, walk_cons, ih, Option.bind_assoc]

theorem walk_concat (f : F) (p : List I) (i : I) :
    walk next mem f (p ++ [i]) = (walk next mem f p).bind fun g => next (mem g i) := by
  rw [walk_append]
  exact Option.bind_congr fun g _ => by simp [walk_cons]

variable {f g : F} {p : List I} {i : I} {e : E}

/-- Every prefix of a walk that arrives is a walk that arrives. -/
theorem walk_of_append {q : List I} (h : walk next mem f (p ++ q) = some g) :
    ∃ f', walk next mem f p = some f' ∧ walk next mem f' q = some g := by
  rwa [walk_append, Option.bind_eq_some_iff] at h

/-- **A walk depends on nothing but the links it takes.** -/
theorem walk_congr
    (h : ∀ q i g, q ++ [i] <+: p → walk next mem f q = some g → next (mem' g i) = next (mem g i)) :
    walk next mem' f p = walk next mem f p := by
  induction p generalizing f with
  | nil => rfl
  | cons i p ih =>
    rw [walk_cons, h [] i f (by simp) rfl]
    refine Option.bind_congr fun g hg => ih fun q j g' hq hw => h (i :: q) j g' ?_ ?_
    · simpa using hq
    · rw [walk_cons, hg, Option.bind_some, hw]

/-- Memories whose entries link alike have the same walks. -/
theorem walk_eq_of_next (h : ∀ f i, next (mem' f i) = next (mem f i)) (f : F) (p : List I) :
    walk next mem' f p = walk next mem f p :=
  walk_congr fun _ i g _ _ => h g i

/-! ## Lookups -/

/-- The entry at which a path ends: the first one that does not link, with the number of indices
left, or the last one. -/
def lookup (next : E → Option F) (mem : F → I → E) : F → List I → Option (ℕ × E)
  | _, [] => none
  | f, [i] => some (0, mem f i)
  | f, i :: j :: p =>
    match next (mem f i) with
    | none => some (p.length + 1, mem f i)
    | some g => lookup next mem g (j :: p)

@[simp] theorem lookup_singleton (f : F) (i : I) : lookup next mem f [i] = some (0, mem f i) := rfl

theorem lookup_of_next (h : next (mem f i) = some g) (j : I) (p : List I) :
    lookup next mem f (i :: j :: p) = lookup next mem g (j :: p) := by rw [lookup, h]

theorem lookup_of_none (h : next (mem f i) = none) (p : List I) :
    lookup next mem f (i :: p) = some (p.length, mem f i) := by
  cases p with
  | nil => rfl
  | cons j p => rw [lookup, h, length_cons]

/-- A lookup goes on where a walk arrives. -/
theorem lookup_append {q : List I} (h : walk next mem f q = some g) (i : I)
    (p : List I) : lookup next mem f (q ++ i :: p) = lookup next mem g (i :: p) := by
  induction q generalizing f with
  | nil =>
    obtain rfl : f = g := by simpa using h
    rfl
  | cons j q ih =>
    rw [walk_cons, Option.bind_eq_some_iff] at h
    obtain ⟨f', hj, hq⟩ := h
    rw [← ih hq]
    cases q with
    | nil | cons k q => exact lookup_of_next hj _ _

/-- What a lookup finds is an entry of a table on the way. -/
theorem lookup_mem (next : E → Option F) (mem : F → I → E) (f : F) (i : I) (p : List I) : ∃ q j g,
    q ++ [j] <+: i :: p ∧ walk next mem f q = some g ∧
      lookup next mem f (i :: p) = some (p.length - q.length, mem g j) := by
  induction p generalizing f i with
  | nil => exact ⟨[], i, f, by simp, rfl, rfl⟩
  | cons j p ih =>
    cases hn : next (mem f i) with
    | none => exact ⟨[], i, f, by simp, rfl, lookup_of_none hn _⟩
    | some g =>
      obtain ⟨q, k, g', hq, hw, hl⟩ := ih g j
      refine ⟨i :: q, k, g', by simpa using hq, ?_, ?_⟩
      · rw [walk_cons, hn, Option.bind_some, hw]
      · rw [lookup_of_next hn, hl]
        simp

/-- **A lookup depends on nothing but the entries it reads**, up to a relation that links
respect. -/
theorem lookup_congr {R : E → E → Prop} (hR : ∀ ⦃e e'⦄, R e e' → next e' = next e)
    (h : ∀ q k g, q ++ [k] <+: i :: p → walk next mem f q = some g → R (mem g k) (mem' g k)) :
    ∃ k e e', lookup next mem f (i :: p) = some (k, e) ∧
      lookup next mem' f (i :: p) = some (k, e') ∧ R e e' := by
  have hi : R (mem f i) (mem' f i) := h [] i f (by simp) rfl
  induction p generalizing f i with
  | nil => exact ⟨0, _, _, rfl, rfl, hi⟩
  | cons j p ih =>
    cases hn : next (mem f i) with
    | none =>
      exact ⟨_, _, _, lookup_of_none hn _, lookup_of_none ((hR hi).trans hn) _, hi⟩
    | some g =>
      rw [lookup_of_next hn, lookup_of_next ((hR hi).trans hn)]
      have hstep : ∀ q k g', q ++ [k] <+: j :: p → walk next mem g q = some g' →
          R (mem g' k) (mem' g' k) := fun q k g' hq hw => by
        refine h (i :: q) k g' (by simpa using hq) ?_
        rw [walk_cons, hn, Option.bind_some, hw]
      exact ih hstep (hstep [] j g (by simp) rfl)

/-- …so memories that agree on the entries read look up the same. -/
theorem lookup_eq (h : ∀ q k g, q ++ [k] <+: p → walk next mem f q = some g → mem' g k = mem g k) :
    lookup next mem' f p = lookup next mem f p := by
  cases p with
  | nil => rfl
  | cons i p =>
    obtain ⟨k, e, e', h1, h2, rfl⟩ := lookup_congr (R := Eq) (fun _ _ he => by rw [he])
      fun q k g hq hw => (h q k g hq hw).symm
    rw [h1, h2]

/-- **The levels left when a lookup ends** are the tables missing on its way. -/
theorem lookup_levels (next : E → Option F) (mem : F → I → E) (f : F) (p : List I) (j : I) :
    ∃ e, lookup next mem f (p ++ [j]) =
      some ((p.inits.filter fun q => (walk next mem f q).isNone).length, e) := by
  induction p generalizing f with
  | nil => exact ⟨mem f j, rfl⟩
  | cons i p ih =>
    rw [inits_cons, filter_cons_of_neg (by simp), filter_map, cons_append]
    cases hn : next (mem f i) with
    | none =>
      refine ⟨mem f i, ?_⟩
      rw [lookup_of_none hn, filter_eq_self.mpr fun q _ => by simp [walk_cons, hn]]
      simp
    | some g =>
      obtain ⟨e, he⟩ := ih g
      refine ⟨e, ?_⟩
      obtain ⟨k, s, hs⟩ := exists_cons_of_ne_nil (show p ++ [j] ≠ [] by simp)
      rw [hs, lookup_of_next hn, ← hs, he]
      simp [Function.comp_def, walk_cons, hn]

/-- …so a lookup that gets to the last level has walked the way there. -/
theorem walk_isSome_of_lookup {j : I}
    (h : lookup next mem f (p ++ [j]) = some (0, e)) : (walk next mem f p).isSome := by
  obtain ⟨e', he⟩ := lookup_levels next mem f p j
  have hnil : (p.inits.filter fun q => (walk next mem f q).isNone) = [] := by
    refine eq_nil_of_length_eq_zero ?_
    rw [he, Option.some.injEq, Prod.mk.injEq] at h
    exact h.1
  have := filter_eq_nil_iff.mp hnil p (by simp)
  simpa [Option.isSome_iff_ne_none] using this

/-- A lookup that ends before the last level ends at an entry that does not link. -/
theorem next_of_lookup {k : ℕ} (h : lookup next mem f p = some (k + 1, e)) : next e = none := by
  induction p generalizing f with
  | nil => simp [lookup] at h
  | cons i p ih =>
    cases p with
    | nil => simp at h
    | cons j p =>
      cases hn : next (mem f i) with
      | none =>
        rw [lookup_of_none hn, Option.some.injEq, Prod.mk.injEq] at h
        rw [← h.2, hn]
      | some g =>
        rw [lookup_of_next hn] at h
        exact ih h

/-- …and so does that of every longer path. -/
theorem lookup_concat_of_succ {k : ℕ} (h : lookup next mem f p = some (k + 1, e)) (j : I) :
    lookup next mem f (p ++ [j]) = some (k + 2, e) := by
  induction p generalizing f with
  | nil => simp [lookup] at h
  | cons i p ih =>
    cases p with
    | nil => simp at h
    | cons i' p =>
      cases hn : next (mem f i) with
      | none =>
        rw [lookup_of_none hn, Option.some.injEq, Prod.mk.injEq] at h
        rw [cons_append, lookup_of_none hn, length_append, h.1, h.2]
        rfl
      | some g =>
        rw [lookup_of_next hn] at h
        rw [cons_append, cons_append, lookup_of_next hn]
        exact ih h

/-! ## Missing tables -/

theorem nodup_inits : ∀ p : List I, p.inits.Nodup
  | [] => by simp
  | i :: p => by
    rw [inits_cons, nodup_cons]
    exact ⟨by simp, (nodup_inits p).map (cons_injective)⟩

section Missing

variable [DecidableEq I]

/-- The tables missing on the ways `ps` from `r`. -/
def missing (next : E → Option F) (mem : F → I → E) (r : F) (ps : List (List I)) :
    Finset (List I) :=
  (ps.flatMap List.inits).toFinset.filter fun q => (walk next mem r q).isNone

theorem mem_missing {r : F} {ps : List (List I)} {q : List I} :
    q ∈ missing next mem r ps ↔ (∃ p ∈ ps, q <+: p) ∧ walk next mem r q = none := by
  simp [missing]

/-- The levels left on one way are the tables missing on it. -/
theorem lookup_missing (next : E → Option F) (mem : F → I → E) (f : F) (p : List I) (j : I) :
    ∃ e, lookup next mem f (p ++ [j]) = some ((missing next mem f [p]).card, e) := by
  obtain ⟨e, he⟩ := lookup_levels next mem f p j
  refine ⟨e, he.trans ?_⟩
  rw [missing, flatMap_singleton, ← toFinset_filter, toFinset_card_of_nodup]
  exact (nodup_inits p).filter _

/-- **When the tables of one way have been made, those of the others are still missing.** -/
theorem card_missing_cons {r : F} {p : List I} {ps : List (List I)}
    (h : ∀ p' ∈ ps, ∀ q, q <+: p' → ((walk next mem' r q).isSome ↔
      (walk next mem r q).isSome ∨ q <+: p)) : (missing next mem r (p :: ps)).card =
      (missing next mem r [p]).card + (missing next mem' r ps).card := by
  have hwalk : ∀ p' ∈ ps, ∀ q, q <+: p' → (walk next mem' r q = none ↔
      walk next mem r q = none ∧ ¬ q <+: p) := fun p' hp' q hq => by
    have := h p' hp' q hq
    rw [Option.isSome_iff_ne_none, Option.isSome_iff_ne_none] at this
    rw [← not_iff_not, ← ne_eq, this, not_and_not_right, or_iff_not_imp_left, not_not]
  have hrest : missing next mem' r ps = missing next mem r ps \ missing next mem r [p] := by
    ext q
    simp only [Finset.mem_sdiff, mem_missing, mem_singleton, exists_eq_left]
    constructor
    · rintro ⟨⟨p', hp', hq⟩, hn⟩
      obtain ⟨hold, hpre⟩ := (hwalk p' hp' q hq).mp hn
      exact ⟨⟨⟨p', hp', hq⟩, hold⟩, fun hc => hpre hc.1⟩
    · rintro ⟨⟨⟨p', hp', hq⟩, hn⟩, hne⟩
      exact ⟨⟨p', hp', hq⟩, (hwalk p' hp' q hq).mpr ⟨hn, fun hpre => hne ⟨hpre, hn⟩⟩⟩
  have hall : missing next mem r (p :: ps) = missing next mem r ps ∪ missing next mem r [p] := by
    ext q
    simp only [Finset.mem_union, mem_missing, mem_cons, not_mem_nil, or_false,
      exists_eq_left, exists_eq_or_imp]
    rw [or_and_right, or_comm]
  rw [hall, hrest, add_comm, Finset.card_sdiff_add_card]

end Missing
/-! ## Updates -/

section Update

variable [DecidableEq F]

/-- Table `f` becomes `t`. -/
def fill (mem : F → I → E) (f : F) (t : I → E) : F → I → E :=
  fun g => if g = f then t else mem g

@[simp] theorem fill_self (f : F) (t : I → E) : fill mem f t f = t := if_pos rfl

theorem fill_of_ne {f g : F} (t : I → E) (h : g ≠ f) : fill mem f t g = mem g := if_neg h

variable [DecidableEq I]

/-- Entry `i` of table `f` becomes `e`. -/
def write (mem : F → I → E) (f : F) (i : I) (e : E) : F → I → E :=
  fun g j => if g = f ∧ j = i then e else mem g j

@[simp] theorem write_self (f : F) (i : I) (e : E) : write mem f i e f i = e := by simp [write]

theorem write_of_ne {f g : F} {i j : I} (e : E) (h : ¬(g = f ∧ j = i)) :
    write mem f i e g j = mem g j := if_neg h

theorem write_of_frame_ne {f g : F} (h : g ≠ f) (i : I) (e : E) : write mem f i e g = mem g :=
  funext fun _ => write_of_ne e fun hg => h hg.1

end Update

/-! ## Forests -/

/-- The path is empty or begins with a low index. -/
def Dom (low : I → Prop) (p : List I) : Prop := ∀ i ∈ p.head?, low i

theorem Dom.nil {low : I → Prop} : Dom low [] := by simp [Dom]

theorem Dom.anti {low : I → Prop} {p q : List I} (h : Dom low q) (hp : p <+: q) : Dom low p := by
  obtain ⟨s, rfl⟩ := hp
  cases p with
  | nil => exact Dom.nil
  | cons i p => simpa [Dom] using h

theorem Dom.concat {low : I → Prop} {p : List I} (h : Dom low p) (hp : p ≠ []) (i : I) :
    Dom low (p ++ [i]) := by
  cases p with
  | nil => exact absurd rfl hp
  | cons j p => simpa [Dom] using h

/-- Table `f` is reached from root `r` along `p`, a path of the forest. -/
structure At (next : E → Option F) (mem : F → I → E) (roots : Set F) (low : I → Prop) (n : ℕ)
    (r : F) (p : List I) (f : F) : Prop where
  root : r ∈ roots
  dom : Dom low p
  length_le : p.length ≤ n
  walk_eq : walk next mem r p = some f

/-- **No table is reached along two walks.** -/
def Forest (next : E → Option F) (mem : F → I → E) (roots : Set F) (low : I → Prop) (n : ℕ) :
    Prop :=
  ∀ ⦃r r' p p' f⦄, At next mem roots low n r p f → At next mem roots low n r' p' f →
    r = r' ∧ p = p'

/-- No walk of the forest arrives at `g`. -/
def Unreached (next : E → Option F) (mem : F → I → E) (roots : Set F) (low : I → Prop) (n : ℕ)
    (g : F) : Prop :=
  ∀ ⦃r p⦄, ¬ At next mem roots low n r p g

section Forest

variable {roots : Set F} {low : I → Prop} {n : ℕ} {r r' f g : F} {p p' : List I} {i : I} {e : E}

theorem At.nil (h : r ∈ roots) : At next mem roots low n r [] r :=
  ⟨h, Dom.nil, zero_le _, rfl⟩

variable {q : List I} {j : I} {t : I → E}

theorem At.ancestor (h : At next mem roots low n r p f) (hq : q <+: p) :
    ∃ g, At next mem roots low n r q g := by
  obtain ⟨s, rfl⟩ := hq
  obtain ⟨g, hg, -⟩ := walk_of_append h.walk_eq
  exact ⟨g, h.root, h.dom.anti ⟨s, rfl⟩, le_trans (by simp) h.length_le, hg⟩

theorem At.concat (h : At next mem roots low n r p f) (hd : Dom low (p ++ [i]))
    (hn : p.length < n) (hi : next (mem f i) = some g) : At next mem roots low n r (p ++ [i]) g :=
  ⟨h.root, hd, by simpa using hn, by rw [walk_concat, h.walk_eq]; exact hi⟩

/-- The walks of two memories agree on the forest's paths. -/
theorem At.congr (hw : walk next mem' r p = walk next mem r p) :
    At next mem' roots low n r p f ↔ At next mem roots low n r p f :=
  ⟨fun h => ⟨h.root, h.dom, h.length_le, hw ▸ h.walk_eq⟩,
    fun h => ⟨h.root, h.dom, h.length_le, hw ▸ h.walk_eq⟩⟩

/-- The lookup of a path through an entry that does not link ends there. -/
theorem At.lookup_self (ha : At next mem roots low n r p f) (hn : next (mem f i) = none)
    (s : List I) : lookup next mem r (p ++ i :: s) = some (s.length, mem f i) := by
  rw [lookup_append ha.walk_eq, lookup_of_none hn]

theorem Forest.of_next (hf : Forest next mem roots low n)
    (h : ∀ f i, next (mem' f i) = next (mem f i)) : Forest next mem' roots low n :=
  fun _ _ _ _ _ h1 h2 =>
    hf ((At.congr (walk_eq_of_next h _ _)).mp h1) ((At.congr (walk_eq_of_next h _ _)).mp h2)

/-- A memory in which fewer walks arrive is still a forest. -/
theorem Forest.of_le (hf : Forest next mem roots low n)
    (h : ∀ ⦃r p f⦄, At next mem' roots low n r p f → At next mem roots low n r p f) :
    Forest next mem' roots low n :=
  fun _ _ _ _ _ h1 h2 => hf (h h1) (h h2)

theorem length_le_of_concat (hq : q ++ [j] <+: p') (hl : p'.length ≤ n + 1) : q.length ≤ n := by
  have := hq.length_le
  simp only [length_append, length_singleton] at this
  omega

/-- No walk of the forest reads a table that none arrives at. -/
theorem Unreached.not_read (hg : Unreached next mem roots low n g) (hr : r' ∈ roots)
    (hd : Dom low p') (hl : p'.length ≤ n + 1) (hq : q ++ [j] <+: p')
    (hw : walk next mem r' q = some f) : f ≠ g := by
  rintro rfl
  exact hg ⟨hr, hd.anti ((prefix_append q [j]).trans hq), length_le_of_concat hq hl, hw⟩

/-- A path reads entry `i` of the table at `p` only if it goes through it. -/
theorem Forest.not_read (hf : Forest next mem roots low n) (ha : At next mem roots low n r p f)
    (hr : r' ∈ roots) (hd : Dom low p') (hl : p'.length ≤ n + 1)
    (hne : ¬(r' = r ∧ p ++ [i] <+: p')) (hq : q ++ [j] <+: p')
    (hw : walk next mem r' q = some g) : ¬(g = f ∧ j = i) := by
  rintro ⟨rfl, rfl⟩
  have hqp : q <+: p' := (prefix_append q [j]).trans hq
  obtain ⟨rfl, rfl⟩ := hf ha ⟨hr, hd.anti hqp, length_le_of_concat hq hl, hw⟩
  exact hne ⟨rfl, hq⟩

/-- **A new content for a table that no walk reaches changes no walk**… -/
theorem walk_fill [DecidableEq F] (hg : Unreached next mem roots low n g) (hr : r' ∈ roots)
    (hd : Dom low p') (hl : p'.length ≤ n + 1) (t : I → E) :
    walk next (fill mem g t) r' p' = walk next mem r' p' :=
  walk_congr fun _ _ _ hq hw => by rw [fill_of_ne _ (hg.not_read hr hd hl hq hw)]

/-- …and no lookup. -/
theorem lookup_fill [DecidableEq F] (hg : Unreached next mem roots low n g) (hr : r' ∈ roots)
    (hd : Dom low p') (hl : p'.length ≤ n + 1) (t : I → E) :
    lookup next (fill mem g t) r' p' = lookup next mem r' p' :=
  lookup_eq fun _ _ _ hq hw => by rw [fill_of_ne _ (hg.not_read hr hd hl hq hw)]

theorem Forest.filled [DecidableEq F] (hf : Forest next mem roots low n)
    (hg : Unreached next mem roots low n g) (t : I → E) : Forest next (fill mem g t) roots low n :=
  hf.of_le fun _ _ _ h =>
    (At.congr (walk_fill hg h.root h.dom (le_succ_of_le h.length_le) t)).mp h

theorem At.filled [DecidableEq F] (ha : At next mem roots low n r p f)
    (hg : Unreached next mem roots low n g) (t : I → E) :
    At next (fill mem g t) roots low n r p f :=
  (At.congr (walk_fill hg ha.root ha.dom (le_succ_of_le ha.length_le) t)).mpr ha

variable [DecidableEq F] [DecidableEq I]

/-- Filling another table and writing an entry commute. -/
theorem fill_write_comm (hfg : f ≠ g) (mem : F → I → E) (i : I) (e : E) (t : I → E) :
    fill (write mem f i e) g t = write (fill mem g t) f i e := by
  funext h j
  obtain rfl | hh := eq_or_ne h g
  · simp [write, hfg.symm]
  · simp [fill, write, hh]

variable (hf : Forest next mem roots low n) (ha : At next mem roots low n r p f)
include hf ha

/-- **A write to a table leaves alone every walk that does not go through the entry written**… -/
theorem Forest.walk_write (hr : r' ∈ roots) (hd : Dom low p') (hl : p'.length ≤ n + 1)
    (hne : ¬(r' = r ∧ p ++ [i] <+: p')) (e : E) :
    walk next (write mem f i e) r' p' = walk next mem r' p' :=
  walk_congr fun _ _ _ hq hw => by rw [write_of_ne _ (hf.not_read ha hr hd hl hne hq hw)]

/-- …and every such lookup. -/
theorem Forest.lookup_write (hr : r' ∈ roots) (hd : Dom low p') (hl : p'.length ≤ n + 1)
    (hne : ¬(r' = r ∧ p ++ [i] <+: p')) (e : E) :
    lookup next (write mem f i e) r' p' = lookup next mem r' p' :=
  lookup_eq fun _ _ _ hq hw => write_of_ne _ (hf.not_read ha hr hd hl hne hq hw)

/-! ## Links -/

theorem Forest.walk_write_self (e : E) : walk next (write mem f i e) r p = some f :=
  (hf.walk_write ha ha.root ha.dom (le_succ_of_le ha.length_le)
    (fun h => by simpa using h.2.length_le) e).trans ha.walk_eq

/-- The lookup of a path through an entry that was written reads what was written. -/
theorem Forest.lookup_write_self (he : next e = none) (s : List I) :
    lookup next (write mem f i e) r (p ++ i :: s) = some (s.length, e) := by
  rw [lookup_append (hf.walk_write_self ha e), lookup_of_none (by rw [write_self]; exact he),
    write_self]

/-- An entry that links on, and to the same table as before, is not what a longer lookup finds. -/
theorem Forest.lookup_relink (hi : next (mem f i) = some g) (he : next e = some g)
    (hr : r' ∈ roots) (hd : Dom low p') (hl : p'.length ≤ n + 1) (hp : p.length + 1 < p'.length) :
    lookup next (write mem f i e) r' p' = lookup next mem r' p' := by
  by_cases hpre : r' = r ∧ p ++ [i] <+: p'
  · obtain ⟨rfl, s, rfl⟩ := hpre
    match s with
    | [] => simp at hp
    | j :: s =>
      have hnew : walk next (write mem f i e) r' (p ++ [i]) = some g := by
        rw [walk_concat, hf.walk_write_self ha e, Option.bind_some, write_self, he]
      have hold : walk next mem r' (p ++ [i]) = some g := by
        rw [walk_concat, ha.walk_eq, Option.bind_some, hi]
      rw [lookup_append hnew, lookup_append hold]
      refine lookup_eq fun q k h hq hw => write_of_ne _ ?_
      -- below the link the table `f` does not come again
      rintro ⟨rfl, rfl⟩
      have hq' : p ++ [k] ++ q ++ [k] <+: p ++ [k] ++ j :: s := by
        rw [append_assoc (p ++ [k])]
        exact (prefix_append_right_inj _).mpr hq
      have hat : At next mem roots low n r' (p ++ [k] ++ q) h :=
        ⟨hr, hd.anti ((prefix_append _ _).trans hq'), length_le_of_concat hq' hl, by
          rw [walk_append, hold, Option.bind_some, hw]⟩
      have := congrArg List.length (hf ha hat).2
      simp at this
  · exact hf.lookup_write ha hr hd hl hpre e

/-- **Taking a link out keeps a forest**: the walks through it end there. -/
theorem Forest.walk_unlink (he : next e = none) (hr : r' ∈ roots) (hd : Dom low p')
    (hl : p'.length ≤ n + 1) : walk next (write mem f i e) r' p' =
      if r' = r ∧ p ++ [i] <+: p' then none else walk next mem r' p' := by
  split_ifs with hp
  · obtain ⟨rfl, s, rfl⟩ := hp
    rw [walk_append, walk_concat, hf.walk_write_self ha e]
    simp [he]
  · exact hf.walk_write ha hr hd hl hp e

/-- **Linking in a new table**: one more walk arrives, the one along the new link. -/
theorem Forest.walk_link (hi : next (mem f i) = none) (hg : Unreached next mem roots low n g)
    (he : next e = some g) (ht : ∀ j, next (t j) = none) (hr : r' ∈ roots) (hd : Dom low p')
    (hl : p'.length ≤ n + 1) :
    walk next (fill (write mem f i e) g t) r' p' =
      if r' = r ∧ p' = p ++ [i] then some g else walk next mem r' p' := by
  have hfg : f ≠ g := fun h => hg (h ▸ ha)
  rw [fill_write_comm hfg]
  by_cases hp : r' = r ∧ p ++ [i] <+: p'
  · obtain ⟨rfl, s, rfl⟩ := hp
    have hold : walk next mem r' (p ++ [i] ++ s) = none := by
      rw [walk_append, walk_concat, ha.walk_eq]
      simp [hi]
    rw [walk_append, walk_concat, (hf.filled hg t).walk_write_self (ha.filled hg t) e,
      Option.bind_some, write_self, he, Option.bind_some, hold]
    cases s with
    | nil => simp
    | cons j s =>
      rw [if_neg (by simp), walk_cons, write_of_frame_ne hfg.symm, fill_self, ht]
      rfl
  · rw [(hf.filled hg t).walk_write (ha.filled hg t) hr hd hl hp e, walk_fill hg hr hd hl, if_neg]
    rintro ⟨rfl, rfl⟩
    exact hp ⟨rfl, prefix_rfl⟩

/-- A lookup elsewhere does not notice the new table… -/
theorem Forest.lookup_link (hg : Unreached next mem roots low n g) (t : I → E)
    (hr : r' ∈ roots) (hd : Dom low p') (hl : p'.length ≤ n + 1)
    (hne : ¬(r' = r ∧ p ++ [i] <+: p')) :
    lookup next (fill (write mem f i e) g t) r' p' = lookup next mem r' p' := by
  rw [fill_write_comm fun h => hg (h ▸ ha),
    (hf.filled hg t).lookup_write (ha.filled hg t) hr hd hl hne, lookup_fill hg hr hd hl]

/-- …and one through the link ends in it. -/
theorem Forest.lookup_link_self (hg : Unreached next mem roots low n g)
    (he : next e = some g) (ht : ∀ j, next (t j) = none) (j : I) (s : List I) :
    lookup next (fill (write mem f i e) g t) r (p ++ i :: j :: s) = some (s.length, t j) := by
  have hfg : f ≠ g := fun h => hg (h ▸ ha)
  rw [fill_write_comm hfg, lookup_append ((hf.filled hg t).walk_write_self (ha.filled hg t) e),
    lookup_of_next (by rw [write_self]; exact he), lookup_of_none]
  · rw [write_of_frame_ne hfg.symm, fill_self]
  · rw [write_of_frame_ne hfg.symm, fill_self]
    exact ht j

theorem Forest.link (hi : next (mem f i) = none) (hg : Unreached next mem roots low n g)
    (he : next e = some g) (ht : ∀ j, next (t j) = none) :
    Forest next (fill (write mem f i e) g t) roots low n := by
  -- each arrival is the new one or an old one, and those do not meet
  have hcase : ∀ {r' p' f'}, At next (fill (write mem f i e) g t) roots low n r' p' f' →
      (r' = r ∧ p' = p ++ [i] ∧ f' = g) ∨ At next mem roots low n r' p' f' := by
    intro r' p' f' h
    have hw := h.walk_eq
    rw [hf.walk_link ha hi hg he ht h.root h.dom (le_succ_of_le h.length_le)] at hw
    split_ifs at hw with hp
    · exact Or.inl ⟨hp.1, hp.2, by simpa using hw.symm⟩
    · exact Or.inr ⟨h.root, h.dom, h.length_le, hw⟩
  intro r1 r2 p1 p2 f' h1 h2
  rcases hcase h1 with ⟨rfl, rfl, rfl⟩ | h1 <;> rcases hcase h2 with ⟨rfl, rfl, h⟩ | h2
  · exact ⟨rfl, rfl⟩
  · exact absurd h2 (fun h => hg h)
  · exact absurd (h ▸ h1) (fun h => hg h)
  · exact hf h1 h2

end Forest

end Bedrock.Radix
