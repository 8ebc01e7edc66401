import Bedrock.Mm.Vmm

/-!
# Mm/PageTree — the tables of one root, and what maps and unmaps do to them

`Tree mem root` says that the tables below a root form a tree whose entries are unused or present.
Translating an address is then a lookup in that tree (`translate_eq`), and a page is unmapped
exactly if its lookup ends in a zero entry, with as many tables missing as levels are left.

Two facts carry the mapping functions: making the tables on the way to a page changes no lookup
but for the level at which unmapped ones end (`Kept`), and a leaf is written at one path only.
-/

namespace Bedrock

open Radix BitmapAllocator

/-! ## Translation as a lookup -/

/-- The way to the leaf entry of `va`. -/
def leafPath (va : ℕ) : List (Fin 512) := dir va ++ [index 12 va]

theorem index_val (shift va : ℕ) : (index shift va).val = va / 2 ^ shift % 512 := by
  simp [index]

/-- **Canonical addresses with the same path lie in the same page.** -/
theorem leafPath_eq_iff {v w : ℕ} (hv : isCanonical v = true) (hw : isCanonical w = true) :
    leafPath v = leafPath w ↔ v / 4096 = w / 4096 := by
  simp only [leafPath, dir, List.cons_append, List.nil_append, List.cons.injEq, and_true,
    Fin.ext_iff, index_val]
  simp only [isCanonical, decide_eq_true_eq] at hv hw
  constructor
  · rintro ⟨h1, h2, h3, h4⟩
    omega
  · intro h
    refine ⟨?_, ?_, ?_, ?_⟩ <;> omega

@[simp] theorem length_dir (va : ℕ) : (dir va).length = 3 := rfl

@[simp] theorem length_leafPath (va : ℕ) : (leafPath va).length = 4 := rfl

/-- What an entry at which a lookup ends, with `k` levels left, says about `va`. -/
def decode (va : ℕ) : ℕ → Pte → Option (Option ℕ)
  | 0, e => if e = 0#64 then some none else some (some (e.frame + va % 2 ^ 12))
  | 1, e => if e.isSet ptePresent = false then some none
      else some (some (e.frame / 2 ^ 21 * 2 ^ 21 + va % 2 ^ 21))
  | 2, e => if e.isSet ptePresent = false then some none
      else some (some (e.frame / 2 ^ 30 * 2 ^ 30 + va % 2 ^ 30))
  | _, e => if e.isSet ptePresent = false then some none else none

/-- One level of a translation is one step of a lookup. -/
theorem lookup_bind {mem : ℕ → Fin 512 → Pte} {f : ℕ} {i j : Fin 512} {p : List (Fin 512)}
    {r t : Option (Option ℕ)} {d : ℕ × Pte → Option (Option ℕ)}
    (hd : d (p.length + 1, mem f i) = if (mem f i).isSet ptePresent = false then some none else r)
    (ht : t = (lookup Pte.next mem (mem f i).frame (j :: p)).bind d) :
    (if (mem f i).isSet ptePresent = false then some none
      else if (mem f i).isSet ptePs then r else t) =
      (lookup Pte.next mem f (i :: j :: p)).bind d := by
  rw [lookup, Pte.next]
  split_ifs <;> simp_all

/-- **Translation is a lookup.** -/
theorem Machine.translate_eq {m : Machine} {root va : ℕ} (hc : isCanonical va = true) :
    m.translate root va =
      (lookup Pte.next m.mem root (leafPath va)).bind fun x => decode va x.1 x.2 := by
  rw [translate, if_neg (by simp [hc])]
  exact lookup_bind rfl (lookup_bind rfl (lookup_bind rfl rfl))

theorem decode_zero (va k : ℕ) : decode va k 0#64 = some none := by
  match k with
  | 0 => simp [decode]
  | 1 | 2 | _ + 3 => simp [decode, Pte.isSet_zero]

/-! ## The tables below some roots -/

/-- A part of the tables: those below `roots`, through the entries of a root that are `low`. -/
structure Scope where
  roots : Set ℕ
  low : Fin 512 → Prop

/-- Everything below one root. -/
def Scope.whole (root : ℕ) : Scope := ⟨{root}, fun _ => True⟩

/-- The path `p` from `r` belongs to the scope. -/
structure Scope.Has (S : Scope) (r : ℕ) (p : List (Fin 512)) : Prop where
  root : r ∈ S.roots
  dom : Dom S.low p

theorem Scope.has_whole (root : ℕ) (p : List (Fin 512)) : (Scope.whole root).Has root p :=
  ⟨rfl, fun _ _ => trivial⟩

theorem Scope.Has.anti {S : Scope} {r : ℕ} {p q : List (Fin 512)} (h : S.Has r q) (hp : p <+: q) :
    S.Has r p := ⟨h.root, h.dom.anti hp⟩

/-- Table `f` is reached from `r` along `p`. -/
abbrev TableAt (mem : ℕ → Fin 512 → Pte) (S : Scope) : ℕ → List (Fin 512) → ℕ → Prop :=
  At Pte.next mem S.roots S.low 3

variable {mem mem' mem'' : ℕ → Fin 512 → Pte} {S : Scope} {r r' f f' g : ℕ} {p q : List (Fin 512)}
  {i : Fin 512}

theorem TableAt.has (h : TableAt mem S r p f) : S.Has r p := ⟨h.root, h.dom⟩

theorem Scope.Has.tableAt (h : S.Has r p) (hl : p.length ≤ 3)
    (hw : walk Pte.next mem r p = some f) : TableAt mem S r p f := ⟨h.root, h.dom, hl, hw⟩

/-- The tables form a tree below each root, each entry is unused or present, and none of the top
level is huge. -/
structure Tree (mem : ℕ → Fin 512 → Pte) (S : Scope) : Prop where
  forest : Forest Pte.next mem S.roots S.low 3
  entry : ∀ ⦃r p f⦄, TableAt mem S r p f → ∀ i, Dom S.low (p ++ [i]) →
    mem f i = 0#64 ∨ (mem f i).isSet ptePresent = true
  top : ∀ r ∈ S.roots, ∀ i, S.low i → (mem r i).isSet ptePs = false

theorem lookup_isSome (mem : ℕ → Fin 512 → Pte) (h : p ≠ []) (f : ℕ) :
    ∃ k e, lookup Pte.next mem f p = some (k, e) := by
  cases p with
  | nil => exact absurd rfl h
  | cons i p =>
    obtain ⟨q, j, g, -, -, hl⟩ := lookup_mem Pte.next mem f i p
    exact ⟨_, _, hl⟩

/-! ## The page map of a root -/

/-- What the page at `p` is mapped to: the entry its lookup ends in and the levels left there. -/
def leafOf (mem : ℕ → Fin 512 → Pte) (r : ℕ) (p : List (Fin 512)) : Option (ℕ × Pte) :=
  (lookup Pte.next mem r p).filter fun x => x.2 ≠ 0#64

theorem leafOf_eq_some {k : ℕ} {e : Pte} :
    leafOf mem r p = some (k, e) ↔ lookup Pte.next mem r p = some (k, e) ∧ e ≠ 0#64 := by
  simp [leafOf]

theorem leafOf_eq_none (hp : p ≠ []) :
    leafOf mem r p = none ↔ ∃ k, lookup Pte.next mem r p = some (k, 0#64) := by
  obtain ⟨k, e, hl⟩ := lookup_isSome mem hp r
  simp [leafOf, hl, Option.filter]

theorem leafOf_congr (h : lookup Pte.next mem' r p = lookup Pte.next mem r p) :
    leafOf mem' r p = leafOf mem r p := by rw [leafOf, leafOf, h]

theorem leafOf_of_lookup {k : ℕ} {e : Pte} (hl : lookup Pte.next mem r p = some (k, e)) :
    leafOf mem r p = if e = 0#64 then none else some (k, e) := by
  by_cases he : e = 0#64 <;> simp [leafOf, hl, Option.filter]

/-- The page map of the scope is the same. -/
def Kept (S : Scope) (mem mem' : ℕ → Fin 512 → Pte) : Prop :=
  ∀ ⦃r p⦄, S.Has r p → p.length = 4 → leafOf mem' r p = leafOf mem r p

theorem Kept.refl (S : Scope) (mem : ℕ → Fin 512 → Pte) : Kept S mem mem := fun _ _ _ _ => rfl

theorem Kept.trans (h : Kept S mem mem') (h' : Kept S mem' mem'') : Kept S mem mem'' :=
  fun _ _ hp hl => (h' hp hl).trans (h hp hl)

/-- **Translation reads the page map.** -/
theorem Machine.translate_eq_decode {m : Machine} {va : ℕ} (hc : isCanonical va = true) :
    m.translate r va =
      (leafOf m.mem r (leafPath va)).elim (some none) fun x => decode va x.1 x.2 := by
  obtain ⟨k, e, hl⟩ := lookup_isSome m.mem (show leafPath va ≠ [] by simp [leafPath]) r
  rw [Machine.translate_eq hc, leafOf_of_lookup hl, hl]
  split_ifs with he
  · rw [he]
    exact decode_zero va k
  · rfl

theorem Machine.translate_congr {m m' : Machine} {va : ℕ}
    (h : leafOf m'.mem r (leafPath va) = leafOf m.mem r (leafPath va)) :
    m'.translate r va = m.translate r va := by
  cases hc : isCanonical va with
  | false => simp [Machine.translate, hc]
  | true => rw [Machine.translate_eq_decode hc, Machine.translate_eq_decode hc, h]

namespace Tree

/-- A lookup ends in an entry of a table of the tree. -/
theorem lookup_entry (h : Tree mem S) (hp : S.Has r p) (hlen : p.length = 4) : ∃ k e,
    lookup Pte.next mem r p = some (k, e) ∧ k ≤ 3 ∧
      (e = 0#64 ∨ e.isSet ptePresent = true) ∧ (k = 3 → e.isSet ptePs = false) := by
  match p, hlen with
  | i :: p, hlen =>
    obtain ⟨q, j, g, hq, hw, hl⟩ := lookup_mem Pte.next mem r i p
    have hq3 : q.length ≤ 3 := length_le_of_concat hq (le_of_eq hlen)
    have hp3 : p.length = 3 := by simpa using hlen
    have hhas : S.Has r (q ++ [j]) := hp.anti hq
    refine ⟨_, _, hl, by omega, ?_, fun hk => ?_⟩
    · exact h.entry ((hhas.anti (List.prefix_append q [j])).tableAt hq3 hw) j hhas.dom
    · obtain rfl : q = [] := List.eq_nil_of_length_eq_zero (by omega)
      obtain rfl : r = g := by simpa using hw
      exact h.top r hp.root j (hhas.dom j (by simp))

/-- …and a mapped page ends in a leaf of one of the three lower levels. -/
theorem lookup_leaf (h : Tree mem S) (hp : S.Has r p) (hlen : p.length = 4) {k : ℕ} {e : Pte}
    (hl : lookup Pte.next mem r p = some (k, e)) (he : e ≠ 0#64) :
    k ≤ 2 ∧ e.isSet ptePresent = true := by
  obtain ⟨k', e', hl', hk, hentry, htop⟩ := h.lookup_entry hp hlen
  obtain ⟨rfl, rfl⟩ : k = k' ∧ e = e' := by simpa using hl.symm.trans hl'
  have hpres := hentry.resolve_left he
  refine ⟨Nat.lt_succ_iff.mp (lt_of_le_of_ne hk fun h3 => ?_), hpres⟩
  have hn : e.next = none := next_of_lookup (k := 2) (h3 ▸ hl)
  rw [Pte.next_of_present hpres (htop h3)] at hn
  exact absurd hn (by simp)

/-- **An address translates to nothing exactly if the page map has nothing there.** -/
theorem translate_eq_none {m : Machine} (h : Tree m.mem S) {va : ℕ} (hp : S.Has r (leafPath va))
    (hc : isCanonical va = true) :
    m.translate r va = some none ↔ leafOf m.mem r (leafPath va) = none := by
  obtain ⟨k, e, hl, hk, he, -⟩ := h.lookup_entry hp (length_leafPath va)
  rw [Machine.translate_eq_decode hc, leafOf_of_lookup hl]
  split_ifs with hz
  · simp
  · have hpres := he.resolve_left hz
    simp only [Option.elim_some]
    interval_cases k <;> simp [decode, hpres, hz]

/-- A memory that agrees on the tables of the tree has the same tree. -/
theorem congr (h : Tree mem S) (hm : ∀ r p f, TableAt mem S r p f → ∀ i, Dom S.low (p ++ [i]) →
    mem' f i = mem f i) : Tree mem' S ∧
      (∀ r p, S.Has r p → p.length ≤ 4 → walk Pte.next mem' r p = walk Pte.next mem r p) ∧
        ∀ r p, S.Has r p → p.length ≤ 4 → lookup Pte.next mem' r p = lookup Pte.next mem r p := by
  have hread : ∀ {r p q j g}, S.Has r p → p.length ≤ 4 → q ++ [j] <+: p →
      walk Pte.next mem r q = some g → mem' g j = mem g j := fun {r p q j g} hp hl hq hw =>
    hm r q g (((hp.anti hq).anti (List.prefix_append q [j])).tableAt
      (length_le_of_concat hq hl) hw) j (hp.anti hq).dom
  have hwalk : ∀ r p, S.Has r p → p.length ≤ 4 →
      walk Pte.next mem' r p = walk Pte.next mem r p := fun r p hp hl =>
    walk_congr fun q j g hq hw => by rw [hread hp hl hq hw]
  have hat : ∀ ⦃r p f⦄, TableAt mem' S r p f → TableAt mem S r p f := fun r p f ha =>
    (At.congr (hwalk r p ha.has (Nat.le_succ_of_le ha.length_le))).mp ha
  refine ⟨⟨h.forest.of_le hat, fun r p f ha i hi => ?_, fun r hr i hi => ?_⟩, hwalk,
    fun r p hp hl => lookup_eq fun q j g hq hw => hread hp hl hq hw⟩
  · rw [hm r p f (hat ha) i hi]
    exact h.entry (hat ha) i hi
  · rw [hm r [] r (At.nil hr) i (by simpa [Dom] using hi)]
    exact h.top r hr i hi

theorem similar (h : Tree mem S) (hm : ∀ f i, Pte.Similar (mem f i) (mem' f i)) :
    Tree mem' S ∧ ∀ r p, walk Pte.next mem' r p = walk Pte.next mem r p := by
  have hwalk : ∀ r p, walk Pte.next mem' r p = walk Pte.next mem r p :=
    walk_eq_of_next fun f i => (hm f i).next
  refine ⟨⟨h.forest.of_next fun f i => (hm f i).next, fun r p f ha i hi => ?_,
    fun r hr i hi => ?_⟩, hwalk⟩
  · have := h.entry ((At.congr (hwalk r p)).mp ha) i hi
    rwa [← (hm f i).zero, ← (hm f i).present] at this
  · rw [(hm r i).ps]
    exact h.top r hr i hi

end Tree

/-! ## Links -/

/-- The flags of a link: present, not huge, outside the frame bits. -/
structure LinkFlags (insert : Pte) : Prop where
  present : insert.isSet ptePresent = true
  ps : insert.isSet ptePs = false
  mask : insert &&& frameMask = 0#64

theorem linkFlags_tableFlagsFor (leaf : Pte) : LinkFlags (tableFlagsFor leaf) := by
  rcases tableFlagsFor_cases leaf with h | h <;> rw [h] <;> constructor <;> decide

variable {m m' : Machine} {insert : Pte}

theorem next_ofFrame (hi : LinkFlags insert) (ha : f % 4096 = 0) (hb : f < 2 ^ 52) :
    (Pte.ofFrame f insert).next = some f := by
  rw [Pte.next_of_present, Pte.frame_ofFrame ha hb hi.mask]
  · rw [Pte.isSet_ofFrame ha hb (by decide), hi.present]
  · rw [Pte.isSet_ofFrame ha hb (by decide), hi.ps]

/-- Adding a link's flags to a link changes its permissions at most. -/
theorem similar_insert {e : Pte} (hi : LinkFlags insert) (he : e.next = some g) :
    Pte.Similar e (if e.flags &&& insert = insert then e
      else (e &&& frameMask) ||| (e.flags ||| insert)) := by
  obtain ⟨hp, hs, -⟩ := Pte.next_eq_some he
  split_ifs
  · exact .refl e
  have hframe : (e.flags ||| insert) &&& frameMask = 0#64 := by
    rw [BitVec.and_or_distrib_right, hi.mask, BitVec.or_zero, Pte.flags, BitVec.and_assoc,
      show ~~~frameMask &&& frameMask = 0#64 by decide, BitVec.and_zero]
  have hset : ∀ f, frameMask &&& f = 0#64 → ~~~frameMask &&& f = f →
      Pte.isSet ((e &&& frameMask) ||| (e.flags ||| insert)) f = (e.isSet f || insert.isSet f) :=
    fun f h1 h2 => by
      rw [Pte.isSet_or, Pte.isSet_or, Pte.isSet_and_of_disjoint e h1, Pte.flags,
        Pte.isSet_and_of_le e h2, Bool.false_or]
  have hp' := hset ptePresent (by decide) (by decide)
  rw [hp, Bool.true_or] at hp'
  constructor
  · exact iff_of_false (Pte.ne_zero_of_isSet hp') (Pte.ne_zero_of_isSet hp)
  · rw [hp', hp]
  · rw [hset ptePs (by decide) (by decide), hs, hi.ps]
    rfl
  · rw [Pte.frame_or_of_disjoint _ hframe, Pte.frame_and_of_le _ (by decide)]

namespace Machine

/-- Behind a link `create_next_table` finds the table and touches up the link's permissions. -/
theorem createNextTable_of_next (hi : LinkFlags insert) (h : (m.mem f i).next = some g) :
    ∃ e', Pte.Similar (m.mem f i) e' ∧
      m.createNextTable insert f i = .ok (g, m.writePte f i e') := by
  obtain ⟨hp, hs, hg⟩ := Pte.next_eq_some h
  refine ⟨_, similar_insert hi h, ?_⟩
  have hsim := similar_insert hi h
  simp only [createNextTable]
  rw [if_neg (Pte.ne_zero_of_isSet hp), hsim.ps, hs, hsim.frame, hg]
  rfl

/-- The machine with a new, empty table linked in. -/
def linked (m : Machine) (insert : Pte) (f : ℕ) (i : Fin 512) (g : ℕ) (a : BitmapAllocator) :
    Machine :=
  ({ m with alloc := a }.writePte f i (Pte.ofFrame g insert)).zeroFrame g

theorem linked_mem (m : Machine) (insert : Pte) (f : ℕ) (i : Fin 512) (g : ℕ)
    (a : BitmapAllocator) : (m.linked insert f i g a).mem =
      fill (write m.mem f i (Pte.ofFrame g insert)) g fun _ => 0#64 := rfl

theorem createNextTable_of_zero (insert : Pte) (h : m.mem f i = 0#64) :
    m.createNextTable insert f i = match m.alloc.alloc with
    | none => .error .frameAllocationFailed
    | some (g, a) => .ok (g, m.linked insert f i g a) := by
  simp only [createNextTable, h, if_true]
  rfl

end Machine

/-! ## Making the tables on the way to a page -/

/-- The trees of a scope, with their tables and the other roots in use. -/
structure PageTree (m : Machine) (S : Scope) : Prop extends Tree m.mem S where
  sound : m.alloc.Sound
  used : ∀ ⦃r p f⦄, TableAt m.mem S r p f → m.alloc.isUsed (f / 4096) = true
  clones : ∀ c ∈ m.clones, m.alloc.isUsed (c / 4096) = true ∧
    (c ∈ S.roots ∨ ∀ r p, ¬ TableAt m.mem S r p c)

namespace PageTree

/-- A frame that the allocator hands out is no table of the tree. -/
theorem unreached (h : PageTree m S) {a : BitmapAllocator} (hg : Granted m.alloc g a) :
    Unreached Pte.next m.mem S.roots S.low 3 g := by
  intro r p ha
  have := h.used ha
  rw [hg.wasFree] at this
  exact absurd this (by decide)

theorem similar (h : PageTree m S) (hm : ∀ f i, Pte.Similar (m.mem f i) (mem' f i)) :
    PageTree { m with mem := mem' } S := by
  obtain ⟨htree, hwalk⟩ := h.toTree.similar hm
  have hat : ∀ ⦃r p f⦄, TableAt mem' S r p f ↔ TableAt m.mem S r p f := fun r p f =>
    At.congr (hwalk r p)
  exact ⟨htree, h.sound, fun r p f ha => h.used (hat.mp ha), fun c hc =>
    ⟨(h.clones c hc).1, (h.clones c hc).2.imp_right fun hn r p ha => hn r p (hat.mp ha)⟩⟩

section Linked

variable {a : BitmapAllocator} (h : PageTree m S) (hi : LinkFlags insert)
  (ha : TableAt m.mem S r p f) (hz : m.mem f i = 0#64) (hg : Granted m.alloc g a)

include hi h hg in
theorem next_granted : (Pte.ofFrame g insert).next = some g :=
  next_ofFrame hi hg.aligned (hg.holds_self.lt_bound (hg.sound h.sound))

include h hi ha hz hg

theorem walk_linked (hq : S.Has r' q) (hl : q.length ≤ 4) :
    walk Pte.next (m.linked insert f i g a).mem r' q =
      if r' = r ∧ q = p ++ [i] then some g else walk Pte.next m.mem r' q := by
  have hn : (m.mem f i).next = none := by rw [hz, Pte.next_zero]
  exact h.forest.walk_link ha hn (h.unreached hg) (h.next_granted hi hg)
    (fun _ => Pte.next_zero) hq.root hq.dom hl

/-- A table of the new tree is the new table, or an old one with at most the new link in it. -/
theorem tableAt_linked (hq : TableAt (m.linked insert f i g a).mem S r' q f') :
    (f' = g ∧ ∀ j, (m.linked insert f i g a).mem f' j = 0#64) ∨
      TableAt m.mem S r' q f' ∧ ∀ j, (m.linked insert f i g a).mem f' j =
        if f' = f ∧ j = i then Pte.ofFrame g insert else m.mem f' j := by
  have hw := hq.walk_eq
  rw [h.walk_linked hi ha hz hg hq.has (Nat.le_succ_of_le hq.length_le)] at hw
  split_ifs at hw with he
  · obtain rfl : g = f' := by simpa using hw
    exact .inl ⟨rfl, congrFun (fill_self _ _)⟩
  · have hold := hq.has.tableAt hq.length_le hw
    have hne : f' ≠ g := fun hf => h.unreached hg (hf ▸ hold)
    exact .inr ⟨hold, congrFun (fill_of_ne _ hne)⟩

/-- A lookup through the new link ends one level further down. -/
theorem kept_linked (hp : p.length < 3) : Kept S m.mem (m.linked insert f i g a).mem := by
  have hn : (m.mem f i).next = none := by rw [hz, Pte.next_zero]
  intro r' q hq hlen
  by_cases hpre : r' = r ∧ p ++ [i] <+: q
  · obtain ⟨rfl, s, rfl⟩ := hpre
    match s with
    | [] => simp only [List.append_nil, List.length_append, List.length_singleton] at hlen; omega
    | j :: s =>
      rw [List.append_assoc, List.singleton_append]
      have hold := ha.lookup_self hn (j :: s)
      rw [hz] at hold
      have hnew := h.forest.lookup_link_self (i := i) ha (h.unreached hg)
        (h.next_granted hi hg) (fun _ => Pte.next_zero) j s
      rw [leafOf_of_lookup hold, Machine.linked_mem, leafOf_of_lookup hnew, if_pos rfl,
        if_pos rfl]
  · exact leafOf_congr
      (h.forest.lookup_link ha (h.unreached hg) _ hq.root hq.dom (le_of_eq hlen) hpre)

theorem tree_linked : Tree (m.linked insert f i g a).mem S := by
  have hn : (m.mem f i).next = none := by rw [hz, Pte.next_zero]
  obtain ⟨hpres, hps, -⟩ := Pte.next_eq_some (h.next_granted hi hg)
  refine ⟨h.forest.link ha hn (h.unreached hg) (h.next_granted hi hg) fun _ => Pte.next_zero,
    fun r' q f' hq j hj => ?_, fun r' hr j hj => ?_⟩
  · obtain ⟨-, hmem⟩ | ⟨hold, hmem⟩ := h.tableAt_linked hi ha hz hg hq
    · exact .inl (hmem j)
    · rw [hmem j]
      split_ifs
      exacts [Or.inr hpres, h.entry hold j hj]
  · obtain ⟨-, hmem⟩ | ⟨-, hmem⟩ := h.tableAt_linked hi ha hz hg (.nil hr)
    · rw [hmem j, Pte.isSet_zero]
    · rw [hmem j]
      split_ifs
      exacts [hps, h.top r' hr j hj]

/-- **Linking in a fresh table keeps the tree.** -/
theorem linked : PageTree (m.linked insert f i g a) S := by
  have hused : ∀ j, m.alloc.isUsed j = true → a.isUsed j = true := fun j hj => by
    rw [hg.used, hj, Bool.or_true]
  refine ⟨h.tree_linked hi ha hz hg, hg.sound h.sound, fun r' q f' hq => ?_, fun c hc => ?_⟩
  · obtain ⟨rfl, -⟩ | ⟨hold, -⟩ := h.tableAt_linked hi ha hz hg hq
    exacts [hg.holds_self.used, hused _ (h.used hold)]
  · obtain ⟨hu, hc'⟩ := h.clones c hc
    refine ⟨hused _ hu, hc'.imp_right fun hn r' q hq => ?_⟩
    obtain ⟨rfl, -⟩ | ⟨hold, -⟩ := h.tableAt_linked hi ha hz hg hq
    · rw [hg.wasFree] at hu
      exact absurd hu (by decide)
    · exact hn r' q hold

end Linked

end PageTree

/-- What making the tables along `p` does: more walks arrive, and nothing that is seen changes. -/
structure Prepared (S : Scope) (r : ℕ) (m : Machine) (p : List (Fin 512)) (m' : Machine) : Prop
    where
  tree : PageTree m' S
  kept : Kept S m.mem m'.mem
  walks : ∀ ⦃r' q⦄, S.Has r' q → q.length ≤ 3 →
    ((walk Pte.next m'.mem r' q).isSome ↔
      (walk Pte.next m.mem r' q).isSome ∨ r' = r ∧ q <+: p)
  tables : ∀ ⦃r' q f⦄, TableAt m'.mem S r' q f →
    TableAt m.mem S r' q f ∨ m.alloc.isUsed (f / 4096) = false ∧ m'.alloc.Holds f
  frames : ∀ ⦃f⦄, m.alloc.isUsed (f / 4096) = true → (∀ r' q, ¬ TableAt m.mem S r' q f) →
    m'.mem f = m.mem f
  draws : ∃ k, drawn k m.alloc = some m'.alloc
  rest : m' = { m with mem := m'.mem, alloc := m'.alloc }

theorem walk_isSome_of_ancestor (ha : TableAt mem S r p f) (hq : q <+: p) :
    (walk Pte.next mem r q).isSome := by
  obtain ⟨g, hg⟩ := ha.ancestor hq
  rw [hg.walk_eq]
  rfl

namespace Prepared

variable {m'' : Machine}

theorem refl (h : PageTree m S) (ha : TableAt m.mem S r p f) : Prepared S r m p m where
  tree := h
  kept := .refl _ _
  walks r' q hq hl := by
    refine (or_iff_left_of_imp ?_).symm
    rintro ⟨rfl, hpre⟩
    exact walk_isSome_of_ancestor ha hpre
  tables _ _ _ hq := .inl hq
  frames _ _ _ := rfl
  draws := ⟨0, rfl⟩
  rest := rfl

theorem trans {p' : List (Fin 512)} (h : Prepared S r m p m') (h' : Prepared S r m' p' m'')
    (hp : p <+: p') (hs : m.alloc.Sound) : Prepared S r m p' m'' := by
  obtain ⟨k, hk⟩ := h.draws
  obtain ⟨k', hk'⟩ := h'.draws
  obtain ⟨-, -, hused, -⟩ := drawn_spec hs hk
  obtain ⟨-, -, -, hholds⟩ := drawn_spec h.tree.sound hk'
  refine ⟨h'.tree, h.kept.trans h'.kept, fun r' q hq hl => ?_, fun r' q f hq => ?_,
    fun f hu hn => ?_, ⟨k + k', by rw [drawn_add, hk]; exact hk'⟩, by rw [h'.rest, h.rest]⟩
  · rw [h'.walks hq hl, h.walks hq hl, or_assoc]
    exact or_congr_right ⟨fun hc => hc.elim (fun hc => ⟨hc.1, hc.2.trans hp⟩) id, .inr⟩
  · obtain hq | ⟨hf, hh⟩ := h'.tables hq
    · exact (h.tables hq).imp_right fun hc => ⟨hc.1, hholds f hc.2⟩
    · exact Or.inr ⟨Bool.eq_false_iff.mpr fun hu => by simp [hused _ hu] at hf, hh⟩
  · refine (h'.frames (hused _ hu) fun r' q hq => ?_).trans (h.frames hu hn)
    obtain hq | ⟨hf, -⟩ := h.tables hq
    · exact hn r' q hq
    · simp [hu] at hf

end Prepared

namespace PageTree

/-- A table on the way is found… -/
theorem prepared_similar (h : PageTree m S) (ha : TableAt m.mem S r p f)
    (hd : Dom S.low (p ++ [i])) (hp : p.length < 3) (hn : (m.mem f i).next = some g) {e : Pte}
    (hs : Pte.Similar (m.mem f i) e) : Prepared S r m (p ++ [i]) (m.writePte f i e) := by
  have hall : ∀ f' j, Pte.Similar (m.mem f' j) ((m.writePte f i e).mem f' j) := fun f' j => by
    simp only [Machine.writePte, write]
    split_ifs with hc
    · rw [hc.1, hc.2]
      exact hs
    · exact .refl _
  obtain ⟨-, hwalk⟩ := h.toTree.similar hall
  refine ⟨h.similar hall, fun r' q hq hl => leafOf_congr ?_, fun r' q hq hl => ?_,
    fun r' q f' hq => Or.inl ((At.congr (hwalk r' q)).mp hq), fun f' _ hf' => ?_, ⟨0, rfl⟩, rfl⟩
  · exact h.forest.lookup_relink ha hn (hs.next.trans hn) hq.root hq.dom (le_of_eq hl) (by omega)
  · rw [hwalk r' q]
    refine (or_iff_left_of_imp ?_).symm
    rintro ⟨rfl, hpre⟩
    exact walk_isSome_of_ancestor (ha.concat hd hp hn) hpre
  · have hne : f' ≠ f := by rintro rfl; exact hf' r p ha
    exact write_of_frame_ne hne i e

/-- …or made from one draw. -/
theorem prepared_linked (h : PageTree m S) (hi : LinkFlags insert) (ha : TableAt m.mem S r p f)
    (hp : p.length < 3) (hz : m.mem f i = 0#64) {a : BitmapAllocator}
    (hal : m.alloc.alloc = some (g, a)) : Prepared S r m (p ++ [i]) (m.linked insert f i g a) := by
  have hg := granted_of_alloc h.sound hal
  refine ⟨h.linked hi ha hz hg, h.kept_linked hi ha hz hg hp, fun r' q hq hl => ?_,
    fun r' q f' hq => ?_, fun f' hu hf' => ?_, ⟨1, by rw [drawn_succ_of_alloc hal]; rfl⟩, rfl⟩
  · rw [h.walk_linked hi ha hz hg hq (by omega)]
    split_ifs with he
    · simp [he]
    · refine ⟨.inl, fun hc => hc.elim id ?_⟩
      rintro ⟨rfl, hpre⟩
      have hlt : q.length < (p ++ [i]).length :=
        lt_of_le_of_ne hpre.length_le fun hl => he ⟨rfl, hpre.eq_of_length hl⟩
      exact walk_isSome_of_ancestor ha (List.prefix_of_prefix_length_le hpre
        (List.prefix_append p [i]) (by simpa using hlt))
  · obtain ⟨rfl, -⟩ | ⟨hold, -⟩ := h.tableAt_linked hi ha hz hg hq
    exacts [Or.inr ⟨hg.wasFree, hg.holds_self⟩, .inl hold]
  · have hne : f' ≠ g := by
      rintro rfl
      rw [hg.wasFree] at hu
      exact absurd hu (by decide)
    have hne' : f' ≠ f := by rintro rfl; exact hf' r p ha
    rw [Machine.linked_mem, fill_of_ne _ hne, write_of_frame_ne hne']

theorem lookup_linked (h : PageTree m S) (hi : LinkFlags insert) (ha : TableAt m.mem S r p f)
    {a : BitmapAllocator} (hg : Granted m.alloc g a) {s : List (Fin 512)} (hs : s ≠ []) :
    lookup Pte.next (m.linked insert f i g a).mem r (p ++ [i] ++ s) =
      some (s.length - 1, 0#64) := by
  match s with
  | [] => exact absurd rfl hs
  | j :: s =>
    rw [List.append_assoc, List.singleton_append, Machine.linked_mem,
      h.forest.lookup_link_self ha (h.unreached hg) (h.next_granted hi hg)
        (fun _ => Pte.next_zero) j s]
    rfl

end PageTree

/-- What `create_next_table` comes to along `p`, from table `f` at `q`, when entry `j` of the last
table is to be `e` and `k` tables are missing. -/
def TablesMade (S : Scope) (insert : Pte) (r : ℕ) (m : Machine) (q : List (Fin 512)) (f : ℕ)
    (p : List (Fin 512)) (j : Fin 512) (k : ℕ) (e : Pte) : Prop :=
  match drawn k m.alloc with
  | none => Machine.createTables insert m f p = .error .frameAllocationFailed
  | some a => ∃ t m', Machine.createTables insert m f p = .ok (t, m') ∧
      Prepared S r m (q ++ p) m' ∧ TableAt m'.mem S r (q ++ p) t ∧ m'.mem t j = e ∧ m'.alloc = a

/-- One table is there or is made; the rest of the way goes on from it. -/
theorem TablesMade.cons {j : Fin 512} {k k' : ℕ} {e : Pte} (hs : m.alloc.Sound)
    (hok : m.createNextTable insert f i = .ok (g, m')) (hprep : Prepared S r m (q ++ [i]) m')
    (hdr : drawn k m.alloc = drawn k' m'.alloc)
    (h : TablesMade S insert r m' (q ++ [i]) g p j k' e) :
    TablesMade S insert r m q f (i :: p) j k e := by
  rw [TablesMade] at h ⊢
  rw [hdr, Machine.createTables, hok, show q ++ i :: p = q ++ [i] ++ p by simp]
  cases hd : drawn k' m'.alloc with
  | none => rwa [hd] at h
  | some a =>
    rw [hd] at h
    obtain ⟨t, m'', hok', hprep', h⟩ := h
    exact ⟨t, m'', hok', hprep.trans hprep' (List.prefix_append _ p) hs, h⟩

namespace PageTree

/-- **Making the tables on the way to an entry** takes as many draws as its lookup has levels
left, and fails exactly if one of them does. -/
theorem createTables_spec (hi : LinkFlags insert) {j : Fin 512} {e : Pte} : ∀ {p q : List (Fin 512)}
    {k : ℕ} {m : Machine} {f : ℕ}, PageTree m S → TableAt m.mem S r q f →
    Dom S.low (q ++ p ++ [j]) → q.length + p.length ≤ 3 →
    lookup Pte.next m.mem r (q ++ p ++ [j]) = some (k, e) → (k ≠ 0 → e = 0#64) →
    TablesMade S insert r m q f p j k e
  | [], q, k, m, f, h, ha, _, _, hl, _ => by
    obtain ⟨rfl, hz⟩ : 0 = k ∧ m.mem f j = e := by
      simpa [lookup_append ha.walk_eq j []] using hl
    refine ⟨f, m, rfl, ?_, ?_, hz, rfl⟩ <;> rw [List.append_nil]
    exacts [Prepared.refl h ha, ha]
  | i :: p, q, k, m, f, h, ha, hd, hlen, hl, hke => by
    have hq : q.length < 3 := by simp only [List.length_cons] at hlen; omega
    have hlen' : (q ++ [i]).length + p.length ≤ 3 := by
      simp only [List.length_append, List.length_cons, List.length_nil] at hlen ⊢; omega
    rw [show q ++ i :: p = q ++ [i] ++ p by simp] at hd hl
    have hdi : Dom S.low (q ++ [i]) := hd.anti (by simp)
    cases hn : (m.mem f i).next with
    | some g =>
      obtain ⟨e', hs, hok⟩ := Machine.createNextTable_of_next hi hn
      have hprep := h.prepared_similar ha hdi hq hn hs
      have hat : TableAt (m.writePte f i e').mem S r (q ++ [i]) g := by
        refine ⟨ha.root, hdi, by simpa using hq, ?_⟩
        rw [walk_concat, Machine.writePte_mem, h.forest.walk_write_self ha e', Option.bind_some,
          write_self, hs.next, hn]
      refine .cons h.sound hok hprep rfl
        (createTables_spec hi hprep.tree hat hd hlen' ?_ hke)
      rw [← hl]
      exact h.forest.lookup_relink ha hn (hs.next.trans hn) ha.root hd
        (by simp only [List.length_append, List.length_singleton] at hlen' ⊢; omega) (by simp)
    | none =>
      have hl' : lookup Pte.next m.mem r (q ++ [i] ++ p ++ [j]) =
          some ((p ++ [j]).length, m.mem f i) := by
        simpa using ha.lookup_self hn (p ++ [j])
      obtain ⟨rfl, rfl⟩ : p.length + 1 = k ∧ m.mem f i = e := by
        simpa using hl'.symm.trans hl
      have hz := hke (by simp)
      have hok := Machine.createNextTable_of_zero insert hz
      cases hal : m.alloc.alloc with
      | none =>
        rw [hal] at hok
        rw [TablesMade, drawn_succ_of_none hal, Machine.createTables, hok]
      | some x =>
        obtain ⟨g, a⟩ := x
        rw [hal] at hok
        have hg := granted_of_alloc h.sound hal
        have hprep := h.prepared_linked hi ha hq hz hal
        have hat : TableAt (m.linked insert f i g a).mem S r (q ++ [i]) g := by
          refine ⟨ha.root, hdi, by simpa using hq, ?_⟩
          rw [h.walk_linked hi ha hz hg ⟨ha.root, hdi⟩ (by simpa using by omega),
            if_pos ⟨rfl, rfl⟩]
        refine .cons h.sound hok hprep (drawn_succ_of_alloc hal)
          (createTables_spec hi hprep.tree hat hd hlen' ?_ fun _ => hz)
        rw [List.append_assoc, h.lookup_linked hi ha hg (by simp), hz]
        simp

end PageTree

end Bedrock
