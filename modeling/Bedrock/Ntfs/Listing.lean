import Bedrock.Ntfs.Inode

/-!
# Ntfs/Listing — what a listing has of the tree

The format counts the place of a subnode in clusters; the driver takes the number for that of a
block.  The two agree if a block is one cluster.

    subnode pointer      unit · b          (`vcnUnit`)
    block read           unit · b          block `b` is meant

The search reads numbers, each once (`Index.tour`).  If each of them is a block in use or lies
behind the allocation, every block in use that is read gives its names once, and nothing else does
(`spec_listEntries`); and the sweep makes up for pointers that went elsewhere.
-/

namespace Bedrock.Ntfs

open Outcome List

/-! ## Trees of names -/

/-- An entry of a node, and the block of what comes before it, if there is one. -/
structure Item where
  ref : ℕ
  file : FileName
  child : Option ℕ

/-- A node; `last` is the block of what comes behind its entries. -/
structure Node where
  items : List Item
  last : Option ℕ

/-- The index of a directory.  `swept` blocks are inside the size of the allocation, and `blocks`
inside its runs. -/
structure Index where
  root : Node
  large : Bool
  used : List ℕ
  node : ℕ → Node
  swept : ℕ
  blocks : ℕ
  bitmap : List UInt8

/-- The directory itself and its parent are not listed. -/
def Item.Listed (it : Item) : Prop := it.file.name ≠ ['.'] ∧ it.file.name ≠ ['.', '.']

instance (it : Item) : Decidable it.Listed := inferInstanceAs (Decidable (_ ∧ _))

def Item.entry (it : Item) : IndexEntry := IndexEntry.of it.ref it.file

/-- The entries of items. -/
def namesOf (its : List Item) : List IndexEntry := (its.filter (·.Listed)).map Item.entry

def Node.children (n : Node) : List ℕ := n.items.filterMap Item.child ++ n.last.toList

/-- The names in a block; blocks that are not in use have none. -/
def Index.namesAt (idx : Index) (v : ℕ) : List IndexEntry :=
  if v ∈ idx.used then namesOf (idx.node v).items else []

/-- All entries of the tree. -/
def Index.entries (idx : Index) : List IndexEntry :=
  namesOf idx.root.items ++ idx.used.flatMap idx.namesAt

/-- The clusters of a block, or its sectors if a cluster is larger than a block. -/
def vcnUnit (boot : BootSector) : ℕ :=
  if boot.bytesPerSector * boot.sectorsPerCluster ≤ boot.indexSize then
    boot.indexSize / (boot.bytesPerSector * boot.sectorsPerCluster)
  else boot.indexSize / BYTES_PER_SECTOR

/-- A tree of at most sixteen levels below the root with fewer than a million entries, all
different, in blocks that the bitmap marks and no others. -/
structure Index.WellFormed (idx : Index) (boot : BootSector) : Prop where
  nodup : idx.used.Nodup
  used_lt : ∀ v ∈ idx.used, v < idx.swept
  swept_le : idx.swept ≤ idx.blocks
  fits : idx.blocks * boot.indexSize < 2 ^ 64
  small : idx.large = false → idx.used = []
  marked : ∀ v < idx.swept, blockUsed idx.bitmap v = true ↔ v ∈ idx.used
  parents : (idx.root.children ++ idx.used.flatMap fun v => (idx.node v).children).Perm idx.used
  levels : ∃ level : ℕ → ℕ, (∀ b ∈ idx.root.children, level b = 1) ∧ ∀ v ∈ idx.used,
    level v ≤ 16 ∧ ∀ b ∈ (idx.node v).children, level b = level v + 1
  distinct : idx.entries.Nodup
  count : idx.entries.length < MAX_INDEX_ENTRIES

/-! ## Bytes -/

/-- The pointer to a subnode at the end of the entry at `pos`, or none. -/
def PointerAt (data : List UInt8) (unit pos : ℕ) : Option ℕ → Prop
  | none => natAt 2 data (pos + 12) &&& INDEX_ENTRY_SUBNODE = 0
  | some b => natAt 2 data (pos + 12) &&& INDEX_ENTRY_SUBNODE ≠ 0 ∧
      0x18 ≤ natAt 2 data (pos + 8) ∧ natAt 8 data (pos + natAt 2 data (pos + 8) - 8) = unit * b

instance (data : List UInt8) (unit pos : ℕ) : ∀ child, Decidable (PointerAt data unit pos child)
  | none => inferInstanceAs (Decidable (_ = _))
  | some _ => inferInstanceAs (Decidable (_ ∧ _ ∧ _))

/-- The bytes from a place on are these items, and behind them the entry that ends the node. -/
inductive Holds (data : List UInt8) (stop unit : ℕ) : ℕ → List Item → Option ℕ → Prop
  | last {pos : ℕ} {child : Option ℕ} (len : 0x10 ≤ natAt 2 data (pos + 8))
      (inside : pos + natAt 2 data (pos + 8) ≤ stop)
      (flag : natAt 2 data (pos + 12) &&& INDEX_ENTRY_LAST ≠ 0)
      (pointer : PointerAt data unit pos child) : Holds data stop unit pos [] child
  | item {pos : ℕ} {it : Item} {its : List Item} {child : Option ℕ}
      (len : 0x10 + natAt 2 data (pos + 10) ≤ natAt 2 data (pos + 8))
      (inside : pos + natAt 2 data (pos + 8) ≤ stop)
      (flag : natAt 2 data (pos + 12) &&& INDEX_ENTRY_LAST = 0)
      (pointer : PointerAt data unit pos it.child)
      (ref : natAt 8 data pos = it.ref) (key : 0 < natAt 2 data (pos + 10))
      (file : parseFileName ((data.take (pos + 0x10 + natAt 2 data (pos + 10))).drop (pos + 0x10)) =
        ok it.file)
      (rest : Holds data stop unit (pos + natAt 2 data (pos + 8)) its child) :
      Holds data stop unit pos (it :: its) child

/-- The block is the node. -/
structure NodeAt (b : IndexBlock) (unit : ℕ) (n : Node) : Prop where
  ok : b.Ok
  holds : Holds b.data b.stop unit b.start n.items n.last

/-- The blocks read back: those in use as their nodes, and none behind the allocation.  Nothing is
said of blocks that are not in use. -/
structure Agrees (read : ℕ → Outcome VfsError (Option IndexBlock)) (idx : Index)
    (boot : BootSector) : Prop where
  used : ∀ v ∈ idx.used, ∃ b, read v = ok (some b) ∧ NodeAt b (vcnUnit boot) (idx.node v)
  behind : ∀ v, idx.blocks ≤ v → v * boot.indexSize < 2 ^ 64 → read v = ok none
  overflow : ∀ v, 2 ^ 64 ≤ v * boot.indexSize → read v = err .ioError

/-- The record is that of the directory: its attributes are the root, the runs, the size and the
bitmap of the index. -/
structure Describes (sb : SuperBlock) (record : List UInt8) (idx : Index) (runs : RunList) :
    Prop where
  root : ∃ attrs root region, iterAttrs record = ok attrs ∧
    findI30 attrs ATTR_INDEX_ROOT = some root ∧
    indexHeaderRegion root.value 0x10 = ok region ∧
    NodeAt ⟨root.value, region.1, region.2⟩ (vcnUnit sb.boot) idx.root ∧
    if idx.large then
      ∃ a b, findI30 attrs ATTR_INDEX_ALLOCATION = some a ∧ a.resident = false ∧
        a.runs record = ok runs ∧ a.realSize / sb.boot.indexSize = idx.swept ∧
        findI30 attrs ATTR_BITMAP = some b ∧
        readAttrValue sb.device sb.boot record b MAX_BITMAP_BYTES = ok idx.bitmap
    else findI30 attrs ATTR_INDEX_ALLOCATION = none

/-! ## The numbers that the search reads -/

/-- A pointer to a block, visited as a number. -/
def tourChild (visit : ℕ → List ℕ → List ℕ) (unit : ℕ) : Option ℕ → List ℕ → List ℕ
  | some b, seen => visit (unit * b) seen
  | none, seen => seen

def tourItems (visit : ℕ → List ℕ → List ℕ) (unit : ℕ) : List Item → List ℕ → List ℕ
  | [], seen => seen
  | it :: its, seen => tourItems visit unit its (tourChild visit unit it.child seen)

def Index.visit (idx : Index) (tour : Node → List ℕ → List ℕ) (v : ℕ) (seen : List ℕ) : List ℕ :=
  if v ∈ seen then seen else if v ∈ idx.used then tour (idx.node v) (v :: seen) else v :: seen

def Index.tourNode (idx : Index) (unit : ℕ) : ℕ → Node → List ℕ → List ℕ
  | 0, _, seen => seen
  | levels + 1, n, seen => tourItems (idx.visit (idx.tourNode unit levels)) unit n.items seen

def Index.tourSweep (idx : Index) (unit : ℕ) : List ℕ → List ℕ → List ℕ
  | [], seen => seen
  | v :: vs, seen => idx.tourSweep unit vs (if blockUsed idx.bitmap v then
      idx.visit (idx.tourNode unit MAX_INDEX_DEPTH) v seen else seen)

/-- The numbers read for the index, the last one first. -/
def Index.tour (idx : Index) (unit : ℕ) : List ℕ :=
  let seen := idx.tourNode unit MAX_INDEX_DEPTH idx.root []
  if idx.large then
    idx.tourSweep unit (List.range (min (idx.swept - 1) MAX_INDEX_BLOCKS + 1)) seen
  else seen

/-- A number that may be read: a block in use, or none at all. -/
def Index.Harmless (idx : Index) (indexSize v : ℕ) : Prop :=
  v ∈ idx.used ∨ idx.blocks ≤ v ∧ v * indexSize < 2 ^ 64

/-- **All numbers read are harmless, and no block with a Win32 or POSIX name is left out.** -/
def Index.Sound (idx : Index) (boot : BootSector) : Prop :=
  (∀ v ∈ idx.tour (vcnUnit boot), idx.Harmless boot.indexSize v) ∧
  ∀ v ∈ idx.used, (∃ e ∈ idx.namesAt v, e.nameSpace ≠ DOS_NAMESPACE) → v ∈ idx.tour (vcnUnit boot)

/-- The listing has each Win32 or POSIX entry of the tree once, and nothing else but entries of the
tree. -/
def Complete (idx : Index) (r : Outcome VfsError (List IndexEntry)) : Prop :=
  ∃ l, r = ok l ∧ (∀ e ∈ idx.entries, e.nameSpace ≠ DOS_NAMESPACE → l.count e = 1) ∧
    ∀ e ∈ l, e ∈ idx.entries

section Tour

variable {idx : Index} {unit v : ℕ} {seen : List ℕ}

/-! A property of what has been visited is kept if it is kept by one more number. -/

variable {P : List ℕ → Prop} {Q : ℕ → Prop}

theorem tourItems_inv {visit : ℕ → List ℕ → List ℕ}
    (h : ∀ v, Q v → ∀ seen, P seen → P (visit v seen)) :
    ∀ (its : List Item) {seen : List ℕ}, (∀ b ∈ its.filterMap Item.child, Q (unit * b)) → P seen →
      P (tourItems visit unit its seen)
  | [], _, _, hs => hs
  | it :: its, seen, hq, hs => by
    rw [tourItems]
    cases hc : it.child with
    | none =>
      rw [filterMap_cons, hc] at hq
      exact tourItems_inv h its hq hs
    | some b =>
      rw [filterMap_cons, hc, forall_mem_cons] at hq
      exact tourItems_inv h its hq.2 (h _ hq.1 _ hs)

theorem visit_inv (hP : ∀ v seen, Q v → v ∉ seen → P seen → P (v :: seen))
    {tour : Node → List ℕ → List ℕ}
    (h : ∀ v ∈ idx.used, ∀ seen, P seen → P (tour (idx.node v) seen)) (v : ℕ) (hv : Q v)
    (seen : List ℕ) (hs : P seen) : P (idx.visit tour v seen) := by
  rw [Index.visit]
  split
  · exact hs
  · rename_i hnew
    split
    · exact h v ‹_› _ (hP v seen hv hnew hs)
    · exact hP v seen hv hnew hs

theorem tourNode_inv (hP : ∀ v seen, Q v → v ∉ seen → P seen → P (v :: seen))
    (hQ : ∀ v ∈ idx.used, ∀ b ∈ (idx.node v).items.filterMap Item.child, Q (unit * b)) :
    ∀ (levels : ℕ) {n : Node} (seen : List ℕ), (∀ b ∈ n.items.filterMap Item.child, Q (unit * b)) →
      P seen → P (idx.tourNode unit levels n seen)
  | 0, _, _, _, hs => hs
  | levels + 1, n, _, hn, hs => tourItems_inv
      (visit_inv hP fun v hv seen => tourNode_inv hP hQ levels seen (hQ v hv)) n.items hn hs

theorem tourSweep_inv (hP : ∀ v seen, Q v → v ∉ seen → P seen → P (v :: seen))
    (hQ : ∀ v ∈ idx.used, ∀ b ∈ (idx.node v).items.filterMap Item.child, Q (unit * b)) :
    ∀ (vs : List ℕ) {seen : List ℕ}, (∀ v ∈ vs, blockUsed idx.bitmap v = true → Q v) → P seen →
      P (idx.tourSweep unit vs seen)
  | [], _, _, hs => hs
  | v :: vs, seen, hvs, hs => by
    rw [forall_mem_cons] at hvs
    rw [Index.tourSweep]
    refine tourSweep_inv hP hQ vs hvs.2 ?_
    split
    · exact visit_inv hP (fun v hv seen => tourNode_inv hP hQ _ seen (hQ v hv)) v
        (hvs.1 ‹_›) seen hs
    · exact hs

/-- What is visited stays visited. -/
theorem suffix_tourItems {visit : ℕ → List ℕ → List ℕ} (h : ∀ v seen, seen <:+ visit v seen)
    (its : List Item) (seen : List ℕ) : seen <:+ tourItems visit unit its seen :=
  tourItems_inv (P := (seen <:+ ·)) (Q := fun _ => True) (fun v _ _ hs => hs.trans (h v _)) its
    (fun _ _ => trivial) (suffix_refl _)

theorem suffix_cons_of_suffix (v : ℕ) (s : List ℕ) (_ : True) (_ : v ∉ s) (hs : seen <:+ s) :
    seen <:+ v :: s :=
  hs.trans (suffix_cons v s)

theorem suffix_visit {tour : Node → List ℕ → List ℕ} (h : ∀ n seen, seen <:+ tour n seen)
    (v : ℕ) (seen : List ℕ) : seen <:+ idx.visit tour v seen :=
  visit_inv (P := (seen <:+ ·)) suffix_cons_of_suffix (fun _ _ _ hs => hs.trans (h _ _)) v trivial
    seen (suffix_refl _)

theorem suffix_tourNode (levels : ℕ) (n : Node) (seen : List ℕ) :
    seen <:+ idx.tourNode unit levels n seen :=
  tourNode_inv (P := (seen <:+ ·)) suffix_cons_of_suffix (fun _ _ _ _ => trivial) levels seen
    (fun _ _ => trivial) (suffix_refl _)

theorem suffix_tourSweep (vs seen : List ℕ) : seen <:+ idx.tourSweep unit vs seen :=
  tourSweep_inv (P := (seen <:+ ·)) suffix_cons_of_suffix (fun _ _ _ _ => trivial) vs
    (fun _ _ _ => trivial) (suffix_refl _)

/-- …and nothing is visited twice. -/
theorem nodup_tour (idx : Index) (unit : ℕ) : (idx.tour unit).Nodup := by
  have hP : ∀ (v : ℕ) (s : List ℕ), True → v ∉ s → s.Nodup → (v :: s).Nodup :=
    fun v s _ hv hs => nodup_cons.mpr ⟨hv, hs⟩
  have hroot : (idx.tourNode unit MAX_INDEX_DEPTH idx.root []).Nodup :=
    tourNode_inv hP (fun _ _ _ _ => trivial) _ [] (fun _ _ => trivial) nodup_nil
  rw [Index.tour]
  split
  · exact tourSweep_inv hP (fun _ _ _ _ => trivial) _ (fun _ _ _ => trivial) hroot
  · exact hroot

end Tour

/-! ## The search -/

/-- How many names are in the blocks in use that have not been visited. -/
def Index.left (idx : Index) (seen : List ℕ) : ℕ :=
  ((idx.used.filter (· ∉ seen)).map fun v => (idx.namesAt v).length).sum

section Search

variable {idx : Index} {boot : BootSector} {stern : Prop} {st : Search} {names : List IndexEntry}
  {seen : List ℕ} {v : ℕ} {r : Outcome VfsError Search}

theorem left_cons (hn : idx.used.Nodup) (hv : v ∉ seen) :
    idx.left seen = (idx.namesAt v).length + idx.left (v :: seen) := by
  rw [Index.left, Index.left]
  by_cases hu : v ∈ idx.used
  · have hsplit : (idx.used.filter (· ∉ seen)).Perm (v :: idx.used.filter (· ∉ v :: seen)) := by
      refine (perm_ext_iff_of_nodup (hn.filter _)
        (nodup_cons.mpr ⟨by simp, hn.filter _⟩)).mpr fun w => ?_
      obtain rfl | hw := eq_or_ne w v
      · simp [hu, hv]
      · simp [hw]
    rw [(hsplit.map _).sum_eq, map_cons, sum_cons]
  · have hsame : idx.used.filter (· ∉ v :: seen) = idx.used.filter (· ∉ seen) := by
      refine filter_congr fun w hw => ?_
      have : w ≠ v := fun h => hu (h ▸ hw)
      simp [this]
    rw [hsame, Index.namesAt, if_neg hu, length_nil, Nat.zero_add]

/-- The search has gone on to `seen`, with these names and those of the blocks visited since. -/
def Gathers (idx : Index) (st : Search) (names : List IndexEntry) (seen : List ℕ)
    (r : Outcome VfsError Search) : Prop :=
  ∃ out new, r = ok ⟨seen, out⟩ ∧ seen = new ++ st.visited ∧
    out.Perm (st.out ++ names ++ new.flatMap idx.namesAt) ∧
    out.length + idx.left seen = st.out.length + names.length + idx.left st.visited

/-- What is to be shown of each part of the search: it does as said if all that it visits is
harmless; and if other numbers are errors, it fails at the first of them. -/
structure Spec (idx : Index) (size : ℕ) (stern : Prop) (st : Search) (names : List IndexEntry)
    (seen : List ℕ) (r : Outcome VfsError Search) : Prop where
  good : (∀ v ∈ seen, idx.Harmless size v) → Gathers idx st names seen r
  bad : stern → (¬ ∀ v ∈ seen, idx.Harmless size v) → ∃ e, r = err e

variable {size : ℕ}

theorem Spec.pure (h : ∀ v ∈ st.visited, idx.Harmless size v) :
    Spec idx size stern st [] st.visited (Pure.pure st) where
  good _ := ⟨st.out, [], rfl, rfl, by simp, by simp⟩
  bad _ hb := absurd h hb

/-- Names that are pushed at once. -/
theorem Spec.push {ns : List IndexEntry}
    (h : Spec idx size stern ⟨st.visited, st.out ++ ns⟩ names seen r) :
    Spec idx size stern st (ns ++ names) seen r where
  good hs := by
    obtain ⟨out, new, hr, hseen, hperm, hlen⟩ := h.good hs
    refine ⟨out, new, hr, hseen, by simpa using hperm, ?_⟩
    simp only [length_append] at hlen ⊢
    omega
  bad := h.bad

/-- One part of the search after another. -/
theorem Spec.bind {names' : List IndexEntry} {seen' : List ℕ} {f : Search → Outcome VfsError Search}
    (h : Spec idx size stern st names seen r) (hsub : seen <:+ seen')
    (hf : ∀ out, (∀ v ∈ seen, idx.Harmless size v) →
      out.length + idx.left seen = st.out.length + names.length + idx.left st.visited →
      Spec idx size stern ⟨seen, out⟩ names' seen' (f ⟨seen, out⟩)) :
    Spec idx size stern st (names ++ names') seen' (r >>= f) where
  good hs := by
    have hseen : ∀ v ∈ seen, idx.Harmless size v := fun v hv => hs v (hsub.subset hv)
    obtain ⟨out, new, rfl, hnew, hperm, hlen⟩ := h.good hseen
    obtain ⟨out', new', hr', hnew', hperm', hlen'⟩ := (hf out hseen hlen).good hs
    refine ⟨out', new' ++ new, hr', by rw [hnew', hnew, append_assoc], ?_, ?_⟩
    · rw [← Multiset.coe_eq_coe] at hperm hperm' ⊢
      simp only [flatMap_append, ← Multiset.coe_add] at hperm hperm' ⊢
      rw [hperm', hperm]
      abel
    · simp only at hlen'
      rw [hlen', length_append]
      omega
  bad hst hb := by
    by_cases hseen : ∀ v ∈ seen, idx.Harmless size v
    · obtain ⟨out, new, rfl, -, -, hlen⟩ := h.good hseen
      exact (hf out hseen hlen).bad hst hb
    · obtain ⟨e, rfl⟩ := h.bad hst hseen
      exact ⟨e, rfl⟩

/-! ### One node -/

section Node

variable {data : List UInt8} {stop unit pos fuel : ℕ} {it : Item}
  {visit : Option (ℕ → Search → Outcome VfsError Search)}

/-- What the loop does with the pointer of an entry. -/
def subnode (visit : Option (ℕ → Search → Outcome VfsError Search)) (unit : ℕ)
    (child : Option ℕ) (st : Search) : Outcome VfsError Search :=
  match visit, child with
  | some f, some b => f (unit * b) st
  | _, _ => Pure.pure st

theorem namesOf_cons (it : Item) (its : List Item) :
    namesOf (it :: its) = namesOf [it] ++ namesOf its := by
  rw [namesOf, namesOf, namesOf, ← map_append, ← filter_append, singleton_append]

theorem toList_listed (it : Item) :
    (if it.Listed then some it.entry else none).toList = namesOf [it] := by
  by_cases hl : it.Listed
  · simp [namesOf, hl]
  · simp [namesOf, hl]

section Entry

variable (hd : data.length < 2 ^ 32) (hstop : stop ≤ data.length)
include hd hstop

theorem parseFrom_last (hroom : st.out.length < MAX_INDEX_ENTRIES)
    (len : 0x10 ≤ natAt 2 data (pos + 8)) (inside : pos + natAt 2 data (pos + 8) ≤ stop)
    (flag : natAt 2 data (pos + 12) &&& INDEX_ENTRY_LAST ≠ 0) :
    parseFrom visit data stop (fuel + 1) pos st = ok st := by
  rw [parseFrom, word_of_lt (by omega), ok_bind, if_neg (by omega), failIf_neg (by omega), ok_bind,
    u16At, fieldAt_of_le (by omega) (by omega), ok_bind, fieldAt_of_le (by omega) (by omega),
    ok_bind, fieldAt_of_le (by omega) (by omega), ok_bind, word_of_lt (by omega), ok_bind,
    failIf_neg (by omega), ok_bind, if_pos flag, pure_eq]

variable (len : 0x10 + natAt 2 data (pos + 10) ≤ natAt 2 data (pos + 8))
  (inside : pos + natAt 2 data (pos + 8) ≤ stop) (ref : natAt 8 data pos = it.ref)
  (key : 0 < natAt 2 data (pos + 10))
  (file : parseFileName ((data.take (pos + 0x10 + natAt 2 data (pos + 10))).drop (pos + 0x10)) =
    ok it.file)
include len inside ref key file

theorem entryAt_item : entryAt data pos (natAt 2 data (pos + 8)) (natAt 2 data (pos + 10)) =
    ok (if it.Listed then some it.entry else none) := by
  rw [entryAt, sub_of_le (by omega), ok_bind, if_pos ⟨key, by omega⟩,
    slice_of_le (by omega) (by omega), ok_bind, file]
  change (if it.Listed then _ else _) = _
  by_cases hl : it.Listed
  · rw [if_pos hl, if_pos hl, u64At, fieldAt_of_le (by omega) (by omega), ok_bind, ref]
    rfl
  · rw [if_neg hl, if_neg hl]
    rfl

theorem parseFrom_item (hroom : st.out.length < MAX_INDEX_ENTRIES)
    (flag : natAt 2 data (pos + 12) &&& INDEX_ENTRY_LAST = 0)
    (pointer : PointerAt data unit pos it.child) : parseFrom visit data stop (fuel + 1) pos st =
      subnode visit unit it.child ⟨st.visited, st.out ++ namesOf [it]⟩ >>=
        parseFrom visit data stop fuel (pos + natAt 2 data (pos + 8)) := by
  rw [parseFrom, word_of_lt (by omega), ok_bind, if_neg (by omega), failIf_neg (by omega), ok_bind,
    u16At, fieldAt_of_le (by omega) (by omega), ok_bind, fieldAt_of_le (by omega) (by omega),
    ok_bind, fieldAt_of_le (by omega) (by omega), ok_bind, word_of_lt (by omega), ok_bind,
    failIf_neg (by omega), ok_bind, if_neg (not_not_intro flag),
    entryAt_item hd hstop len inside ref key file, ok_bind, toList_listed]
  dsimp only
  cases visit with
  | none => rfl
  | some f =>
    cases hc : it.child with
    | none =>
      rw [hc] at pointer
      dsimp only
      rw [if_neg fun h => h.1 pointer]
      rfl
    | some b =>
      rw [hc] at pointer
      obtain ⟨hsub, hlen, hvcn⟩ := pointer
      dsimp only
      rw [if_pos ⟨hsub, hlen⟩, sub_of_le (by omega), ok_bind, u64At,
        fieldAt_of_le (by omega) (by omega), ok_bind, hvcn]
      rfl

end Entry

/-- The pointer is followed as a number, or not at all on the last level. -/
def Follows (idx : Index) (size : ℕ) (stern : Prop)
    (visit : Option (ℕ → Search → Outcome VfsError Search)) (g : ℕ → List ℕ → List ℕ) : Prop :=
  (∀ f, visit = some f → ∀ v st, (∀ w ∈ st.visited, idx.Harmless size w) →
    st.out.length + idx.left st.visited < MAX_INDEX_ENTRIES →
    Spec idx size stern st [] (g v st.visited) (f v st)) ∧
  (visit = none → ∀ v seen, g v seen = seen)

theorem Follows.spec_subnode {g : ℕ → List ℕ → List ℕ} (h : Follows idx size stern visit g)
    (unit : ℕ) (st : Search) (hst : ∀ w ∈ st.visited, idx.Harmless size w)
    (hroom : st.out.length + idx.left st.visited < MAX_INDEX_ENTRIES) (child : Option ℕ) :
    Spec idx size stern st [] (tourChild g unit child st.visited)
      (subnode visit unit child st) := by
  cases visit with
  | none =>
    cases child with
    | none => exact .pure hst
    | some b =>
      rw [tourChild, h.2 rfl]
      exact .pure hst
  | some f =>
    cases child with
    | none => exact .pure hst
    | some b => exact h.1 f rfl _ st hst hroom

/-- **The loop over the entries of a node.** -/
theorem Follows.spec_parseFrom {g : ℕ → List ℕ → List ℕ} (h : Follows idx size stern visit g)
    (hg : ∀ v seen, seen <:+ g v seen) (hd : data.length < 2 ^ 32) (hstop : stop ≤ data.length)
    {its : List Item} {child : Option ℕ} (hh : Holds data stop unit pos its child) :
    ∀ {fuel : ℕ} {st : Search}, stop < fuel + pos → (∀ w ∈ st.visited, idx.Harmless size w) →
      st.out.length + idx.left st.visited + (namesOf its).length < MAX_INDEX_ENTRIES →
      Spec idx size stern st (namesOf its) (tourItems g unit its st.visited)
        (parseFrom visit data stop fuel pos st) := by
  induction hh with
  | @last pos child len inside flag pointer =>
    intro fuel st hf hst hroom
    obtain _ | fuel := fuel
    · omega
    rw [parseFrom_last hd hstop (by omega) len inside flag]
    exact .pure hst
  | @item pos it its child len inside flag pointer ref key file rest ih =>
    intro fuel st hf hst hroom
    obtain _ | fuel := fuel
    · omega
    rw [parseFrom_item hd hstop len inside ref key file (by omega) flag pointer, namesOf_cons]
    rw [namesOf_cons, length_append] at hroom
    refine .push ?_
    have hsub := h.spec_subnode unit ⟨st.visited, st.out ++ namesOf [it]⟩ hst
      (by dsimp only; rw [length_append]; omega) it.child
    refine hsub.bind (suffix_tourItems hg its _) fun out hseen hlen => ?_
    refine ih (by omega) hseen ?_
    rw [length_append, length_nil] at hlen
    dsimp only at hlen ⊢
    omega

end Node

/-! ### Blocks -/

/-- The reader agrees with the index; a stern one fails at all numbers that are not harmless. -/
structure Reads (stern : Prop) (read : ℕ → Outcome VfsError (Option IndexBlock)) (idx : Index)
    (boot : BootSector) : Prop where
  agrees : Agrees read idx boot
  fails : stern → ∀ v, ¬ idx.Harmless boot.indexSize v → ∃ e, read v = err e

section Block

variable {read : ℕ → Outcome VfsError (Option IndexBlock)}

/-- A block that has been read is searched with the pointers of its node. -/
def Parses (idx : Index) (boot : BootSector) (stern : Prop)
    (parse : IndexBlock → Search → Outcome VfsError Search) (tour : Node → List ℕ → List ℕ) :
    Prop :=
  ∀ {n : Node} {b : IndexBlock} {st : Search}, NodeAt b (vcnUnit boot) n →
    (∀ w ∈ st.visited, idx.Harmless boot.indexSize w) →
    st.out.length + idx.left st.visited + (namesOf n.items).length < MAX_INDEX_ENTRIES →
    Spec idx boot.indexSize stern st (namesOf n.items) (tour n st.visited) (parse b st)

theorem Reads.visitBlock_used (h : Reads stern read idx boot) (hn : idx.used.Nodup)
    {parse : IndexBlock → Search → Outcome VfsError Search} {tour : Node → List ℕ → List ℕ}
    (hp : Parses idx boot stern parse tour) (hv : v ∉ st.visited) (hu : v ∈ idx.used)
    (hst : ∀ w ∈ st.visited, idx.Harmless boot.indexSize w)
    (hroom : st.out.length + idx.left st.visited < MAX_INDEX_ENTRIES) :
    Spec idx boot.indexSize stern st [] (tour (idx.node v) (v :: st.visited))
      (visitBlock read parse v st) := by
  obtain ⟨b, hb, hnode⟩ := h.agrees.used v hu
  have hnames : idx.namesAt v = namesOf (idx.node v).items := if_pos hu
  have hleft := left_cons hn hv
  rw [hnames] at hleft
  have hparse := @hp _ _ ⟨v :: st.visited, st.out⟩ hnode
    (forall_mem_cons.mpr ⟨.inl hu, hst⟩) (by dsimp only; omega)
  rw [visitBlock, if_neg hv, hb, ok_bind]
  refine ⟨fun hs => ?_, hparse.bad⟩
  obtain ⟨out, new, hr, hseen, hperm, hlen⟩ := hparse.good hs
  refine ⟨out, new ++ [v], hr, by simpa using hseen, ?_, ?_⟩
  · rw [flatMap_append, flatMap_singleton, hnames, append_nil]
    refine hperm.trans ?_
    rw [append_assoc]
    exact .append_left _ perm_append_comm
  · dsimp only at hlen
    rw [length_nil]
    omega

theorem Reads.visitBlock_unused (h : Reads stern read idx boot) (hn : idx.used.Nodup)
    (parse : IndexBlock → Search → Outcome VfsError Search) (hv : v ∉ st.visited)
    (hu : v ∉ idx.used) (hst : ∀ w ∈ st.visited, idx.Harmless boot.indexSize w) :
    Spec idx boot.indexSize stern st [] (v :: st.visited) (visitBlock read parse v st) := by
  have hnames : idx.namesAt v = [] := if_neg hu
  have hleft := left_cons hn hv
  rw [hnames, length_nil, Nat.zero_add] at hleft
  rw [visitBlock, if_neg hv]
  constructor
  · intro hs
    obtain hu' | ⟨hbehind, hfits⟩ := hs v mem_cons_self
    · exact absurd hu' hu
    rw [h.agrees.behind v hbehind hfits, ok_bind]
    exact ⟨st.out, [v], rfl, rfl, by simp [hnames], by rw [length_nil, hleft]; omega⟩
  · intro hstern hbad
    have hharm : ¬ idx.Harmless boot.indexSize v := fun hharm =>
      hbad (forall_mem_cons.mpr ⟨hharm, hst⟩)
    obtain ⟨e, he⟩ := h.fails hstern v hharm
    rw [he, err_bind]
    exact ⟨e, rfl⟩

/-- **A number is visited**: as a block in use, as nothing, or not again. -/
theorem Reads.spec_visitBlock (h : Reads stern read idx boot) (hn : idx.used.Nodup)
    {parse : IndexBlock → Search → Outcome VfsError Search} {tour : Node → List ℕ → List ℕ}
    (hp : Parses idx boot stern parse tour) (v : ℕ) (st : Search)
    (hst : ∀ w ∈ st.visited, idx.Harmless boot.indexSize w)
    (hroom : st.out.length + idx.left st.visited < MAX_INDEX_ENTRIES) :
    Spec idx boot.indexSize stern st [] (idx.visit tour v st.visited)
      (visitBlock read parse v st) := by
  rw [Index.visit]
  by_cases hv : v ∈ st.visited
  · rw [if_pos hv, visitBlock, if_pos hv]
    exact .pure hst
  rw [if_neg hv]
  by_cases hu : v ∈ idx.used
  · rw [if_pos hu]
    exact h.visitBlock_used hn hp hv hu hst hroom
  · rw [if_neg hu]
    exact h.visitBlock_unused hn parse hv hu hst

theorem NodeAt.spec_parseFrom {b : IndexBlock} {n : Node} (hb : NodeAt b (vcnUnit boot) n)
    (st : Search) {visit : Option (ℕ → Search → Outcome VfsError Search)} {g : ℕ → List ℕ → List ℕ}
    (h : Follows idx boot.indexSize stern visit g) (hg : ∀ v seen, seen <:+ g v seen)
    (hst : ∀ w ∈ st.visited, idx.Harmless boot.indexSize w)
    (hroom : st.out.length + idx.left st.visited + (namesOf n.items).length < MAX_INDEX_ENTRIES) :
    Spec idx boot.indexSize stern st (namesOf n.items)
      (tourItems g (vcnUnit boot) n.items st.visited)
      (parseFrom visit b.data b.stop (b.data.length + 1) b.start st) := by
  have hstop := hb.ok.stop_le
  exact h.spec_parseFrom hg hb.ok.length_lt hstop hb.holds (by omega) hst hroom

/-- On the last level no pointer is followed. -/
theorem tourItems_stay (unit : ℕ) : ∀ (its : List Item) (seen : List ℕ),
    tourItems (fun _ seen => seen) unit its seen = seen
  | [], _ => rfl
  | it :: its, seen => by
    rw [tourItems]
    cases it.child with
    | none | some b => exact tourItems_stay unit its seen

theorem Reads.parses_parseEntries (h : Reads stern read idx boot) (hn : idx.used.Nodup) :
    ∀ levels, Parses idx boot stern (parseEntries (some read) levels)
      (idx.tourNode (vcnUnit boot) levels)
  | 0, n, b, st, hb, hst, hroom => by
    have hstay : idx.tourNode (vcnUnit boot) 0 n st.visited =
        tourItems (fun _ seen => seen) (vcnUnit boot) n.items st.visited :=
      (tourItems_stay _ _ _).symm
    rw [parseEntries, hstay]
    refine hb.spec_parseFrom _ ⟨fun f hf => ?_, fun _ _ _ => rfl⟩ (fun _ _ => suffix_refl _)
      hst hroom
    cases hf
  | levels + 1, n, b, st, hb, hst, hroom => by
    rw [parseEntries, Index.tourNode]
    refine hb.spec_parseFrom _ ⟨fun f hf => ?_, fun hf => ?_⟩
      (suffix_visit (suffix_tourNode levels)) hst hroom
    · cases hf
      exact h.spec_visitBlock hn (h.parses_parseEntries hn levels)
    · cases hf

/-- A directory without an allocation has no pointers to follow. -/
theorem parses_parseEntries_none (idx : Index) (boot : BootSector) {n : Node} {b : IndexBlock}
    (hb : NodeAt b (vcnUnit boot) n) (hroom : idx.left [] + (namesOf n.items).length <
      MAX_INDEX_ENTRIES) (levels : ℕ) : Spec idx boot.indexSize stern ⟨[], []⟩ (namesOf n.items) []
      (parseEntries none (levels + 1) b ⟨[], []⟩) := by
  have hstay : Follows idx boot.indexSize stern (some fun _ st => Pure.pure st)
      fun _ seen => seen := by
    refine ⟨fun f hf v st hst _ => ?_, fun hf => nomatch hf⟩
    cases hf
    exact .pure hst
  have hspec := hb.spec_parseFrom ⟨[], []⟩ hstay (fun _ _ => suffix_refl _)
    (fun _ hw => absurd hw not_mem_nil) (by simpa using hroom)
  rwa [tourItems_stay] at hspec

theorem Reads.spec_sweep (h : Reads stern read idx boot) (hn : idx.used.Nodup) (last : ℕ) :
    ∀ (vs : List ℕ) (st : Search), (∀ w ∈ st.visited, idx.Harmless boot.indexSize w) →
      st.out.length + idx.left st.visited < MAX_INDEX_ENTRIES →
      Spec idx boot.indexSize stern st [] (idx.tourSweep (vcnUnit boot) vs st.visited)
        (sweep ⟨last, idx.bitmap, read⟩ vs st)
  | [], st, hst, _ => .pure hst
  | v :: vs, st, hst, hroom => by
    rw [sweep, Index.tourSweep]
    have hone : Spec idx boot.indexSize stern st [] (if blockUsed idx.bitmap v then
        idx.visit (idx.tourNode (vcnUnit boot) MAX_INDEX_DEPTH) v st.visited else st.visited)
        (if blockUsed idx.bitmap v then
          visitBlock read (parseEntries (some read) MAX_INDEX_DEPTH) v st else Pure.pure st) := by
      split
      · exact h.spec_visitBlock hn (h.parses_parseEntries hn _) v st hst hroom
      · exact .pure hst
    refine hone.bind (suffix_tourSweep vs _) fun out hseen hlen => ?_
    rw [length_nil] at hlen
    exact h.spec_sweep hn last vs ⟨_, out⟩ hseen (by dsimp only; omega)

end Block

end Search

/-! ## The listing -/

section Listing

variable {idx : Index} {boot : BootSector} {stern : Prop} {b : IndexBlock}
  {read : ℕ → Outcome VfsError (Option IndexBlock)}

/-- The allocation of the index as the search is given it. -/
def Index.alloc (idx : Index) (read : ℕ → Outcome VfsError (Option IndexBlock)) :
    Option Allocation :=
  if idx.large then some ⟨min (idx.swept - 1) MAX_INDEX_BLOCKS, idx.bitmap, read⟩ else none

/-- The search of `listEntries`. -/
def searchFrom (b : IndexBlock) (alloc : Option Allocation) : Outcome VfsError Search :=
  parseEntries (alloc.map Allocation.read) MAX_INDEX_DEPTH b ⟨[], []⟩ >>= fun st =>
    match alloc with
    | some a => sweep a (List.range (a.lastVcn + 1)) st
    | none => pure st

theorem length_entries (idx : Index) :
    idx.left [] + (namesOf idx.root.items).length = idx.entries.length := by
  rw [Index.entries, length_append, length_flatMap, Index.left,
    filter_eq_self.mpr (by simp)]
  omega

variable {seen : List ℕ} {e : IndexEntry}

theorem tourItems_of_child_none {visit : ℕ → List ℕ → List ℕ} {unit : ℕ} :
    ∀ {its : List Item}, its.filterMap Item.child = [] → tourItems visit unit its seen = seen
  | [], _ => rfl
  | it :: its, h => by
    cases hc : it.child with
    | some c => simp [hc] at h
    | none =>
      rw [filterMap_cons, hc] at h
      rw [tourItems, hc]
      exact tourItems_of_child_none h

theorem Index.WellFormed.spec_searchFrom (hw : idx.WellFormed boot)
    (h : Reads stern read idx boot) (hb : NodeAt b (vcnUnit boot) idx.root) :
    Spec idx boot.indexSize stern ⟨[], []⟩ (namesOf idx.root.items) (idx.tour (vcnUnit boot))
      (searchFrom b (idx.alloc read)) := by
  have hcount := hw.count
  rw [← length_entries] at hcount
  have hnil : ∀ w ∈ ([] : List ℕ), idx.Harmless boot.indexSize w :=
    fun _ hw => absurd hw not_mem_nil
  by_cases hl : idx.large = true
  · rw [Index.tour, if_pos hl, Index.alloc, if_pos hl, searchFrom]
    have hroot := @Reads.parses_parseEntries _ _ _ _ h hw.nodup MAX_INDEX_DEPTH _ _ ⟨[], []⟩ hb hnil
      (by simpa using hcount)
    rw [← append_nil (namesOf idx.root.items)]
    refine hroot.bind (suffix_tourSweep _ _) fun out hseen hlen => ?_
    refine h.spec_sweep hw.nodup _ _ ⟨_, out⟩ hseen ?_
    dsimp only at hlen ⊢
    rw [length_nil] at hlen
    omega
  · have hroot : idx.root.items.filterMap Item.child = [] := by
      have hperm := hw.parents
      rw [hw.small (by simpa using hl)] at hperm
      have hnil := hperm.eq_nil
      simp only [Node.children, append_eq_nil_iff] at hnil
      exact hnil.1.1
    rw [Index.tour, if_neg hl, Index.alloc, if_neg hl, show MAX_INDEX_DEPTH = 15 + 1 from rfl,
      Index.tourNode, tourItems_of_child_none hroot, searchFrom,
      ← append_nil (namesOf idx.root.items)]
    refine (parses_parseEntries_none idx boot hb hcount 15).bind (suffix_refl _)
      fun out hseen _ => ?_
    have hpure : Spec idx boot.indexSize stern ⟨[], out⟩ [] [] (Pure.pure ⟨[], out⟩) :=
      Spec.pure hseen
    exact hpure

/-- The names that are kept: all that are no DOS names, and no others than were found. -/
theorem dropDosAliases_spec (out : List IndexEntry) : (dropDosAliases out).Sublist out ∧
    ∀ e ∈ out, e.nameSpace ≠ DOS_NAMESPACE → e ∈ dropDosAliases out := by
  suffices h : ∀ (out kept : List IndexEntry), ∃ l, out.foldl (fun kept e =>
      if e.nameSpace = DOS_NAMESPACE ∧ ∃ o ∈ kept, o.name = e.name ∧ o.nameSpace ≠ DOS_NAMESPACE
      then kept else kept ++ [e]) kept = kept ++ l ∧ l.Sublist out ∧
      ∀ e ∈ out, e.nameSpace ≠ DOS_NAMESPACE → e ∈ l by
    obtain ⟨l, hl, hsub, hmem⟩ := h out []
    rw [dropDosAliases, hl, nil_append]
    exact ⟨hsub, hmem⟩
  intro out
  induction out with
  | nil => exact fun kept => ⟨[], by simp, List.Sublist.refl _, fun _ h => absurd h not_mem_nil⟩
  | cons e out ih =>
    intro kept
    rw [foldl_cons]
    split
    · rename_i hdos
      obtain ⟨l, hl, hsub, hmem⟩ := ih kept
      refine ⟨l, hl, hsub.cons e, fun e' he' hns => ?_⟩
      obtain rfl | he' := mem_cons.mp he'
      · exact absurd hdos.1 hns
      · exact hmem e' he' hns
    · obtain ⟨l, hl, hsub, hmem⟩ := ih (kept ++ [e])
      refine ⟨e :: l, by rw [hl, append_assoc, singleton_append], hsub.cons_cons e,
        fun e' he' hns => ?_⟩
      obtain rfl | he' := mem_cons.mp he'
      · exact mem_cons_self
      · exact mem_cons_of_mem _ (hmem e' he' hns)

/-- The names found by a search over these numbers. -/
def Index.found (idx : Index) (seen : List ℕ) : List IndexEntry :=
  namesOf idx.root.items ++ seen.flatMap idx.namesAt

theorem mem_found :
    e ∈ idx.found seen ↔ e ∈ namesOf idx.root.items ∨ ∃ v ∈ seen, e ∈ idx.namesAt v := by
  rw [Index.found, mem_append, mem_flatMap]

theorem mem_used_of_mem_namesAt {v : ℕ} (h : e ∈ idx.namesAt v) : v ∈ idx.used := by
  by_contra hv
  rw [Index.namesAt, if_neg hv] at h
  exact not_mem_nil h

theorem mem_entries_of_mem_found (h : e ∈ idx.found seen) : e ∈ idx.entries := by
  refine mem_found.mpr ((mem_found.mp h).imp id ?_)
  rintro ⟨v, -, he⟩
  exact ⟨v, mem_used_of_mem_namesAt he, he⟩

/-- An entry stands in one block only. -/
theorem Index.WellFormed.eq_of_mem_namesAt (hw : idx.WellFormed boot) {v w : ℕ}
    (hv : e ∈ idx.namesAt v) (hw' : e ∈ idx.namesAt w) : v = w := by
  have hdis := (nodup_flatMap.mp (nodup_append.mp hw.distinct).2.1).2
  have hsymm : Std.Symm (Function.onFun List.Disjoint idx.namesAt) := ⟨fun _ _ h => h.symm⟩
  by_contra hne
  exact hdis.forall (mem_used_of_mem_namesAt hv) (mem_used_of_mem_namesAt hw') hne hv hw'

theorem Index.WellFormed.nodup_found (hw : idx.WellFormed boot)
    (hs : seen.Nodup) : (idx.found seen).Nodup := by
  obtain ⟨hroot, hused, hdis⟩ := nodup_append.mp hw.distinct
  refine nodup_append.mpr ⟨hroot, nodup_flatMap.mpr ⟨fun v hv => ?_, ?_⟩, ?_⟩
  · by_cases hu : v ∈ idx.used
    · exact (nodup_flatMap.mp hused).1 v hu
    · rw [Index.namesAt, if_neg hu]
      exact nodup_nil
  · refine hs.imp fun hne e he he' => ?_
    exact hne (hw.eq_of_mem_namesAt he he')
  · rintro e he e' he' rfl
    obtain ⟨v, -, hv⟩ := mem_flatMap.mp he'
    exact hdis e he e (mem_flatMap.mpr ⟨v, mem_used_of_mem_namesAt hv, hv⟩) rfl

/-- **A search that read these numbers lists everything exactly if no block with a Win32 or POSIX
name is missing.** -/
theorem Index.WellFormed.complete_found_iff (hw : idx.WellFormed boot)
    (hs : seen.Nodup) {out : List IndexEntry} (hout : out.Perm (idx.found seen)) :
    Complete idx (ok (dropDosAliases out)) ↔
      ∀ v ∈ idx.used, (∃ e ∈ idx.namesAt v, e.nameSpace ≠ DOS_NAMESPACE) → v ∈ seen := by
  obtain ⟨hsub, hkeep⟩ := dropDosAliases_spec out
  constructor
  · rintro ⟨l, hl, hall, -⟩ v hv ⟨e, he, hns⟩
    obtain rfl : dropDosAliases out = l := Outcome.ok.inj hl
    have hmem : e ∈ dropDosAliases out := by
      refine one_le_count_iff.mp (le_of_eq (hall e ?_ hns).symm)
      exact mem_entries_of_mem_found (mem_found.mpr (.inr ⟨v, mem_singleton_self v, he⟩))
    obtain hroot | ⟨w, hw', hew⟩ := mem_found.mp (hout.mem_iff.mp (hsub.subset hmem))
    · refine absurd rfl ((nodup_append.mp hw.distinct).2.2 e hroot e ?_)
      exact mem_flatMap.mpr ⟨v, hv, he⟩
    · rwa [hw.eq_of_mem_namesAt he hew]
  · intro hall
    have hnodup : (dropDosAliases out).Nodup := hsub.nodup (hout.nodup_iff.mpr (hw.nodup_found hs))
    refine ⟨_, rfl, fun e he hns => ?_, fun e he => ?_⟩
    · refine count_eq_one_of_mem hnodup (hkeep e (hout.mem_iff.mpr (mem_found.mpr ?_)) hns)
      obtain hroot | ⟨v, hv, hev⟩ := mem_found.mp he
      · exact .inl hroot
      · exact .inr ⟨v, hall v hv ⟨e, hev, hns⟩, hev⟩
    · exact mem_entries_of_mem_found (hout.mem_iff.mp (hsub.subset he))

variable {sb : SuperBlock} {record : List UInt8} {runs : RunList}

/-- What `read_dir_entries` does with the record of the directory. -/
theorem Describes.readDirEntriesWith_eq (h : Describes sb record idx runs)
    (hpos : sb.boot.indexSize ≠ 0) : ∃ b, NodeAt b (vcnUnit sb.boot) idx.root ∧
      ∀ read : RunList → ℕ → Outcome VfsError (Option IndexBlock),
        readDirEntriesWith read sb record =
          searchFrom b (idx.alloc (read runs)) >>= fun st => pure (dropDosAliases st.out) := by
  obtain ⟨attrs, root, region, hattrs, hroot, hregion, hnode, halloc⟩ := h.root
  refine ⟨_, hnode, fun read => ?_⟩
  rw [readDirEntriesWith, hattrs, ok_bind, hroot]
  by_cases hl : idx.large = true
  · rw [if_pos hl] at halloc
    obtain ⟨a, b, ha, hres, hruns, hsize, hb, hbits⟩ := halloc
    rw [ha, hb, Index.alloc, if_pos hl]
    change failIf (a.resident = true) _ >>= _ = _
    rw [failIf_neg (by simp [hres]), ok_bind, hruns, ok_bind]
    change readAttrValue sb.device sb.boot record b MAX_BITMAP_BYTES >>= _ = _
    rw [hbits, ok_bind, div_of_ne hpos, ok_bind, hsize, listEntries, hregion, ok_bind, searchFrom,
      bind_bind]
  · rw [if_neg hl] at halloc
    rw [halloc, Index.alloc, if_neg hl]
    change listEntries root.value none = _
    rw [listEntries, hregion, ok_bind, searchFrom, bind_bind]

instance (indexSize v : ℕ) : Decidable (idx.Harmless indexSize v) :=
  inferInstanceAs (Decidable (_ ∨ _ ∧ _))

/-- The reader that fails at what is not harmless. -/
def sternly (idx : Index) (boot : BootSector) (read : ℕ → Outcome VfsError (Option IndexBlock))
    (v : ℕ) : Outcome VfsError (Option IndexBlock) :=
  if idx.Harmless boot.indexSize v then read v else err .ioError

theorem Index.WellFormed.reads_sternly (hw : idx.WellFormed boot) (h : Agrees read idx boot) :
    Reads True (sternly idx boot read) idx boot where
  agrees := {
    used := fun v hv => by
      rw [sternly, if_pos (.inl hv)]
      exact h.used v hv
    behind := fun v hv hfits => by
      rw [sternly, if_pos (.inr ⟨hv, hfits⟩)]
      exact h.behind v hv hfits
    overflow := fun v hv => by
      refine if_neg ?_
      rintro (hu | ⟨-, hfits⟩)
      · have hle : v * boot.indexSize ≤ idx.blocks * boot.indexSize :=
          Nat.mul_le_mul_right _ (le_trans (hw.used_lt v hu).le hw.swept_le)
        have := hw.fits
        omega
      · omega }
  fails _ v hv := ⟨.ioError, if_neg hv⟩

end Listing

/-- **The listing of a directory is complete, whatever the blocks hold that are not in use, exactly
if the search reads no such block and leaves out none with a Win32 or POSIX name.** -/
theorem readDirEntries_complete_iff (sb : SuperBlock) (record : List UInt8) (idx : Index)
    (runs : RunList) (hok : sb.boot.Ok) (hw : idx.WellFormed sb.boot)
    (hd : Describes sb record idx runs) (hread : Agrees (readIndexBlock sb runs) idx sb.boot) :
    (∀ read : RunList → ℕ → Outcome VfsError (Option IndexBlock),
      Agrees (read runs) idx sb.boot → Complete idx (readDirEntriesWith read sb record)) ↔
    idx.Sound sb.boot := by
  have hpos : sb.boot.indexSize ≠ 0 := by
    have := hok.index_ge
    rw [BYTES_PER_SECTOR] at this
    omega
  obtain ⟨b, hb, heq⟩ := hd.readDirEntriesWith_eq hpos
  have hnodup := nodup_tour idx (vcnUnit sb.boot)
  constructor
  · intro hall
    have hstern := hw.reads_sternly hread
    have hcomplete := hall (fun _ => sternly idx sb.boot (readIndexBlock sb runs)) hstern.agrees
    have hspec := hw.spec_searchFrom hstern hb
    rw [heq] at hcomplete
    have hharmless : ∀ v ∈ idx.tour (vcnUnit sb.boot), idx.Harmless sb.boot.indexSize v := by
      by_contra hbad
      obtain ⟨e, he⟩ := hspec.bad trivial hbad
      obtain ⟨l, hl, -⟩ := hcomplete
      rw [he, err_bind] at hl
      cases hl
    obtain ⟨out, new, hr, htour, hperm, -⟩ := hspec.good hharmless
    rw [hr, ok_bind] at hcomplete
    have hfound : out.Perm (idx.found (idx.tour (vcnUnit sb.boot))) := by
      rw [htour]
      simpa [Index.found] using hperm
    exact ⟨hharmless, (hw.complete_found_iff hnodup hfound).mp hcomplete⟩
  · rintro ⟨hharmless, hnames⟩ read hagrees
    have hreads : Reads False (read runs) idx sb.boot := ⟨hagrees, False.elim⟩
    obtain ⟨out, new, hr, htour, hperm, -⟩ := (hw.spec_searchFrom hreads hb).good hharmless
    rw [heq, hr, ok_bind]
    have hfound : out.Perm (idx.found (idx.tour (vcnUnit sb.boot))) := by
      rw [htour]
      simpa [Index.found] using hperm
    exact (hw.complete_found_iff hnodup hfound).mpr hnames

/-! ## Blocks of one cluster -/

section Unit

variable {idx : Index} {boot : BootSector} {seen : List ℕ}

theorem Index.WellFormed.child_used (hw : idx.WellFormed boot) {n : Node}
    (hn : n = idx.root ∨ ∃ v ∈ idx.used, n = idx.node v) {b : ℕ}
    (hb : b ∈ n.items.filterMap Item.child) : 1 * b ∈ idx.used := by
  rw [Nat.one_mul]
  refine hw.parents.mem_iff.mp (mem_append.mpr ?_)
  obtain rfl | ⟨v, hv, rfl⟩ := hn
  · exact .inl (mem_append_left _ hb)
  · exact .inr (mem_flatMap.mpr ⟨v, hv, mem_append_left _ hb⟩)

theorem mem_visit {tour : Node → List ℕ → List ℕ} (h : ∀ n seen, seen <:+ tour n seen) (v : ℕ)
    (seen : List ℕ) : v ∈ idx.visit tour v seen := by
  rw [Index.visit]
  split
  · assumption
  · split
    · exact (h _ _).subset mem_cons_self
    · exact mem_cons_self

/-- The sweep comes to every block that is marked. -/
theorem mem_tourSweep {unit v : ℕ} (hbit : blockUsed idx.bitmap v = true) :
    ∀ {vs : List ℕ} (seen : List ℕ), v ∈ vs → v ∈ idx.tourSweep unit vs seen
  | [], _, hv => absurd hv not_mem_nil
  | w :: vs, seen, hv => by
    rw [Index.tourSweep]
    obtain rfl | hv := mem_cons.mp hv
    · refine (suffix_tourSweep vs _).subset ?_
      rw [if_pos hbit]
      exact mem_visit (suffix_tourNode _) v seen
    · exact mem_tourSweep hbit _ hv

/-- If every pointer in front of a node's last one, read as a number, is harmless, and the sweep
reaches all blocks in use, the listing is sound. -/
theorem Index.WellFormed.sound_of_harmless (hw : idx.WellFormed boot)
    (hchild : ∀ n, (n = idx.root ∨ ∃ v ∈ idx.used, n = idx.node v) →
      ∀ b ∈ n.items.filterMap Item.child, idx.Harmless boot.indexSize (vcnUnit boot * b))
    (hcap : ∀ v ∈ idx.used, v ≤ MAX_INDEX_BLOCKS) (hpos : idx.large = true → 0 < idx.swept) :
    idx.Sound boot := by
  have hP : ∀ v seen, idx.Harmless boot.indexSize v → v ∉ seen →
      (∀ w ∈ seen, idx.Harmless boot.indexSize w) →
      ∀ w ∈ v :: seen, idx.Harmless boot.indexSize w :=
    fun _ _ hv _ hs => forall_mem_cons.mpr ⟨hv, hs⟩
  have hQ : ∀ v ∈ idx.used, ∀ b ∈ (idx.node v).items.filterMap Item.child,
      idx.Harmless boot.indexSize (vcnUnit boot * b) :=
    fun v hv b hb => hchild _ (.inr ⟨v, hv, rfl⟩) b hb
  have hroot := tourNode_inv hP hQ MAX_INDEX_DEPTH [] (hchild _ (.inl rfl))
    fun _ h => absurd h not_mem_nil
  by_cases hl : idx.large = true
  · have hlt : ∀ v ∈ List.range (min (idx.swept - 1) MAX_INDEX_BLOCKS + 1), v < idx.swept := by
      intro v hv
      have := mem_range.mp hv
      have := hpos hl
      omega
    rw [Index.Sound, Index.tour, if_pos hl]
    refine ⟨fun v hv => tourSweep_inv hP hQ _
      (fun w hw' hbit => .inl ((hw.marked w (hlt w hw')).mp hbit)) hroot v hv, fun v hv _ => ?_⟩
    have hv' := hw.used_lt v hv
    refine mem_tourSweep ((hw.marked v hv').mpr hv) _ (mem_range.mpr ?_)
    have := hcap v hv
    omega
  · rw [Index.Sound, Index.tour, if_neg hl]
    refine ⟨hroot, fun v hv _ => ?_⟩
    rw [hw.small (by simpa using hl)] at hv
    exact absurd hv not_mem_nil

/-- **If a block is one unit of the pointers, and the sweep reaches all blocks in use, the listing
is sound.** -/
theorem Index.WellFormed.sound_of_vcnUnit (hw : idx.WellFormed boot) (hunit : vcnUnit boot = 1)
    (hcap : ∀ v ∈ idx.used, v ≤ MAX_INDEX_BLOCKS) (hpos : idx.large = true → 0 < idx.swept) :
    idx.Sound boot :=
  hw.sound_of_harmless (fun _ hn _ hb => .inl (hunit ▸ hw.child_used hn hb)) hcap hpos

end Unit

/-! ## A directory with blocks of two clusters

The root holds `b`, block 1 holds `a`, which comes before it, and block 0 holds `c`.  The pointer to
block 1 is 2, since a block is two clusters; block 2 of the allocation is not in use and empty. -/

def i30Units : List UInt8 := [0x24, 0, 0x49, 0, 0x33, 0, 0x30, 0]

/-- A resident attribute of the index, of 0x20 + `room` bytes. -/
def residentI30 (t : UInt8) (room : ℕ) (value : List UInt8) : List UInt8 :=
  [t, 0, 0, 0, UInt8.ofNat (0x20 + room), 0, 0, 0, 0, 4, 0x18, 0, 0, 0, 0, 0,
   UInt8.ofNat value.length, 0, 0, 0, 0x20, 0, 0, 0] ++ i30Units ++ fit room value

/-- An entry of an index. -/
def entryBytes (len keyLen flags : UInt8) (body : List UInt8) : List UInt8 :=
  fit len.toNat ([0, 0, 0, 0, 0, 0, 0, 0, len, 0, keyLen, 0, flags, 0, 0, 0] ++ body)

/-- The key of a file with a Win32 name of one character. -/
def keyBytes (c : UInt8) : List UInt8 := fit 0x40 [] ++ [1, 1, c, 0]

def fileNamed (c : Char) : FileName := ⟨0, 0, 0, 0, 1, [c]⟩

def rootBytes : List UInt8 :=
  fit 0x10 [] ++ fit 0x10 [0x10, 0, 0, 0, 0x88] ++
    entryBytes 0x60 0x44 1 (fit 0x48 (keyBytes 0x62) ++ [2]) ++ entryBytes 0x18 0 3 []

/-- The first sector of a block with one name. -/
def blockSector (c : UInt8) : List (ℕ × List UInt8) :=
  [(0, [0x49, 0x4E, 0x44, 0x58]), (0x04, [0x28, 0, 3, 0]), (0x18, [0x18, 0, 0, 0, 0x80, 0, 0, 0]),
   (0x30, entryBytes 0x58 0x44 0 (keyBytes c) ++ entryBytes 0x10 0 2 [])]

def dirRecord : List UInt8 :=
  sectorOf (recordOf (residentI30 0x90 0x98 rootBytes ++
    (fit 0x20 [0xA0, 0, 0, 0, 0x50, 0, 0, 0, 1, 4, 0x40] ++ fit 0x10 [0x48] ++ fit 0x10 [0, 0x0C] ++
      i30Units ++ fit 8 [0x11, 6, 2]) ++
    residentI30 0xB0 8 [3]))

def dirBoot : BootSector := ⟨16, 0, 1, 512, 512, 1024, 16⟩

def dirRuns : RunList := [⟨0, 2, 6⟩]

def dirVolume : SuperBlock where
  device := deviceOf [[], [], blockSector 0x63, [], blockSector 0x61, [], [], [], [], [], [], [],
    [], [], [], []]
  boot := dirBoot
  mftRuns := []

def dirIndex : Index where
  root := ⟨[⟨0, fileNamed 'b', some 1⟩], some 0⟩
  large := true
  used := [0, 1]
  node v := ⟨[⟨0, fileNamed (if v = 0 then 'c' else 'a'), none⟩], none⟩
  swept := 3
  blocks := 3
  bitmap := [3]

theorem dirBoot_ok : dirBoot.Ok := by
  constructor <;> decide

theorem dirIndex_wellFormed : dirIndex.WellFormed dirBoot where
  nodup := by decide
  used_lt := by decide
  swept_le := le_rfl
  fits := by decide
  small := nofun
  marked := by decide
  parents := by decide
  levels := ⟨fun _ => 1, by decide, by decide⟩
  distinct := by decide
  count := by decide

theorem sound_of_vcnUnit_one : dirIndex.Sound ⟨16, 0, 2, 512, 512, 1024, 16⟩ :=
  Index.WellFormed.sound_of_vcnUnit { dirIndex_wellFormed with fits := by decide } (by decide)
    (by decide) (by decide)

/-- The bytes of a node with one entry. -/
theorem holds_single {data : List UInt8} {stop unit pos : ℕ} {it : Item} {last : Option ℕ}
    (next : ℕ) (hnext : pos + natAt 2 data (pos + 8) = next) (hkey : natAt 2 data (pos + 10) = 0x44)
    (len : 0x54 ≤ natAt 2 data (pos + 8)) (inside : next ≤ stop)
    (flag : natAt 2 data (pos + 12) &&& INDEX_ENTRY_LAST = 0)
    (pointer : PointerAt data unit pos it.child) (ref : natAt 8 data pos = it.ref)
    (file : parseFileName ((data.take (pos + 0x54)).drop (pos + 0x10)) = ok it.file)
    (len' : 0x10 ≤ natAt 2 data (next + 8)) (inside' : next + natAt 2 data (next + 8) ≤ stop)
    (flag' : natAt 2 data (next + 12) &&& INDEX_ENTRY_LAST ≠ 0)
    (pointer' : PointerAt data unit next last) : Holds data stop unit pos [it] last := by
  refine .item (by omega) (by omega) flag pointer ref (by omega) ?_ ?_
  · rw [hkey]
    exact file
  · rw [hnext]
    exact .last len' inside' flag' pointer'

/-- The bytes of block 0 or 1. -/
def dirBlock (c : UInt8) : IndexBlock := ⟨sectorOf (blockSector c) ++ sectorOf [], 0x30, 0x98⟩

theorem nodeAt_dirBlock : ∀ v ∈ dirIndex.used,
    NodeAt (dirBlock (if v = 0 then 0x63 else 0x61)) (vcnUnit dirBoot) (dirIndex.node v) := by
  intro v hv
  obtain rfl | rfl : v = 0 ∨ v = 1 := by simpa [dirIndex] using hv
  all_goals
    refine ⟨by constructor <;> decide +kernel,
      holds_single 0x88 ?_ ?_ ?_ ?_ ?_ ?_ ?_ ?_ ?_ ?_ ?_ ?_⟩
    all_goals decide +kernel

theorem nodeAt_rootBytes : NodeAt ⟨rootBytes, 0x20, 0x98⟩ (vcnUnit dirBoot) dirIndex.root := by
  refine ⟨by constructor <;> decide +kernel, holds_single 0x80 ?_ ?_ ?_ ?_ ?_ ?_ ?_ ?_ ?_ ?_ ?_ ?_⟩
  all_goals decide +kernel

/-- The runs end with the third block. -/
theorem readIndexBlock_behind {v : ℕ} (hv : 3 ≤ v) (hfits : v * 1024 < 2 ^ 64) :
    readIndexBlock dirVolume dirRuns v = ok none := by
  have hfind : dirRuns.find (v * 1024) 512 = ok none := by
    rw [RunList.find, div_of_ne (by decide), ok_bind, show v * 1024 / 512 = 2 * v by omega]
    simp only [dirRuns, takeWhile_cons, Nat.zero_le, decide_true, if_true, takeWhile_nil,
      length_singleton, Nat.one_ne_zero, if_false, Nat.sub_self]
    rw [index_of_lt (by decide), ok_bind, getElem_cons_zero, if_neg (by simp; omega), pure_eq]
  have hread : readFileAt dirVolume.device dirVolume.boot dirRuns (v * 1024) 1024 = ok [] := by
    rw [readFileAt, show dirVolume.boot.clusterSize = ok 512 by decide, ok_bind, readFileFrom,
      if_neg (by decide), hfind]
    rfl
  rw [readIndexBlock, show dirVolume.boot.indexSize = 1024 from rfl, failIf_neg (by omega), ok_bind,
    hread, ok_bind, if_pos (by decide), pure_eq]

theorem dirVolume_agrees : Agrees (readIndexBlock dirVolume dirRuns) dirIndex dirBoot where
  used v hv := by
    refine ⟨_, ?_, nodeAt_dirBlock v hv⟩
    obtain rfl | rfl : v = 0 ∨ v = 1 := by simpa [dirIndex] using hv
    all_goals decide +kernel
  behind _ := readIndexBlock_behind
  overflow v hv := by
    rw [readIndexBlock, show dirVolume.boot = dirBoot from rfl, failIf_pos hv, err_bind]

theorem dirRecord_describes : Describes dirVolume dirRecord dirIndex dirRuns where
  root := ⟨[⟨0x90, some ['$', 'I', '3', '0'], 0, true, rootBytes, 0, 0, 0, 0, 0x98, 0x98⟩,
      ⟨0xA0, some ['$', 'I', '3', '0'], 0, false, [], 0, 0, 0x138, 0x140, 3072, 0⟩,
      ⟨0xB0, some ['$', 'I', '3', '0'], 0, true, [3], 0, 0, 0, 0, 1, 1⟩], _, (0x20, 0x98),
    by decide +kernel, rfl, by decide +kernel, nodeAt_rootBytes, _, _, rfl, rfl, by decide +kernel,
    by decide +kernel, rfl, by decide +kernel⟩

/-- The pointer to block 1 is taken for block 2: the directory cannot be listed. -/
theorem dirVolume_incomplete :
    dirIndex.WellFormed dirVolume.boot ∧ Describes dirVolume dirRecord dirIndex dirRuns ∧
    Agrees (readIndexBlock dirVolume dirRuns) dirIndex dirVolume.boot ∧
    readDirEntries dirVolume dirRecord = err .ioError ∧
    ¬ Complete dirIndex (readDirEntries dirVolume dirRecord) := by
  have herr : readDirEntries dirVolume dirRecord = err .ioError := by decide +kernel
  refine ⟨dirIndex_wellFormed, dirRecord_describes, dirVolume_agrees, herr, ?_⟩
  rintro ⟨l, hl, -⟩
  cases herr.symm.trans hl

/-! …and a directory of one name, without blocks. -/

def flatVolume : SuperBlock := ⟨deviceOf [], dirBoot, []⟩

def flatIndex : Index :=
  ⟨⟨[⟨0, fileNamed 'b', none⟩], none⟩, false, [], fun _ => ⟨[], none⟩, 0, 0, []⟩

def flatRoot : List UInt8 :=
  fit 0x10 [] ++ fit 0x10 [0x10, 0, 0, 0, 0x78] ++
    entryBytes 0x58 0x44 0 (keyBytes 0x62) ++ entryBytes 0x10 0 2 []

def flatRecord : List UInt8 := sectorOf (recordOf (residentI30 0x90 0x88 flatRoot))

theorem flatIndex_wellFormed : flatIndex.WellFormed dirBoot where
  nodup := by decide
  used_lt := by decide
  swept_le := le_rfl
  fits := by decide
  small := fun _ => rfl
  marked := by decide
  parents := by decide
  levels := ⟨fun _ => 1, by decide, by decide⟩
  distinct := by decide
  count := by decide

theorem nodeAt_flatRoot : NodeAt ⟨flatRoot, 0x20, 0x88⟩ (vcnUnit dirBoot) flatIndex.root := by
  refine ⟨by constructor <;> decide +kernel, holds_single 0x78 ?_ ?_ ?_ ?_ ?_ ?_ ?_ ?_ ?_ ?_ ?_ ?_⟩
  all_goals decide +kernel

theorem flatRecord_describes : Describes flatVolume flatRecord flatIndex [] where
  root := ⟨[⟨0x90, some ['$', 'I', '3', '0'], 0, true, flatRoot, 0, 0, 0, 0, 0x88, 0x88⟩], _,
    (0x20, 0x88), by decide +kernel, rfl, by decide +kernel, nodeAt_flatRoot, rfl⟩

theorem flatVolume_agrees : Agrees (readIndexBlock flatVolume []) flatIndex dirBoot where
  used := nofun
  behind v _ hv := by
    rw [readIndexBlock, show flatVolume.boot = dirBoot from rfl, failIf_neg (by omega)]
    rfl
  overflow v hv := by
    rw [readIndexBlock, show flatVolume.boot = dirBoot from rfl, failIf_pos hv, err_bind]

/-- The one directory is not listed completely, the other is. -/
theorem readDirEntries_complete_iff_two :
    (¬ ∀ read : RunList → ℕ → Outcome VfsError (Option IndexBlock),
      Agrees (read dirRuns) dirIndex dirVolume.boot →
        Complete dirIndex (readDirEntriesWith read dirVolume dirRecord)) ∧
    ∀ read : RunList → ℕ → Outcome VfsError (Option IndexBlock),
      Agrees (read []) flatIndex flatVolume.boot →
        Complete flatIndex (readDirEntriesWith read flatVolume flatRecord) := by
  constructor
  · rw [readDirEntries_complete_iff dirVolume dirRecord dirIndex dirRuns dirBoot_ok
      dirIndex_wellFormed dirRecord_describes dirVolume_agrees]
    exact fun h => absurd (h.1 2 (by decide +kernel)) (by decide +kernel)
  · rw [readDirEntries_complete_iff flatVolume flatRecord flatIndex [] dirBoot_ok
      flatIndex_wellFormed flatRecord_describes flatVolume_agrees]
    refine flatIndex_wellFormed.sound_of_harmless (fun n hn b hb => ?_) (by decide) (by decide)
    obtain rfl | ⟨v, hv, -⟩ := hn
    · simp [flatIndex] at hb
    · exact absurd hv not_mem_nil

end Bedrock.Ntfs
