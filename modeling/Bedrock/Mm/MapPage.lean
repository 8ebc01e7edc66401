import Bedrock.Mm.PageTree

/-!
# Mm/MapPage — one page mapped, one page unmapped

A leaf entry is written at the end of one path: lookups through it find the new entry, all others
what they found before.  Around that write `map_4k` and `map_2m` make tables first, and unmapping
takes tables that became empty out again; neither shows in any lookup but by the level at which the
unmapped ones end.
-/

namespace Bedrock

open Radix BitmapAllocator List

variable {S : Scope} {m m' : Machine} {r r' f t : ℕ} {p q : List (Fin 512)} {i : Fin 512} {e : Pte}

/-! ## Writing a leaf -/

/-- Entry `e` stands at the end of the path `p`, and nothing else is seen to change. -/
structure Replaced (S : Scope) (r : ℕ) (p : List (Fin 512)) (e : Pte)
    (mem mem' : ℕ → Fin 512 → Pte) : Prop where
  self : ∀ s, (p ++ s).length = 4 → lookup Pte.next mem' r (p ++ s) = some (s.length, e)
  other : ∀ ⦃r' q⦄, S.Has r' q → q.length = 4 → ¬(r' = r ∧ p <+: q) →
    leafOf mem' r' q = leafOf mem r' q

/-- Entry `i` of table `t` at `p` is a leaf and may become the leaf `e`. -/
structure LeafSlot (mem : ℕ → Fin 512 → Pte) (S : Scope) (r : ℕ) (p : List (Fin 512)) (t : ℕ)
    (i : Fin 512) (e : Pte) : Prop where
  table : TableAt mem S r p t
  dom : Dom S.low (p ++ [i])
  entry : e = 0#64 ∨ e.isSet ptePresent = true
  level : p.length = 3 ∨ e.next = none ∧ (mem t i).next = none
  top : p = [] → e.isSet ptePs = false

variable {mem mem' : ℕ → Fin 512 → Pte}

namespace Tree

/-- **Writing a leaf changes no walk**… -/
theorem walk_leaf (h : Tree mem S) (hs : LeafSlot mem S r p t i e) (hq : S.Has r' q)
    (hl : q.length ≤ 3) : walk Pte.next (write mem t i e) r' q = walk Pte.next mem r' q := by
  by_cases hpre : r' = r ∧ p ++ [i] <+: q
  · obtain ⟨rfl, s, rfl⟩ := hpre
    obtain h3 | ⟨he, hold⟩ := hs.level
    · simp only [length_append, length_singleton] at hl; omega
    · rw [walk_append, walk_concat, h.forest.walk_write_self hs.table e, walk_append, walk_concat,
        hs.table.walk_eq]
      simp [he, hold]
  · exact h.forest.walk_write hs.table hq.root hq.dom (by omega) hpre e

/-- …and the lookups at its own path only. -/
theorem replaced_leaf (h : Tree mem S) (hs : LeafSlot mem S r p t i e) :
    Replaced S r (p ++ [i]) e mem (write mem t i e) where
  self s hl := by
    rw [append_assoc, singleton_append]
    obtain h3 | ⟨he, -⟩ := hs.level
    · obtain rfl : s = [] := eq_nil_of_length_eq_zero (by
        simp only [length_append, length_singleton] at hl; omega)
      rw [lookup_append (h.forest.walk_write_self hs.table e), lookup_singleton, write_self,
        length_nil]
    · exact h.forest.lookup_write_self hs.table he s
  other r' q hq hl hne := leafOf_congr
    (h.forest.lookup_write hs.table hq.root hq.dom (le_of_eq hl) hne e)

theorem tableAt_leaf (h : Tree mem S) (hs : LeafSlot mem S r p t i e) :
    TableAt (write mem t i e) S r' q f ↔ TableAt mem S r' q f := by
  constructor <;> intro hq
  · exact (At.congr (h.walk_leaf hs hq.has hq.length_le)).mp hq
  · exact (At.congr (h.walk_leaf hs hq.has hq.length_le)).mpr hq

/-- **Writing an unused or present entry that moves no walk keeps the tree.** -/
theorem written (h : Tree mem S) (ha : TableAt mem S r p t)
    (he : e = 0#64 ∨ e.isSet ptePresent = true) (htop : p = [] → e.isSet ptePs = false)
    (hat : ∀ ⦃r' q f⦄, TableAt (write mem t i e) S r' q f → TableAt mem S r' q f) :
    Tree (write mem t i e) S := by
  refine ⟨h.forest.of_le hat, fun r' q f hq j hj => ?_, fun r' hr j hj => ?_⟩
  · by_cases hc : f = t ∧ j = i
    · obtain ⟨rfl, rfl⟩ := hc
      rw [write_self]
      exact he
    · rw [write_of_ne e hc]
      exact h.entry (hat hq) j hj
  · by_cases hc : r' = t ∧ j = i
    · obtain ⟨rfl, rfl⟩ := hc
      obtain ⟨-, rfl⟩ := h.forest ha (At.nil hr)
      rw [write_self]
      exact htop rfl
    · rw [write_of_ne e hc]
      exact h.top r' hr j hj

theorem write_leaf (h : Tree mem S) (hs : LeafSlot mem S r p t i e) : Tree (write mem t i e) S :=
  h.written hs.table hs.entry hs.top fun _ _ _ => (h.tableAt_leaf hs).mp

end Tree

namespace PageTree

theorem write_leaf (h : PageTree m S) (hs : LeafSlot m.mem S r p t i e) :
    PageTree (m.writePte t i e) S :=
  ⟨h.toTree.write_leaf hs, h.sound, fun _ _ _ hq => h.used ((h.toTree.tableAt_leaf hs).mp hq),
    fun c hc => ⟨(h.clones c hc).1, (h.clones c hc).2.imp_right fun hn r' q hq =>
      hn r' q ((h.toTree.tableAt_leaf hs).mp hq)⟩⟩

/-! ## `map_to` -/

section MapTo

variable {insert e₀ : Pte} {k : ℕ} (h : PageTree m S) (hi : LinkFlags insert) (hp : p.length ≤ 3)
  (hd : S.Has r (p ++ [i])) (hl : lookup Pte.next m.mem r (p ++ [i]) = some (k, e₀))
  (hk : k ≠ 0 → e₀ = 0#64)

include h hi hp hd hl hk

theorem tablesMade : TablesMade S insert r m [] r p i k e₀ :=
  createTables_spec hi h (At.nil hd.root) hd.dom (by simpa using hp) hl hk

/-- Mapping fails if a table frame is missing… -/
theorem mapTo_of_drawn_none (ha : drawn k m.alloc = none) :
    m.mapTo r p i e insert = .error .frameAllocationFailed := by
  have hmade := h.tablesMade hi hp hd hl hk
  rw [TablesMade, ha] at hmade
  rw [Machine.mapTo, hmade]

/-- …or if the page is mapped already… -/
theorem mapTo_of_mapped (he0 : e₀ ≠ 0#64) : ∃ err, m.mapTo r p i e insert = .error err := by
  have hmade := h.tablesMade hi hp hd hl hk
  rw [TablesMade] at hmade
  cases ha : drawn k m.alloc with
  | none => exact ⟨_, h.mapTo_of_drawn_none hi hp hd hl hk ha⟩
  | some a =>
    rw [ha] at hmade
    obtain ⟨t, m1, hok, -, -, hz, -⟩ := hmade
    exact ⟨.pageAlreadyMapped, by rw [Machine.mapTo, hok]; simp [hz, he0]⟩

/-- …and writes its leaf otherwise. -/
theorem mapTo_of_unused (he0 : e₀ = 0#64) {a : BitmapAllocator} (ha : drawn k m.alloc = some a) :
    ∃ t m1, Prepared S r m p m1 ∧ TableAt m1.mem S r p t ∧ m1.mem t i = 0#64 ∧ m1.alloc = a ∧
      m.mapTo r p i e insert = .ok (m1.writePte t i e) := by
  have hmade := h.tablesMade hi hp hd hl hk
  rw [TablesMade, ha] at hmade
  obtain ⟨t, m1, hok, hprep, hat, hz, hal⟩ := hmade
  refine ⟨t, m1, hprep, hat, hz.trans he0, hal, ?_⟩
  rw [Machine.mapTo, hok]
  simp [hz, he0]

end MapTo

/-- The clones of a root are none of its tables, so they may take over its upper half. -/
theorem sync (h : PageTree m (Scope.whole r)) : PageTree (m.syncCloneHalf r) (Scope.whole r) ∧
    (∀ q : List (Fin 512), q.length ≤ 4 →
      walk Pte.next (m.syncCloneHalf r).mem r q = walk Pte.next m.mem r q) ∧
    ∀ q : List (Fin 512), q.length ≤ 4 →
      lookup Pte.next (m.syncCloneHalf r).mem r q = lookup Pte.next m.mem r q := by
  have hsame : ∀ r' q f, TableAt m.mem (Scope.whole r) r' q f → ∀ j,
      Dom (Scope.whole r).low (q ++ [j]) → (m.syncCloneHalf r).mem f j = m.mem f j := by
    intro r' q f hq j _
    simp only [Machine.syncCloneHalf]
    split_ifs with hc
    · obtain hf | hf := (h.clones f hc.1).2
      · rw [show f = r from hf]
      · exact absurd hq (hf r' q)
    · rfl
  obtain ⟨htree, hwalk, hlook⟩ := h.toTree.congr hsame
  have hat : ∀ ⦃r' q f⦄, TableAt (m.syncCloneHalf r).mem (Scope.whole r) r' q f →
      TableAt m.mem (Scope.whole r) r' q f := fun r' q f hq =>
    (At.congr (hwalk r' q hq.has (Nat.le_succ_of_le hq.length_le))).mp hq
  exact ⟨⟨htree, h.sound, fun r' q f hq => h.used (hat hq), fun c hc => ⟨(h.clones c hc).1,
    (h.clones c hc).2.imp_right fun hn r' q hq => hn r' q (hat hq)⟩⟩,
    fun q => hwalk r q (Scope.has_whole r q), fun q => hlook r q (Scope.has_whole r q)⟩

end PageTree

/-! ## `map_4k` and `map_2m` -/

/-- A page is mapped: the tables on its way are there and its leaf is `e`. -/
structure Mapped (S : Scope) (r : ℕ) (p : List (Fin 512)) (i : Fin 512) (e : Pte)
    (m m' : Machine) : Prop where
  tree : PageTree m' S
  replaced : Replaced S r (p ++ [i]) e m.mem m'.mem
  walks : ∀ ⦃r' q⦄, S.Has r' q → q.length ≤ 3 →
    ((walk Pte.next m'.mem r' q).isSome ↔
      (walk Pte.next m.mem r' q).isSome ∨ r' = r ∧ q <+: p)
  rest : m' = { m with mem := m'.mem, alloc := m'.alloc }

/-- Tables are made, then a leaf is written. -/
theorem Mapped.of_prepared {m1 : Machine} (hprep : Prepared S r m p m1)
    (hs : LeafSlot m1.mem S r p t i e) : Mapped S r p i e m (m1.writePte t i e) where
  tree := hprep.tree.write_leaf hs
  replaced :=
    have hr := hprep.tree.toTree.replaced_leaf hs
    ⟨hr.self, fun _ _ hq hl hne => (hr.other hq hl hne).trans (hprep.kept hq hl)⟩
  walks r' q hq hl := by
    rw [Machine.writePte_mem, hprep.tree.toTree.walk_leaf hs hq hl, hprep.walks hq hl]
  rest := by rw [hprep.rest]; rfl

/-- …and the clones of the root may follow. -/
theorem Mapped.sync (h : Mapped (Scope.whole r) r p i e m m') :
    Mapped (Scope.whole r) r p i e m (m'.syncCloneHalf r) := by
  obtain ⟨htree, hwalk, hlook⟩ := h.tree.sync
  refine ⟨htree, ⟨fun s hl => ?_, fun r' q hq hl hne => ?_⟩, fun r' q hq hl => ?_, ?_⟩
  · rw [hlook _ (le_of_eq hl), h.replaced.self s hl]
  · obtain rfl : r' = r := hq.root
    exact (leafOf_congr (hlook q (le_of_eq hl))).trans (h.replaced.other hq hl hne)
  · obtain rfl : r' = r := hq.root
    rw [hwalk q (by omega), h.walks hq hl]
  · rw [h.rest]
    rfl

/-- A leaf entry of the right kind for its level. -/
structure LeafFor (p : List (Fin 512)) (e : Pte) : Prop where
  present : e.isSet ptePresent = true
  level : p.length = 3 ∨ p.length < 3 ∧ e.isSet ptePs = true
  notTop : p ≠ []

theorem LeafFor.slot (he : LeafFor p e) {mem : ℕ → Fin 512 → Pte} (ha : TableAt mem S r p t)
    (hd : Dom S.low (p ++ [i])) (hz : mem t i = 0#64) : LeafSlot mem S r p t i e where
  table := ha
  dom := hd
  entry := Or.inr he.present
  level := he.level.imp_right fun h => ⟨Pte.next_of_ps h.2, by rw [hz, Pte.next_zero]⟩
  top hp := absurd hp he.notTop

namespace PageTree

section MapPage

variable {insert e₀ : Pte} {k va : ℕ} (h : PageTree m S) (hi : LinkFlags insert)
  (he : LeafFor p e) (hd : S.Has r (p ++ [i]))
  (hl : lookup Pte.next m.mem r (p ++ [i]) = some (k, e₀)) (hk : k ≠ 0 → e₀ = 0#64)

include h hi he hd hl hk

/-- **Mapping a page panics if a table frame is missing or the page is mapped already**… -/
theorem mapPage_eq_none (hbad : drawn k m.alloc = none ∨ e₀ ≠ 0#64) :
    m.mapPage r va p i e insert = none := by
  have hp : p.length ≤ 3 := by rcases he.level with h | h <;> omega
  rw [Machine.mapPage]
  obtain ha | he0 := hbad
  · rw [h.mapTo_of_drawn_none hi hp hd hl hk ha]
  · obtain ⟨err, herr⟩ := h.mapTo_of_mapped (e := e) hi hp hd hl hk he0
    rw [herr]

/-- **…and maps it otherwise.** -/
theorem mapPage_spec (hz : e₀ = 0#64) {a : BitmapAllocator} (ha : drawn k m.alloc = some a)
    (hsync : m.newHigherHalfSlot r va = false ∨ S = Scope.whole r) :
    ∃ m', m.mapPage r va p i e insert = some m' ∧ Mapped S r p i e m m' ∧ m'.alloc = a := by
  have hp : p.length ≤ 3 := by rcases he.level with h | h <;> omega
  obtain ⟨t, m1, hprep, hat, hz1, hal, hok⟩ := h.mapTo_of_unused (e := e) hi hp hd hl hk hz ha
  have hmap := Mapped.of_prepared hprep (he.slot hat hd.dom hz1)
  rw [Machine.mapPage, hok]
  by_cases hn : m.newHigherHalfSlot r va = true
  · obtain rfl : S = Scope.whole r := hsync.resolve_left (by simp [hn])
    exact ⟨_, rfl, by rw [if_pos hn]; exact hmap.sync, by rw [if_pos hn]; exact hal⟩
  · exact ⟨_, rfl, by rw [if_neg hn]; exact hmap, by rw [if_neg hn]; exact hal⟩

end MapPage

/-- The leaf entry of a 4 KiB page. -/
theorem leafFor_dir {pa : ℕ} (hpa : pa % 4096 = 0) (hb : pa < 2 ^ 52) (va : ℕ)
    (flags : PageFlags) : LeafFor (dir va) (Pte.ofFrame pa (pageFlagsToX86 flags)) where
  present := by
    rw [Pte.isSet_ofFrame hpa hb (by decide)]
    exact (pageFlagsToX86_spec flags).1
  level := Or.inl rfl
  notTop := by simp [dir]

/-- …and of a 2 MiB page. -/
theorem leafFor_dirHuge {pa : ℕ} (hpa : pa % 2 ^ 21 = 0) (hb : pa < 2 ^ 52) (va : ℕ)
    (flags : PageFlags) :
    LeafFor (dirHuge va) (Pte.ofFrame pa (pageFlagsToX86 flags ||| ptePs)) where
  present := by
    rw [Pte.isSet_ofFrame (by omega) hb (by decide), Pte.isSet_or, (pageFlagsToX86_spec flags).1,
      Bool.true_or]
  level := Or.inr ⟨by simp [dirHuge], by
    rw [Pte.isSet_ofFrame (by omega) hb (by decide), Pte.isSet_or,
      show ptePs.isSet ptePs = true by decide, Bool.or_true]⟩
  notTop := by simp [dirHuge]

section Map4k

variable {va pa k : ℕ} {e₀ : Pte} (h : PageTree m S) (hva : va % 4096 = 0) (hpa : pa % 4096 = 0)
  (hc : isCanonical va = true) (hb : pa < 2 ^ 52) (hd : S.Has r (leafPath va))

theorem map4k_eq_mapPage (m : Machine) (r : ℕ) (hva : va % 4096 = 0) (hpa : pa % 4096 = 0)
    (hc : isCanonical va = true) (hb : pa < 2 ^ 52) (flags : PageFlags) :
    m.map4k r va pa flags = m.mapPage r va (dir va) (index 12 va)
      (Pte.ofFrame pa (pageFlagsToX86 flags)) (tableFlagsFor (pageFlagsToX86 flags)) := by
  simp only [Machine.map4k]
  rw [if_neg (by omega), if_neg (by simpa [hc] using hb)]

include h hva hpa hc hb hd

/-- **`map_4k` panics if a table frame is missing or the page is mapped already**… -/
theorem map4k_eq_none (hl : lookup Pte.next m.mem r (leafPath va) = some (k, e₀))
    (hk : k ≠ 0 → e₀ = 0#64) (hbad : drawn k m.alloc = none ∨ e₀ ≠ 0#64) (flags : PageFlags) :
    m.map4k r va pa flags = none := by
  rw [map4k_eq_mapPage m r hva hpa hc hb]
  exact h.mapPage_eq_none (linkFlags_tableFlagsFor _) (leafFor_dir hpa hb va flags) hd hl hk hbad

/-- **…and maps the page otherwise.** -/
theorem map4k_spec (hl : lookup Pte.next m.mem r (leafPath va) = some (k, 0#64))
    {a : BitmapAllocator} (ha : drawn k m.alloc = some a)
    (hsync : m.newHigherHalfSlot r va = false ∨ S = Scope.whole r) (flags : PageFlags) :
    ∃ m', m.map4k r va pa flags = some m' ∧ m'.alloc = a ∧
      Mapped S r (dir va) (index 12 va) (Pte.ofFrame pa (pageFlagsToX86 flags)) m m' := by
  obtain ⟨m', hok, hmap, hal⟩ := h.mapPage_spec (linkFlags_tableFlagsFor _)
    (leafFor_dir hpa hb va flags) hd hl (fun _ => rfl) rfl ha hsync
  exact ⟨m', (map4k_eq_mapPage m r hva hpa hc hb flags).trans hok, hal, hmap⟩

end Map4k

end PageTree

end Bedrock
