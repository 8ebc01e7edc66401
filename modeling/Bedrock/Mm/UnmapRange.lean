import Bedrock.Mm.MapPage

/-!
# Mm/UnmapRange — clearing the pages of a range

A range unmap clears the 4 KiB leaves of its pages one by one.  When it leaves a 2 MiB group it
takes out the tables of that group that became empty (`Pruned`: the page map is the same).

    pages   v₀ v₁ v₂ | v₃ v₄ | v₅          one group per page table
    tables  ---------▸ prune -▸ prune -▸   the last group after the loop

So the whole range comes to `Cleared`: the 4 KiB leaves of its pages are gone, huge ones and all
other pages stay.
-/

namespace Bedrock

open Radix BitmapAllocator List Option
open Machine (UnmapLoop noGroup pendingCapacity)

variable {S : Scope} {mem mem' mem'' : ℕ → Fin 512 → Pte} {m m' : Machine} {r r' f g t va : ℕ}
  {p q : List (Fin 512)} {i : Fin 512} {e : Pte}

/-! ## One page -/

/-- The page is mapped by a 4 KiB leaf, which `unmap` takes out. -/
def removable : Option (ℕ × Pte) → Bool
  | some (0, e) => !e.isSet ptePs
  | _ => false

/-- The page map without the 4 KiB leaves of these pages of `r`. -/
def Cleared (S : Scope) (r : ℕ) (vs : List ℕ) (mem mem' : ℕ → Fin 512 → Pte) : Prop :=
  ∀ ⦃r' p⦄, S.Has r' p → p.length = 4 → leafOf mem' r' p =
    if r' = r ∧ p ∈ vs.map leafPath ∧ removable (leafOf mem r' p) = true then none
    else leafOf mem r' p

theorem Cleared.nil (h : Kept S mem mem') : Cleared S r [] mem mem' := by
  intro r' p hp hl
  simp [h hp hl]

theorem Cleared.append {vs ws : List ℕ} (h : Cleared S r vs mem mem')
    (h' : Cleared S r ws mem' mem'') : Cleared S r (vs ++ ws) mem mem'' := by
  intro r' p hp hl
  rw [h' hp hl, h hp hl, map_append]
  by_cases hv : r' = r ∧ p ∈ vs.map leafPath ∧ removable (leafOf mem r' p) = true
  · rw [if_pos hv, ite_self]
    exact (if_pos ⟨hv.1, mem_append_left _ hv.2.1, hv.2.2⟩).symm
  · rw [if_neg hv]
    refine if_congr ?_ rfl rfl
    refine and_congr_right fun hr => ?_
    rw [mem_append]
    tauto

/-- …and what is kept on top of it. -/
theorem Cleared.kept {vs : List ℕ} (h : Cleared S r vs mem mem') (h' : Kept S mem' mem'') :
    Cleared S r vs mem mem'' := fun _ _ hp hl => (h' hp hl).trans (h hp hl)

/-- What `unmap` of a page does to the tables. -/
structure Unmapped (S : Scope) (r va : ℕ) (m m' : Machine) : Prop where
  tree : Tree m'.mem S
  cleared : Cleared S r [va] m.mem m'.mem
  walks : ∀ ⦃r' q⦄, S.Has r' q → q.length ≤ 3 →
    walk Pte.next m'.mem r' q = walk Pte.next m.mem r' q
  rest : m' = { m with mem := m'.mem }

namespace Tree

/-- The leaf entry of a page whose page table is there. -/
theorem leafOf_of_walk (hw : walk Pte.next mem r (dir va) = some t) : leafOf mem r (leafPath va) =
      if mem t (index 12 va) = 0#64 then none else some (0, mem t (index 12 va)) :=
  leafOf_of_lookup (by rw [leafPath, lookup_append hw, lookup_singleton])

theorem removable_of_walk (h : Tree mem S) (hd : S.Has r (leafPath va))
    (hw : walk Pte.next mem r (dir va) = some t) :
    removable (leafOf mem r (leafPath va)) = (mem t (index 12 va)).next.isSome := by
  have ha : TableAt mem S r (dir va) t :=
    (hd.anti (prefix_append _ _)).tableAt (le_of_eq rfl) hw
  rw [leafOf_of_walk hw]
  obtain hz | hp := h.entry ha (index 12 va) hd.dom
  · simp [hz, removable, Pte.next_zero]
  · rw [if_neg (Pte.ne_zero_of_isSet hp), removable, Pte.next, hp]
    cases (mem t (index 12 va)).isSet ptePs <;> simp

theorem removable_of_walk_none (hw : walk Pte.next mem r (dir va) = none) :
    removable (leafOf mem r (leafPath va)) = false := by
  cases hl : leafOf mem r (leafPath va) with
  | none => rfl
  | some x =>
    obtain ⟨k, e⟩ := x
    match k with
    | k + 1 => rfl
    | 0 =>
      have hsome := walk_isSome_of_lookup (leafOf_eq_some.mp hl).1
      simp [hw] at hsome

/-- A page without a 4 KiB leaf is cleared already… -/
theorem unmapped_refl (h : Tree m.mem S) (hr : removable (leafOf m.mem r (leafPath va)) = false) :
    Unmapped S r va m m := by
  refine ⟨h, fun r' p _ _ => (if_neg ?_).symm, fun _ _ _ _ => rfl, rfl⟩
  rintro ⟨rfl, hp, hr'⟩
  obtain rfl : p = leafPath va := by simpa using hp
  simp [hr] at hr'

/-- …and one with a leaf is when the leaf is zero. -/
theorem unmapped_write (h : Tree m.mem S) (hs : LeafSlot m.mem S r (dir va) t (index 12 va) 0#64)
    (hr : removable (leafOf m.mem r (leafPath va)) = true) :
    Unmapped S r va m (m.writePte t (index 12 va) 0#64) := by
  refine ⟨h.write_leaf hs, fun r' p hp hl => ?_, fun r' q hq hl => h.walk_leaf hs hq hl, rfl⟩
  have hrep := h.replaced_leaf hs
  by_cases hp' : r' = r ∧ p = leafPath va
  · obtain ⟨rfl, rfl⟩ := hp'
    have hself := hrep.self [] rfl
    rw [append_nil] at hself
    rw [if_pos ⟨rfl, by simp, hr⟩, Machine.writePte_mem, leafPath, leafOf_of_lookup hself,
      if_pos rfl]
  · rw [if_neg (fun hc => hp' ⟨hc.1, by simpa using hc.2.1⟩)]
    refine hrep.other hp hl fun hc => hp' ⟨hc.1, ?_⟩
    exact (hc.2.eq_of_length (hl ▸ rfl)).symm

/-- **`unmap` takes out a 4 KiB leaf and leaves everything else alone.** -/
theorem unmap4kImpl_spec (h : Tree m.mem S) (hc : isCanonical va = true)
    (hd : S.Has r (leafPath va)) : ∃ m',
    m.unmap4kImpl r va = some (removable (leafOf m.mem r (leafPath va)), m') ∧
      Unmapped S r va m m' := by
  simp only [Machine.unmap4kImpl, Machine.walkTable]
  rw [if_neg (by simp [hc])]
  cases hw : walk Pte.next m.mem r (dir va) with
  | none =>
    have hr := removable_of_walk_none hw
    exact ⟨m, by rw [hr], h.unmapped_refl hr⟩
  | some t =>
    have hr := h.removable_of_walk hd hw
    cases hn : (m.mem t (index 12 va)).next.isSome with
    | false => exact ⟨m, by simp [hr, hn], h.unmapped_refl (hr.trans hn)⟩
    | true =>
      refine ⟨m.writePte t (index 12 va) 0#64, by simp [hr, hn],
        h.unmapped_write ⟨?_, hd.dom, Or.inl rfl, Or.inl rfl, by simp [dir]⟩ (hr.trans hn)⟩
      exact (hd.anti (prefix_append _ _)).tableAt (le_of_eq rfl) hw

end Tree

/-! ## Empty tables -/

/-- Tables on the way to `va` were taken out: the page map and the other walks are the same. -/
structure Pruned (S : Scope) (r va : ℕ) (mem mem' : ℕ → Fin 512 → Pte) : Prop where
  tree : Tree mem' S
  kept : Kept S mem mem'
  walks : ∀ ⦃r' q⦄, S.Has r' q → q.length = 3 → ¬(r' = r ∧ q = dir va) →
    walk Pte.next mem' r' q = walk Pte.next mem r' q

theorem Pruned.refl (h : Tree mem S) : Pruned S r va mem mem :=
  ⟨h, .refl S mem, fun _ _ _ _ _ => rfl⟩

theorem Pruned.trans (h : Pruned S r va mem mem') (h' : Pruned S r va mem' mem'') :
    Pruned S r va mem mem'' :=
  ⟨h'.tree, h.kept.trans h'.kept, fun _ _ hq hl hne =>
    (h'.walks hq hl hne).trans (h.walks hq hl hne)⟩

namespace Tree

theorem zero_of_tableIsEmpty (h : Tree m.mem S) (ha : TableAt m.mem S r p f) (hp : p ≠ [])
    (he : m.tableIsEmpty f = true) (j : Fin 512) : m.mem f j = 0#64 := by
  have hj : (m.mem f j).isSet ptePresent = false := by
    simpa using all_eq_true.mp he j (mem_finRange j)
  refine (h.entry ha j (ha.dom.concat hp j)).resolve_right fun hc => ?_
  simp [hj] at hc

theorem lookup_of_zero (hz : ∀ j, mem f j = 0#64) (j : Fin 512) (s : List (Fin 512)) :
    lookup Pte.next mem f (j :: s) = some (s.length, 0#64) := by
  rw [lookup_of_none (by rw [hz, Pte.next_zero]), hz]

/-- **Taking out an all-zero table is not seen.** -/
theorem unlink_empty (h : Tree mem S) (va : ℕ) (ha : TableAt mem S r q g)
    (hi : (mem g i).next = some f) (hz : ∀ j, mem f j = 0#64) (hd : q ++ [i] <+: dir va) :
    Pruned S r va mem (write mem g i 0#64) := by
  have hw : walk Pte.next mem r (q ++ [i]) = some f := by
    rw [walk_concat, ha.walk_eq, bind_some, hi]
  have hwalk := fun {r' p'} (hp : S.Has r' p') (hl : p'.length ≤ 4) =>
    h.forest.walk_unlink (i := i) ha Pte.next_zero hp.root hp.dom hl
  have hat : ∀ ⦃r' p' f'⦄, TableAt (write mem g i 0#64) S r' p' f' → TableAt mem S r' p' f' := by
    intro r' p' f' hp
    have := hp.walk_eq
    rw [hwalk hp.has (Nat.le_succ_of_le hp.length_le)] at this
    split_ifs at this
    exact hp.has.tableAt hp.length_le this
  refine ⟨h.written ha (Or.inl rfl) (fun _ => Pte.isSet_zero _) hat, fun r' p' hp hl => ?_,
    fun r' p' hp hl hne => ?_⟩
  · by_cases hpre : r' = r ∧ q ++ [i] <+: p'
    · obtain ⟨rfl, s, rfl⟩ := hpre
      match s with
      | [] =>
        have := hd.length_le
        simp only [append_nil] at hl
        simp [hl] at this
      | j :: s =>
        have hnew : lookup Pte.next (write mem g i 0#64) r' (q ++ [i] ++ j :: s) =
            some ((j :: s).length, 0#64) := by
          rw [append_assoc]
          exact h.forest.lookup_write_self ha Pte.next_zero (j :: s)
        rw [leafOf_of_lookup hnew, leafOf_of_lookup ((lookup_append hw j s).trans
          (lookup_of_zero hz j s)), if_pos rfl, if_pos rfl]
    · exact leafOf_congr (h.forest.lookup_write ha hp.root hp.dom (le_of_eq hl) hpre _)
  · rw [hwalk hp (by omega)]
    split_ifs with hpre
    · obtain ⟨rfl, s, rfl⟩ := hpre
      match s with
      | [] =>
        rw [append_nil] at hl hne
        exact absurd ⟨rfl, hd.eq_of_length hl⟩ hne
      | j :: s =>
        rw [walk_append, hw, bind_some, walk_cons, hz]
        rfl
    · rfl

end Tree

theorem pushUnless_spec (keep : Bool) {pending : List ℕ} (h : pending.length < 256) (f : ℕ) :
    ∃ l, Machine.pushUnless keep pending f = some l ∧ l.length ≤ pending.length + 1 := by
  cases keep with
  | false =>
    refine ⟨pending ++ [f], ?_, by simp⟩
    simp [Machine.pushUnless, Machine.pushPending, Machine.pendingCapacity, h]
  | true => exact ⟨pending, rfl, by omega⟩

theorem next_of_walk (hq : walk Pte.next mem r q = some g)
    (hi : walk Pte.next mem r (q ++ [i]) = some f) : (mem g i).next = some f := by
  rwa [walk_concat, hq] at hi

/-- A table stays where it is when an entry of a table below it, or of itself, is written. -/
theorem Tree.tableAt_write (h : Tree mem S) (ha : TableAt mem S r p t) (hq : TableAt mem S r q f)
    (hl : q.length ≤ p.length) : TableAt (write mem t i e) S r q f := by
  refine ⟨hq.root, hq.dom, hq.length_le, ?_⟩
  rw [h.forest.walk_write ha hq.root hq.dom (Nat.le_succ_of_le hq.length_le), hq.walk_eq]
  rintro ⟨-, hpre⟩
  have := hpre.length_le
  simp only [length_append, length_singleton] at this
  omega

/-- **Reclaiming the tables above a page is not seen.** -/
theorem Tree.reclaimEmptyTables_spec (h : Tree m.mem S) (hd : S.Has r (dir va))
    (hw : (walk Pte.next m.mem r (dir va)).isSome) {pending : List ℕ}
    (hroom : pending.length + 3 ≤ 256) : ∃ m' l, m.reclaimEmptyTables r pending va = some (m', l) ∧
      Pruned S r va m.mem m'.mem ∧ m' = { m with mem := m'.mem } := by
  obtain ⟨pt, hpt⟩ := isSome_iff_exists.mp hw
  simp only [dir, walk_cons, walk_nil, bind_eq_some_iff, some.injEq] at hpt
  obtain ⟨pdpt, h4, pd, h3, pt, h2, rfl⟩ := hpt
  have ha1 : TableAt m.mem S r [] r := .nil hd.root
  have ha2 : TableAt m.mem S r [index 39 va] pdpt :=
    ha1.concat (hd.anti (by simp [dir])).dom (by simp) h4
  have ha3 : TableAt m.mem S r [index 39 va, index 30 va] pd :=
    ha2.concat (hd.anti (by simp [dir])).dom (by simp) h3
  have ha4 : TableAt m.mem S r (dir va) pt := ha3.concat hd.dom (by simp) h2
  obtain ⟨hp4, -, hf4⟩ := Pte.next_eq_some h4
  obtain ⟨hp3, -, hf3⟩ := Pte.next_eq_some h3
  obtain ⟨hp2, -, hf2⟩ := Pte.next_eq_some h2
  simp only [Machine.reclaimEmptyTables, hp4, hf4, hp3, hf3, hp2, hf2, Bool.true_eq_false, if_false]
  split
  · exact ⟨m, pending, rfl, .refl h, rfl⟩
  split
  · exact ⟨m, pending, rfl, .refl h, rfl⟩
  rename_i _ he4
  -- the page table goes
  obtain ⟨l1, hl1, hlen1⟩ := pushUnless_spec m.hasCloneRoots (show pending.length < 256 by omega) pt
  rw [hl1]
  have hz4 := h.zero_of_tableIsEmpty ha4 (by simp [dir]) (by simpa using he4)
  have hprune1 := h.unlink_empty va ha3 h2 hz4 (by simp [dir])
  have hb3 := h.tableAt_write (i := index 21 va) (e := 0#64) ha3 ha3 le_rfl
  have hb2 := h.tableAt_write (i := index 21 va) (e := 0#64) ha3 ha2 (by simp)
  simp only
  split
  · exact ⟨_, l1, rfl, hprune1, rfl⟩
  rename_i he3
  -- the page directory goes
  obtain ⟨l2, hl2, hlen2⟩ := pushUnless_spec m.hasCloneRoots (show l1.length < 256 by omega) pd
  rw [hl2]
  have hz3 := hprune1.tree.zero_of_tableIsEmpty (m := m.writePte pd (index 21 va) 0#64) hb3
    (by simp) (by simpa using he3)
  have hprune2 := hprune1.tree.unlink_empty va hb2 (next_of_walk hb2.walk_eq hb3.walk_eq)
    hz3 (by simp [dir])
  have hc2 := hprune1.tree.tableAt_write (i := index 30 va) (e := 0#64) hb2 hb2 le_rfl
  simp only
  split
  · exact ⟨_, l2, rfl, hprune1.trans hprune2, rfl⟩
  rename_i he2
  -- the table of the top entry goes
  obtain ⟨l3, hl3, -⟩ := pushUnless_spec m.hasCloneRoots (show l2.length < 256 by omega) pdpt
  rw [hl3]
  have hz2 := hprune2.tree.zero_of_tableIsEmpty
    (m := (m.writePte pd (index 21 va) 0#64).writePte pdpt (index 30 va) 0#64) hc2
    (by simp) (by simpa using he2)
  have hprune3 := hprune2.tree.unlink_empty va (.nil hd.root)
    (next_of_walk (q := []) rfl hc2.walk_eq) hz2 (by simp [dir])
  exact ⟨_, l3, rfl, (hprune1.trans hprune2).trans hprune3, rfl⟩

/-! ## The loop -/

theorem flushPending_eq : ∀ (l : List ℕ) (m : Machine), m.flushPending l =
    { m with alloc := (m.flushPending l).alloc, freed := (m.flushPending l).freed }
  | [], _ => rfl
  | f :: l, m => by
    rw [show m.flushPending (f :: l) = (m.free f).flushPending l from rfl,
      flushPending_eq l (m.free f)]
    rfl

/-- Draining gives frames back, and nothing else changes. -/
theorem drain_spec (s : UnmapLoop) (n : ℕ) :
    (s.drain n).m.mem = s.m.mem ∧ (s.drain n).m.clones = s.m.clones ∧
      (s.drain n).groupFirst = s.groupFirst ∧ (s.drain n).frames = s.frames := by
  rw [UnmapLoop.drain]
  split_ifs
  · rw [flushPending_eq]
    exact ⟨rfl, rfl, rfl, rfl⟩
  · exact ⟨rfl, rfl, rfl, rfl⟩

variable {n v : ℕ} {s s' : UnmapLoop} {vs : List ℕ}

/-- …and makes room. -/
theorem drain_room (s : UnmapLoop) (h0 : 0 < n) (hn : n ≤ 256) :
    (s.drain n).pending.length + n ≤ 256 := by
  rw [UnmapLoop.drain]
  split_ifs with h
  · simpa using hn
  · simp only [pendingCapacity] at h
    omega

theorem drain_of_nil (h : s.pending = []) (hn : n ≤ 256) : s.drain n = s := by
  rw [UnmapLoop.drain, if_neg]
  simp only [h, pendingCapacity, length_nil]
  omega

/-- While clones share the tables, nothing but memory changes, and no table comes or goes. -/
structure Quiet (S : Scope) (s s' : UnmapLoop) : Prop where
  clones : s'.m.clones = s.m.clones
  quiet : s.m.clones ≠ [] → s.pending = [] →
    s'.pending = [] ∧ s'.m = { s.m with mem := s'.m.mem } ∧
      ∀ ⦃r q⦄, S.Has r q → q.length ≤ 3 → walk Pte.next s'.m.mem r q = walk Pte.next s.m.mem r q

theorem Quiet.of_eq (hm : s'.m = s.m) (hp : s'.pending = s.pending) : Quiet S s s' :=
  ⟨by rw [hm], fun _ h => ⟨hp.trans h, by rw [hm], fun _ _ _ _ => by rw [hm]⟩⟩

theorem Quiet.trans {s'' : UnmapLoop} (h : Quiet S s s') (h' : Quiet S s' s'') : Quiet S s s'' := by
  refine ⟨h'.clones.trans h.clones, fun hc hp => ?_⟩
  obtain ⟨hp', hm, hw⟩ := h.quiet hc hp
  obtain ⟨hp'', hm', hw'⟩ := h'.quiet (h.clones ▸ hc) hp'
  exact ⟨hp'', by rw [hm', hm], fun r q hq hl => (hw' hq hl).trans (hw hq hl)⟩

theorem quiet_drain (s : UnmapLoop) (hn : n ≤ 256) : Quiet S s (s.drain n) :=
  ⟨(drain_spec s n).2.1, fun _ hp => by
    rw [drain_of_nil hp hn]
    exact ⟨hp, rfl, fun _ _ _ _ => rfl⟩⟩

/-- What holds between two rounds: the tables form a tree, and the group's page table is there. -/
structure Unmapping (S : Scope) (r : ℕ) (s : UnmapLoop) : Prop where
  tree : Tree s.m.mem S
  group : s.groupFirst ≠ noGroup → isCanonical s.groupFirst = true ∧ S.Has r (dir s.groupFirst) ∧
    (walk Pte.next s.m.mem r (dir s.groupFirst)).isSome

theorem Unmapping.drain (h : Unmapping S r s) (n : ℕ) : Unmapping S r (s.drain n) := by
  obtain ⟨hm, -, hg, -⟩ := drain_spec s n
  exact ⟨hm ▸ h.tree, by rw [hg, hm]; exact h.group⟩

/-- **Canonical addresses with the same page table lie in the same 2 MiB group.** -/
theorem dir_eq_iff {w : ℕ} (hv : isCanonical v = true) (hw : isCanonical w = true) :
    dir v = dir w ↔ v / 2 ^ 21 = w / 2 ^ 21 := by
  simp only [dir, List.cons.injEq, and_true, Fin.ext_iff, index_val]
  simp only [isCanonical, decide_eq_true_eq] at hv hw
  constructor
  · omega
  · intro h
    refine ⟨?_, ?_, ?_⟩ <;> omega

/-- `reclaim_tables` on a group whose page table is there. -/
theorem Unmapping.reclaimTables_spec (h : Unmapping S r s)
    (hg : s.groupFirst ≠ noGroup) (hroom : s.pending.length + 3 ≤ 256) :
    ∃ m' l, s.m.reclaimTables r s.pending s.groupFirst = some (m', l) ∧
      Pruned S r s.groupFirst s.m.mem m'.mem ∧ m' = { s.m with mem := m'.mem } ∧
      (s.m.clones ≠ [] → m' = s.m ∧ l = s.pending) := by
  obtain ⟨-, hhas, hw⟩ := h.group hg
  rw [Machine.reclaimTables]
  split_ifs with hc
  · exact ⟨s.m, s.pending, rfl, .refl h.tree, rfl, fun _ => ⟨rfl, rfl⟩⟩
  · obtain ⟨m', l, hok, hp, hm⟩ := h.tree.reclaimEmptyTables_spec hhas hw hroom
    exact ⟨m', l, hok, hp, hm, fun hne => absurd (by simpa [Machine.hasCloneRoots] using hne) hc⟩

/-- **Entering the group of a page that was cleared.** -/
theorem Unmapping.enterGroup_spec (h : Unmapping S r s)
    (hc : isCanonical v = true) (hd : S.Has r (dir v))
    (hw : (walk Pte.next s.m.mem r (dir v)).isSome) : ∃ s', s.enterGroup r v = some s' ∧
      Unmapping S r s' ∧ Kept S s.m.mem s'.m.mem ∧ s'.frames = s.frames ∧ Quiet S s s' := by
  rw [UnmapLoop.enterGroup]
  split_ifs with hsame hno
  · exact ⟨s, rfl, h, .refl _ _, rfl, .of_eq rfl rfl⟩
  · exact ⟨_, rfl, ⟨h.tree, fun _ => ⟨hc, hd, hw⟩⟩, .refl _ _, rfl, .of_eq rfl rfl⟩
  · obtain ⟨hm, hcl, hg, hf⟩ := drain_spec s 3
    obtain ⟨m', l, hok, hp, hm', hquiet⟩ := (h.drain 3).reclaimTables_spec (hg ▸ hno)
      (drain_room s (by decide) (by decide))
    obtain ⟨hcan, -, -⟩ := h.group hno
    have hne : dir v ≠ dir s.groupFirst := fun he => hsame ((dir_eq_iff hc hcan).mp he)
    rw [hg, hm] at hp
    have hw' : walk Pte.next m'.mem r (dir v) = walk Pte.next s.m.mem r (dir v) :=
      hp.walks hd rfl fun he => hne he.2
    simp only [hok]
    obtain ⟨em, ec, -, ef⟩ := drain_spec { s.drain 3 with m := m', pending := l } 1
    refine ⟨_, rfl, ⟨?_, fun _ => ⟨hc, hd, ?_⟩⟩, ?_, ef.trans hf, ?_, fun hne hnil => ?_⟩
    · exact em ▸ hp.tree
    · rw [em, hw']
      exact hw
    · rw [em]
      exact hp.kept
    · rw [ec, hm']
      exact hcl
    · rw [drain_of_nil hnil (by decide)] at hquiet ⊢
      obtain ⟨rfl, rfl⟩ := hquiet hne
      rw [drain_of_nil hnil (by decide)]
      exact ⟨hnil, rfl, fun _ _ _ _ => rfl⟩

/-! ## One round -/

/-- The frame that a collecting range unmap takes from a page: the one its 4 KiB leaf maps. -/
def takenFrom (mem : ℕ → Fin 512 → Pte) (r v : ℕ) : List ℕ :=
  match leafOf mem r (leafPath v) with
  | some (0, e) => if e.isSet ptePs then [] else [e.frame + v % 2 ^ 12]
  | _ => []

theorem takenFrom_eq_nil (h : removable (leafOf mem r (leafPath v)) = false) :
    takenFrom mem r v = [] := by
  rw [takenFrom]
  split
  · rename_i e he
    rw [he] at h
    rw [if_pos (by simpa [removable] using h)]
  · rfl

/-- What a range unmap over the pages `vs` comes to. -/
structure Rounds (S : Scope) (r : ℕ) (collect : Bool) (vs : List ℕ) (s s' : UnmapLoop) : Prop where
  inv : Unmapping S r s'
  cleared : Cleared S r vs s.m.mem s'.m.mem
  frames : s'.frames = s.frames ++ if collect then vs.flatMap (takenFrom s.m.mem r) else []
  quiet : Quiet S s s'

theorem Rounds.drain {collect : Bool} (h : Rounds S r collect vs s s') (hn : n ≤ 256) :
    Rounds S r collect vs s (s'.drain n) := by
  obtain ⟨hm, -, -, hf⟩ := drain_spec s' n
  exact ⟨h.inv.drain n, by rw [hm]; exact h.cleared, hf.trans h.frames,
    h.quiet.trans (quiet_drain s' hn)⟩

/-- The translation that a collecting round makes first. -/
theorem Tree.translate_round (h : Tree m.mem S) (hc : isCanonical v = true)
    (hd : S.Has r (leafPath v)) (collect : Bool) : ∃ phys,
    (if collect then m.translate r v else some none) = some phys ∧
      (collect = true → phys = none → removable (leafOf m.mem r (leafPath v)) = false) ∧
      (removable (leafOf m.mem r (leafPath v)) = true →
        phys.toList = if collect then takenFrom m.mem r v else []) := by
  cases collect with
  | false => exact ⟨none, rfl, fun hf => absurd hf (by decide), fun _ => rfl⟩
  | true =>
    obtain ⟨k, e, hl, hk, he, hps⟩ := h.lookup_entry hd (length_leafPath v)
    rw [Machine.translate_eq_decode hc, takenFrom, leafOf_of_lookup hl]
    by_cases hz : e = 0#64
    · exact ⟨none, by simp [hz], fun _ _ => by simp [hz, removable],
        fun hr => by simp [hz, removable] at hr⟩
    · obtain ⟨hk2, hp⟩ := h.lookup_leaf hd (length_leafPath v) hl hz
      interval_cases k
      · refine ⟨some (e.frame + v % 2 ^ 12), by simp [hz, decode], by simp, fun hr => ?_⟩
        have hs : e.isSet ptePs = false := by simpa [hz, removable] using hr
        simp [hz, hs]
      · exact ⟨some (e.frame / 2 ^ 21 * 2 ^ 21 + v % 2 ^ 21), by simp [hz, decode, hp], by simp,
          fun hr => by simp [removable] at hr⟩
      · exact ⟨some (e.frame / 2 ^ 30 * 2 ^ 30 + v % 2 ^ 30), by simp [hz, decode, hp], by simp,
          fun hr => by simp [removable] at hr⟩

/-- **One round clears its page**, and reclaims the tables of the group it leaves. -/
theorem Unmapping.round_spec (h : Unmapping S r s)
    (hc : isCanonical v = true) (hd : S.Has r (leafPath v)) (collect : Bool) :
    ∃ s', Machine.unmapRound r collect s v = some s' ∧ Rounds S r collect [v] s s' := by
  obtain ⟨phys, hphys, hnone, hsome⟩ := h.tree.translate_round hc hd collect
  obtain ⟨m', hok, hun⟩ := h.tree.unmap4kImpl_spec hc hd
  -- a page without a 4 KiB leaf
  have hskip : removable (leafOf s.m.mem r (leafPath v)) = false →
      Rounds S r collect [v] s (s.drain 1) := fun hr =>
    Rounds.drain ⟨h, (h.tree.unmapped_refl hr).cleared, by simp [takenFrom_eq_nil hr],
      Quiet.of_eq rfl rfl⟩ (by decide)
  rw [Machine.unmapRound, hphys]
  simp only
  by_cases hcol : collect = true ∧ phys = none
  · rw [if_pos hcol]
    exact ⟨_, rfl, hskip (hnone hcol.1 hcol.2)⟩
  rw [if_neg hcol, hok]
  cases hr : removable (leafOf s.m.mem r (leafPath v)) with
  | false => exact ⟨_, rfl, hskip hr⟩
  | true =>
    have hwalk : ∀ ⦃q⦄, S.Has r q → q.length ≤ 3 →
        walk Pte.next m'.mem r q = walk Pte.next s.m.mem r q := fun q hq hl => hun.walks hq hl
    have hd' : S.Has r (dir v) := hd.anti (prefix_append _ _)
    have hw : (walk Pte.next m'.mem r (dir v)).isSome := by
      rw [hwalk hd' (le_of_eq rfl)]
      by_contra hno
      rw [not_isSome_iff_eq_none] at hno
      rw [Tree.removable_of_walk_none hno] at hr
      exact absurd hr (by decide)
    have hinv : Unmapping S r { s with m := m', frames := s.frames ++ phys.toList } :=
      ⟨hun.tree, fun hg => by
        obtain ⟨hcan, hhas, hsome'⟩ := h.group hg
        exact ⟨hcan, hhas, by rw [hwalk hhas (le_of_eq rfl)]; exact hsome'⟩⟩
    have hquiet : Quiet S s { s with m := m', frames := s.frames ++ phys.toList } :=
      ⟨by rw [hun.rest], fun _ hp => ⟨hp, hun.rest, hun.walks⟩⟩
    obtain ⟨s', hok', hinv', hkept, hframes, hq⟩ := hinv.enterGroup_spec hc hd' hw
    simp only [hok']
    refine ⟨_, rfl, .drain ⟨hinv', hun.cleared.kept hkept, ?_, hquiet.trans hq⟩ (by decide)⟩
    rw [hframes, hsome hr]
    simp

/-! ## The whole range -/

/-- A page that is not cleared still has what the unmap takes from it. -/
theorem Cleared.takenFrom_eq (h : Cleared S r vs mem mem') {w : ℕ}
    (hd : S.Has r (leafPath w)) (hw : leafPath w ∉ vs.map leafPath) :
    takenFrom mem' r w = takenFrom mem r w := by
  rw [takenFrom, h hd (length_leafPath w), if_neg fun hc => hw hc.2.1, takenFrom]

/-- **The rounds clear their pages.** -/
theorem Unmapping.rounds_spec (collect : Bool) : ∀ {vs : List ℕ} {s : UnmapLoop},
    Unmapping S r s → (∀ v ∈ vs, isCanonical v = true ∧ S.Has r (leafPath v)) →
    (vs.map leafPath).Nodup →
    ∃ s', Machine.unmapRounds r collect s vs = some s' ∧ Rounds S r collect vs s s'
  | [], s, h, _, _ => ⟨s, rfl, h, Cleared.nil (Kept.refl _ _), by simp, Quiet.of_eq rfl rfl⟩
  | v :: vs, s, h, hvs, hnd => by
    obtain ⟨hc, hd⟩ := hvs v (by simp)
    obtain ⟨s1, hok, hround⟩ := h.round_spec hc hd collect
    rw [map_cons, nodup_cons] at hnd
    obtain ⟨s2, hok', hrest⟩ := hround.inv.rounds_spec collect
      (fun w hw => hvs w (mem_cons_of_mem _ hw)) hnd.2
    refine ⟨s2, by rw [Machine.unmapRounds, hok]; exact hok', hrest.inv,
      hround.cleared.append hrest.cleared, ?_, hround.quiet.trans hrest.quiet⟩
    have htaken : vs.flatMap (takenFrom s1.m.mem r) = vs.flatMap (takenFrom s.m.mem r) :=
      flatMap_congr fun w hw => hround.cleared.takenFrom_eq
        (hvs w (mem_cons_of_mem _ hw)).2 fun hin => hnd.1 (by
          rw [map_singleton, mem_singleton] at hin
          exact hin ▸ mem_map_of_mem hw)
    rw [hrest.frames, hround.frames, htaken]
    cases collect <;> simp

/-- What unmapping the pages `vs` does. -/
structure RangeUnmapped (S : Scope) (r : ℕ) (vs : List ℕ) (m m' : Machine) : Prop where
  tree : Tree m'.mem S
  cleared : Cleared S r vs m.mem m'.mem
  clones : m'.clones = m.clones
  quiet : m.clones ≠ [] → m' = { m with mem := m'.mem } ∧
    ∀ ⦃r' q⦄, S.Has r' q → q.length ≤ 3 →
      walk Pte.next m'.mem r' q = walk Pte.next m.mem r' q

theorem RangeUnmapped.of_rounds {collect : Bool}
    (hp : s.pending = []) (h : Rounds S r collect vs s s') :
    RangeUnmapped S r vs s.m (s'.m.flushPending s'.pending) := by
  rw [flushPending_eq]
  refine ⟨h.inv.tree, h.cleared, h.quiet.clones, fun hc => ?_⟩
  obtain ⟨hp', hm, hw⟩ := h.quiet.quiet hc hp
  refine ⟨?_, hw⟩
  rw [hp', hm]
  rfl

/-- **A range unmap clears the pages of its range.** -/
theorem Tree.unmapRange_spec (h : Tree m.mem S) (collect : Bool) {va size : ℕ}
    (hvs : Machine.pagesOf va ((va + size) % 2 ^ 64) = vs)
    (hpages : ∀ v ∈ vs, isCanonical v = true ∧ S.Has r (leafPath v))
    (hnd : (vs.map leafPath).Nodup) : ∃ m', m.unmapRange r collect va size =
      some (m', if collect then vs.flatMap (takenFrom m.mem r) else []) ∧
      RangeUnmapped S r vs m m' := by
  have hstart : Unmapping S r ⟨m, [], noGroup, []⟩ := ⟨h, absurd rfl⟩
  obtain ⟨s, hok, hrounds⟩ := hstart.rounds_spec collect hpages hnd
  have hframes : s.frames = if collect then vs.flatMap (takenFrom m.mem r) else [] := by
    rw [hrounds.frames, nil_append]
  rw [Machine.unmapRange, hvs, hok]
  simp only
  by_cases hg : s.groupFirst = noGroup
  · rw [if_pos hg]
    exact ⟨_, by rw [hframes], RangeUnmapped.of_rounds rfl hrounds⟩
  · rw [if_neg hg]
    -- the tables of the last group
    obtain ⟨hm, -, hgf, hf⟩ := drain_spec s 3
    have hdr := hrounds.drain (show 3 ≤ 256 by decide)
    obtain ⟨m', l, hok', hp, hm', hquiet⟩ := hdr.inv.reclaimTables_spec (hgf ▸ hg)
      (drain_room s (by decide) (by decide))
    simp only [hok', hf, hframes]
    have hlast : Rounds S r collect vs ⟨m, [], noGroup, []⟩
        { s.drain 3 with m := m', pending := l, groupFirst := noGroup } := by
      refine ⟨⟨hp.tree, absurd rfl⟩, hdr.cleared.kept hp.kept, hdr.frames,
        hdr.quiet.trans ⟨by rw [hm'], fun hc hnil => ?_⟩⟩
      obtain ⟨rfl, rfl⟩ := hquiet hc
      exact ⟨hnil, rfl, fun _ _ _ _ => rfl⟩
    exact ⟨_, rfl, .of_rounds rfl hlast⟩

end Bedrock
