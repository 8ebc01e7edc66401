import Mathlib.Data.Finset.Card

/-!
# Lib/Names — nodes that name each other

A naming sends a node and a name to a node.  It is *rooted* when every directory has at most one
name, the root has none, and every node that names others can be reached from the root:

    r --n--▸ a --m--▸ b            then no node is below itself (`Rooted.acyclic`)

Giving a name to a node that has none, taking away the name of a node that names nothing, and moving
a node to where it is not above keep a naming rooted.
-/

namespace Bedrock

open Relation

variable {ι ν : Type*}

/-- What each node calls by each name. -/
abbrev Names (ι ν : Type*) := ι → ν → Option ι

namespace Names

variable {N N' : Names ι ν} {r i i' j k : ι} {n o : ν}

def Edge (N : Names ι ν) (i j : ι) : Prop := ∃ n, N i n = some j

/-- The node names others. -/
def Busy (N : Names ι ν) (j : ι) : Prop := ∃ k, N.Edge j k

/-- The nodes that can be reached from the root. -/
def Reach (N : Names ι ν) (r j : ι) : Prop := ReflTransGen N.Edge r j

structure Rooted (r : ι) (D : ι → Prop) (N : Names ι ν) : Prop where
  dir : ∀ j, N.Busy j → D j
  unique : ∀ {j i n i' n'}, D j → N i n = some j → N i' n' = some j → i = i' ∧ n = n'
  root : ∀ i n, N i n ≠ some r
  reach : ∀ j, N.Busy j → N.Reach r j

variable {D D' : ι → Prop}

/-- **No node is below itself.** -/
theorem Rooted.acyclic (h : Rooted r D N) (j : ι) : ¬TransGen N.Edge j j := by
  intro hcycle
  have hreach : N.Reach r j := by
    obtain ⟨k, hk, -⟩ := TransGen.head'_iff.mp hcycle
    exact h.reach j ⟨k, hk⟩
  -- along the path from the root the cycle moves up to the root, which nothing names
  induction hreach with
  | refl =>
    obtain ⟨k, -, n, hn⟩ := TransGen.tail'_iff.mp hcycle
    exact h.root k n hn
  | @tail a b _ hab ih =>
    refine ih ?_
    obtain ⟨k, hbk, hkb⟩ := TransGen.tail'_iff.mp hcycle
    obtain ⟨c, hbc, -⟩ := TransGen.head'_iff.mp hcycle
    obtain ⟨n, hn⟩ := hab
    obtain ⟨m, hm⟩ := hkb
    obtain ⟨rfl, -⟩ := h.unique (h.dir b ⟨c, hbc⟩) hn hm
    exact TransGen.head' ⟨n, hn⟩ hbk

/-- A node with a name is reachable. -/
theorem Rooted.reach_of_edge (h : Rooted r D N) (hij : N.Edge i j) : N.Reach r j :=
  (h.reach i ⟨j, hij⟩).tail hij

/-- The directories matter only where they have a name or give one. -/
theorem Rooted.congr_dir (h : Rooted r D N) (hbusy : ∀ a, N.Busy a → D' a)
    (hold : ∀ a, D' a → D a ∨ ∀ i n, N i n ≠ some a) : Rooted r D' N where
  dir := hbusy
  unique := fun {a} _ _ _ _ hD h1 h2 =>
    (hold a hD).elim (fun hDa => h.unique hDa h1 h2) (fun hno => absurd h1 (hno _ _))
  root := h.root
  reach := h.reach

/-- A path to a busy node survives when the edges to busy nodes do. -/
theorem reach_mono (hE : ∀ a b, N.Edge a b → N.Busy b → N'.Edge a b) (hj : N.Busy j)
    (hr : N.Reach r j) : N'.Reach r j := by
  induction hr with
  | refl => exact .refl
  | @tail a b _ hab ih => exact (ih ⟨b, hab⟩).tail (hE a b hab hj)

/-! ## Changing one name -/

section Set

variable [DecidableEq ι] [DecidableEq ν]

def set (N : Names ι ν) (i : ι) (n : ν) (x : Option ι) : Names ι ν :=
  fun a m => if a = i ∧ m = n then x else N a m

theorem set_self (N : Names ι ν) (i : ι) (n : ν) (x : Option ι) : N.set i n x i n = x :=
  if_pos ⟨rfl, rfl⟩

variable {a b : ι} {m : ν}

theorem set_of_ne (h : ¬(a = i ∧ m = n)) (x : Option ι) : N.set i n x a m = N a m := if_neg h

/-- An edge outlives the change of a name that led to an idle node. -/
theorem edge_set {x : Option ι} (hidle : ∀ k, N i n = some k → ¬N.Busy k)
    (hab : N.Edge a b) (hb : N.Busy b) : (N.set i n x).Edge a b := by
  obtain ⟨m, hm⟩ := hab
  refine ⟨m, ?_⟩
  rw [set_of_ne fun heq => ?_]
  · exact hm
  · obtain ⟨rfl, rfl⟩ := heq
    exact hidle b hm hb

theorem busy_of_set_none (h : (N.set i n none).Busy a) : N.Busy a := by
  obtain ⟨k, m, hm⟩ := h
  by_cases heq : a = i ∧ m = n
  · rw [set, if_pos heq] at hm
    cases hm
  · exact ⟨k, m, by rwa [set_of_ne heq] at hm⟩

theorem eq_of_set_none (h : N.set i n none a m = some b) : N a m = some b := by
  by_cases heq : a = i ∧ m = n
  · rw [set, if_pos heq] at h
    cases h
  · rwa [set_of_ne heq] at h

/-- **Taking away the name of an idle node.** -/
theorem Rooted.clear (h : Rooted r D N) (hidle : ∀ k, N i n = some k → ¬N.Busy k) :
    Rooted r D (N.set i n none) where
  dir := fun j hj => h.dir j (busy_of_set_none hj)
  unique := fun hD h1 h2 => h.unique hD (eq_of_set_none h1) (eq_of_set_none h2)
  root := fun a m hm => h.root a m (eq_of_set_none hm)
  reach := fun j hj => by
    have hbusy := busy_of_set_none hj
    exact reach_mono (fun a b => edge_set hidle) hbusy (h.reach j hbusy)

theorem eq_of_set_some (h : N.set i n (some j) a m = some b) :
    (a = i ∧ m = n ∧ b = j) ∨ (¬(a = i ∧ m = n) ∧ N a m = some b) := by
  by_cases heq : a = i ∧ m = n
  · rw [set, if_pos heq] at h
    exact .inl ⟨heq.1, heq.2, (Option.some.inj h).symm⟩
  · rw [set_of_ne heq] at h
    exact .inr ⟨heq, h⟩

theorem busy_of_set_some (h : (N.set i n (some j)).Busy a) : a = i ∨ N.Busy a := by
  obtain ⟨k, m, hm⟩ := h
  obtain ⟨rfl, -, -⟩ | ⟨-, hm⟩ := eq_of_set_some hm
  · exact .inl rfl
  · exact .inr ⟨k, m, hm⟩

/-- Directories keep at most one name when a nameless one gets it. -/
theorem unique_set (hN : ∀ {b a m a' m'}, D b → N a m = some b → N a' m' = some b → a = a' ∧ m = m')
    (hj : D j → ∀ a m, N a m ≠ some j) {a' : ι} {m' : ν} (hD : D b)
    (h1 : N.set i n (some j) a m = some b) (h2 : N.set i n (some j) a' m' = some b) :
    a = a' ∧ m = m' := by
  rcases eq_of_set_some h1 with ⟨ha, hm, hb⟩ | ⟨-, h1⟩ <;>
    obtain ⟨ha', hm', hb'⟩ | ⟨-, h2⟩ := eq_of_set_some h2
  · exact ⟨ha.trans ha'.symm, hm.trans hm'.symm⟩
  · exact absurd (hb ▸ h2) (hj (hb ▸ hD) a' m')
  · exact absurd (hb' ▸ h1) (hj (hb' ▸ hD) a m)
  · exact hN hD h1 h2

/-- **Giving a free name to an idle node**, which is no directory or has no name yet. -/
theorem Rooted.name (h : Rooted r D N) (hi : N.Reach r i) (hDi : D i) (hfree : N i n = none)
    (hjr : j ≠ r) (hj : D j → ∀ a m, N a m ≠ some j) : Rooted r D (N.set i n (some j)) where
  dir := fun a ha => (busy_of_set_some ha).elim (fun heq => heq ▸ hDi) (h.dir a)
  unique := unique_set h.unique hj
  root := by
    intro a m hm
    obtain ⟨-, -, rfl⟩ | ⟨-, hm⟩ := eq_of_set_some hm
    · exact hjr rfl
    · exact h.root a m hm
  reach := by
    have hE : ∀ a b, N.Edge a b → (N.set i n (some j)).Edge a b := by
      rintro a b ⟨m, hm⟩
      refine ⟨m, ?_⟩
      rw [set_of_ne fun heq => ?_]
      · exact hm
      · rw [heq.1, heq.2, hfree] at hm
        cases hm
    intro a ha
    obtain rfl | ha := busy_of_set_some ha
    · exact ReflTransGen.mono hE _ _ hi
    · exact ReflTransGen.mono hE _ _ (h.reach a ha)

/-! ## Moving -/

/-- The edges that a move leaves: all but the one it takes and the one it overwrites. -/
theorem edge_move (hab : N a m = some b) (h1 : ¬(a = i ∧ m = o))
    (h2 : ¬(a = i' ∧ m = n)) : ((N.set i o none).set i' n (some j)).Edge a b :=
  ⟨m, by rw [set_of_ne h2, set_of_ne h1]; exact hab⟩

/-- **Moving a node to where it is not above**, over a name that is free or leads to an idle
node. -/
theorem Rooted.move (h : Rooted r D N) (hj : N i o = some j) (hi' : N.Reach r i') (hDi' : D i')
    (hidle : ∀ k, N i' n = some k → ¬N.Busy k) (habove : ¬ReflTransGen N.Edge j i') :
    Rooted r D ((N.set i o none).set i' n (some j)) := by
  -- the path to the new directory does not pass through the moved node
  have hpath : ∀ x, N.Reach r x → ReflTransGen N.Edge x i' →
      ((N.set i o none).set i' n (some j)).Reach r x := by
    intro x hx
    induction hx with
    | refl => exact fun _ => .refl
    | @tail a b _ hab ih =>
      intro hb
      refine (ih (hb.head hab)).tail ?_
      obtain ⟨m, hm⟩ := hab
      refine edge_move hm ?_ ?_
      · rintro ⟨rfl, rfl⟩
        rw [hj] at hm
        exact habove (Option.some.inj hm ▸ hb)
      · rintro ⟨rfl, rfl⟩
        exact h.acyclic a (TransGen.head' ⟨m, hm⟩ hb)
  have hreach' := hpath i' hi' .refl
  -- the old name is gone, so no name but the new one leads to the moved node
  have hgone : D j → ∀ a m, N.set i o none a m ≠ some j := by
    intro hDj a m hm
    obtain ⟨rfl, rfl⟩ := h.unique hDj hj (eq_of_set_none hm)
    rw [set_self] at hm
    cases hm
  have hpaths : ∀ x, N.Reach r x → N.Busy x →
      ((N.set i o none).set i' n (some j)).Reach r x := by
    intro x hx
    induction hx with
    | refl => exact fun _ => .refl
    | @tail a b _ hab ih =>
      intro hb
      obtain ⟨m, hm⟩ := hab
      by_cases h1 : a = i ∧ m = o
      · rw [h1.1, h1.2, hj] at hm
        rw [← Option.some.inj hm]
        exact hreach'.tail ⟨n, set_self _ _ _ _⟩
      · refine (ih ⟨b, m, hm⟩).tail (edge_move hm h1 ?_)
        rintro ⟨rfl, rfl⟩
        exact hidle b hm hb
  exact {
    dir := fun a ha => (busy_of_set_some ha).elim (fun heq => heq ▸ hDi')
      fun hb => h.dir a (busy_of_set_none hb)
    unique := unique_set
      (fun hD h1 h2 => h.unique hD (eq_of_set_none h1) (eq_of_set_none h2)) hgone
    root := by
      intro a m hm
      obtain ⟨-, -, rfl⟩ | ⟨-, hm⟩ := eq_of_set_some hm
      · exact h.root i o hj
      · exact h.root a m (eq_of_set_none hm)
    reach := fun a ha => (busy_of_set_some ha).elim (fun heq => heq ▸ hreach')
      fun hb => hpaths a (h.reach a (busy_of_set_none hb)) (busy_of_set_none hb) }

end Set

/-! ## Ancestors -/

/-- A node and those above it, by a function that gives each its parent. -/
def ancestors (parent : ι → Option ι) : ℕ → ι → List ι
  | 0, d => [d]
  | fuel + 1, d =>
    d :: match parent d with
      | some p => ancestors parent fuel p
      | none => []

theorem mem_ancestors_self (parent : ι → Option ι) (fuel : ℕ) (d : ι) :
    d ∈ ancestors parent fuel d := by
  cases fuel <;> simp [ancestors]

/-- **Every node above a directory is among its ancestors**, when as many are asked for as there
are nodes that name others. -/
theorem Rooted.mem_ancestors (h : Rooted r D N) {parent : ι → Option ι}
    (hparent : ∀ i j, D j → N.Edge i j → parent j = some i) {S : Finset ι}
    (hS : ∀ i, N.Busy i → i ∈ S) {d : ι} (hd : D d) (hjd : ReflTransGen N.Edge j d) :
    j ∈ ancestors parent S.card d := by
  classical
  -- the number of nodes above `d` bounds the way up
  suffices key : ∀ fuel, (S.filter fun a => TransGen N.Edge a d).card ≤ fuel →
      j ∈ ancestors parent fuel d from key _ (Finset.card_filter_le _ _)
  induction hjd with
  | refl => exact fun fuel _ => mem_ancestors_self parent fuel j
  | @tail k d _ hkd ih =>
    intro fuel hfuel
    have hk : D k := h.dir k ⟨d, hkd⟩
    have hlt : (S.filter fun a => TransGen N.Edge a k).card <
        (S.filter fun a => TransGen N.Edge a d).card := by
      refine Finset.card_lt_card (Finset.ssubset_iff_subset_ne.mpr ⟨?_, fun heq => ?_⟩)
      · exact Finset.monotone_filter_right _ fun a _ ha => ha.tail hkd
      · have hmem : k ∈ S.filter fun a => TransGen N.Edge a d :=
          Finset.mem_filter.mpr ⟨hS k ⟨d, hkd⟩, .single hkd⟩
        rw [← heq] at hmem
        exact h.acyclic k (Finset.mem_filter.mp hmem).2
    obtain ⟨f, rfl⟩ : ∃ f, fuel = f + 1 := ⟨fuel - 1, by omega⟩
    rw [ancestors, hparent k d hd hkd]
    exact List.mem_cons_of_mem d (ih hk f (by omega))

end Names

end Bedrock
