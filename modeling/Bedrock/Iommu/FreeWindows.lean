import Bedrock.Lib.Blocks
import Bedrock.Lib.Vec

/-!
# Iommu/FreeWindows — the list of reclaimed device addresses

A window is a range of device addresses (IOVAs).  The list has room for 64; `push` joins a window
to its neighbours as long as there is one, `take` cuts a window off an entry:

    push   [--b--)[---e---)   ↦   [----b+e----)       e leaves the list, its place is the last one's
    take   [-----e-----)      ↦   [-b-)[--e'--)       e' takes the place of e

Counted by owners, `push` adds the window at most once (`cover_push_le`) and `take` only moves it
(`cover_take`).
-/

namespace Bedrock.Iommu

open List Option

/-- How many windows `FreeIovaWindows` has room for. -/
def WINDOWS : ℕ := 64

/-! ## Giving a window back -/

/-- What a window and an entry form together, if they are neighbours. -/
def joined (b e : Block) : Option Block :=
  if e.addr = 0 ∧ e.size = 0 then none
  else if b.addr + b.size = e.addr then some ⟨b.addr, b.size + e.size⟩
  else if e.addr + e.size = b.addr then some ⟨e.addr, b.size + e.size⟩
  else none

/-- The first entry that is a neighbour, by its index, and what the window becomes. -/
def firstJoined (b : Block) : List Block → Option (ℕ × Block)
  | [] => none
  | e :: l =>
    match joined b e with
    | some b' => some (0, b')
    | none => (firstJoined b l).map fun r => (r.1 + 1, r.2)

/-- The merging loop of `push`.  Each round takes an entry out, so `l.length` rounds are enough. -/
def coalesce : ℕ → Block → List Block → Block × List Block
  | 0, b, l => (b, l)
  | fuel + 1, b, l =>
    match firstJoined b l with
    | none => (b, l)
    | some (i, b') => coalesce fuel b' (swapRemove l i)

/-- `FreeIovaWindows::push`; a window that finds no room is dropped. -/
def push (l : List Block) (base size : ℕ) : List Block :=
  if base = 0 ∨ size = 0 ∨ base % 4096 ≠ 0 ∨ size % 4096 ≠ 0 then l
  else
    let r := coalesce l.length ⟨base, size⟩ l
    if r.2.length < WINDOWS then r.2 ++ [r.1] else r.2

section Push

variable {b b' e : Block} {l : List Block} {i : ℕ}

theorem cover_swapRemove (h : l[i]? = some e) (x : ℕ) :
    cover l x = (e.contains x).toNat + cover (swapRemove l i) x := by
  rw [← cover_perm (swapRemove_perm h), cover_cons]

theorem contains_joined (h : joined b e = some b') (x : ℕ) :
    (b.contains x).toNat + (e.contains x).toNat = (b'.contains x).toNat := by
  unfold joined at h
  split_ifs at h with _ hbe heb
  · cases h
    rw [← contains_split, hbe]
  · cases h
    rw [Nat.add_comm b.size, ← contains_split, heb, Nat.add_comm]

theorem firstJoined_some (h : firstJoined b l = some (i, b')) :
    ∃ e, l[i]? = some e ∧ joined b e = some b' := by
  induction l generalizing i with
  | nil => cases h
  | cons e l ih =>
    rw [firstJoined] at h
    split at h
    next b'' hb =>
      obtain ⟨rfl, rfl⟩ : 0 = i ∧ b'' = b' := by simpa using h
      exact ⟨e, rfl, hb⟩
    next =>
      obtain ⟨⟨j, c⟩, hj, hr⟩ := map_eq_some_iff.mp h
      obtain ⟨rfl, rfl⟩ : j + 1 = i ∧ c = b' := by simpa using hr
      exact ih hj

/-- **The merging loop changes no address's owners.** -/
theorem cover_coalesce (x : ℕ) : ∀ (fuel : ℕ) (b : Block) (l : List Block),
    cover ((coalesce fuel b l).1 :: (coalesce fuel b l).2) x = cover (b :: l) x
  | 0, _, _ => rfl
  | fuel + 1, b, l => by
    rw [coalesce]
    split
    next => rfl
    next i b' h =>
      obtain ⟨e, he, hjoin⟩ := firstJoined_some h
      rw [cover_coalesce x fuel, cover_cons, cover_cons, cover_swapRemove he,
        ← contains_joined hjoin, Nat.add_assoc]

/-- **A push adds the window at most once.** -/
theorem cover_push_le (l : List Block) (base size x : ℕ) :
    cover (push l base size) x ≤ cover (⟨base, size⟩ :: l) x := by
  unfold push
  dsimp only
  split_ifs
  · rw [cover_cons]
    exact Nat.le_add_left _ _
  · rw [← cover_coalesce x l.length, cover_append, cover_cons, cover_cons, cover_nil]
    omega
  · rw [← cover_coalesce x l.length, cover_cons]
    exact Nat.le_add_left _ _

end Push

/-! ## Taking a window -/

/-- The first entry of just this size that ends early enough. -/
def exactFit (l : List Block) (size limit : ℕ) : Option ℕ :=
  l.findIdx? fun e => e.size = size ∧ e.addr + size ≤ limit

/-- One round of the search for the smallest entry that is large enough. -/
def better (size limit : ℕ) (best : Option ℕ × ℕ) (e : Block × ℕ) : Option ℕ × ℕ :=
  if size ≤ e.1.size ∧ e.1.addr + size ≤ limit ∧ e.1.size < best.2 then (some e.2, e.1.size)
  else best

/-- The search, which starts from `u64::MAX`. -/
def bestFit (l : List Block) (size limit : ℕ) : Option ℕ :=
  (l.zipIdx.foldl (better size limit) (none, 2 ^ 64 - 1)).1

/-- `FreeIovaWindows::take`: the address of the window, and the list that is left. -/
def take (l : List Block) (size limit : ℕ) : Option (ℕ × List Block) :=
  if size = 0 ∨ size % 4096 ≠ 0 then none
  else
    match exactFit l size limit with
    | some i => l[i]?.map fun e => (e.addr, swapRemove l i)
    | none =>
      match bestFit l size limit with
      | none => none
      | some i => l[i]?.map fun e =>
        if e.size = size then (e.addr, swapRemove l i)
        else (e.addr, l.set i ⟨e.addr + size, e.size - size⟩)

section Take

variable {e : Block} {l l' : List Block} {i size limit va : ℕ}

theorem exactFit_some (h : exactFit l size limit = some i) :
    ∃ e, l[i]? = some e ∧ e.size = size ∧ e.addr + size ≤ limit := by
  obtain ⟨hi, hfit, -⟩ := findIdx?_eq_some_iff_getElem.mp h
  obtain ⟨hsize, hend⟩ := of_decide_eq_true hfit
  exact ⟨l[i], getElem?_eq_getElem hi, hsize, hend⟩

/-- What the search has found so far is an entry that fits. -/
theorem bestFit_some (h : bestFit l size limit = some i) :
    ∃ e, l[i]? = some e ∧ size ≤ e.size ∧ e.addr + size ≤ limit := by
  have hfold : ∀ (es : List (Block × ℕ)) (best : Option ℕ × ℕ),
      (∀ i, best.1 = some i → ∃ e, l[i]? = some e ∧ size ≤ e.size ∧ e.addr + size ≤ limit) →
      (∀ e ∈ es, l[e.2]? = some e.1) →
      ∀ i, (es.foldl (better size limit) best).1 = some i →
        ∃ e, l[i]? = some e ∧ size ≤ e.size ∧ e.addr + size ≤ limit := by
    intro es
    induction es with
    | nil => exact fun best hbest _ => hbest
    | cons e es ih =>
      intro best hbest hes
      refine ih _ ?_ fun e' he' => hes e' (mem_cons_of_mem _ he')
      intro j hj
      unfold better at hj
      split_ifs at hj with hfit
      · cases hj
        exact ⟨e.1, hes e mem_cons_self, hfit.1, hfit.2.1⟩
      · exact hbest j hj
  refine hfold l.zipIdx (none, _) nofun (fun e he => ?_) i h
  exact mem_zipIdx_iff_getElem?.mp he

theorem cover_set {e' : Block} (h : l[i]? = some e) (x : ℕ) :
    cover (l.set i e') x + (e.contains x).toNat = cover l x + (e'.contains x).toNat := by
  obtain ⟨hi, rfl⟩ := List.getElem?_eq_some_iff.mp h
  have hl : l = l.take i ++ l[i] :: l.drop (i + 1) := by
    rw [getElem_cons_drop, take_append_drop]
  have hset : l.set i e' = l.take i ++ e' :: l.drop (i + 1) := by
    rw [set_eq_take_append_cons_drop, if_pos hi]
  have hcover : cover l x =
      cover (l.take i) x + ((l[i].contains x).toNat + cover (l.drop (i + 1)) x) := by
    conv_lhs => rw [hl, cover_append, cover_cons]
  rw [hset, cover_append, cover_cons]
  omega

/-- **A take moves the window out of the list**, and the window ends below the limit. -/
theorem take_some (h : take l size limit = some (va, l')) :
    va + size ≤ limit ∧ ∀ x, cover l x = cover (⟨va, size⟩ :: l') x := by
  -- an entry of just this size leaves the list
  have hwhole : ∀ {i e}, l[i]? = some e → e.size = size → e.addr + size ≤ limit →
      (e.addr, swapRemove l i) = (va, l') →
      va + size ≤ limit ∧ ∀ x, cover l x = cover (⟨va, size⟩ :: l') x := by
    rintro i e he rfl hend heq
    cases heq
    exact ⟨hend, fun x => by rw [cover_swapRemove he, cover_cons]⟩
  unfold take at h
  split_ifs at h
  split at h
  next i hi =>
    obtain ⟨e, he, hsize, hend⟩ := exactFit_some hi
    rw [he] at h
    exact hwhole he hsize hend (some.inj h)
  next =>
    split at h
    · cases h
    rename_i i hi
    obtain ⟨e, he, hsize, hend⟩ := bestFit_some hi
    rw [he, map_some] at h
    split_ifs at h with hsz
    · exact hwhole he hsz hend (some.inj h)
    · cases h
      refine ⟨hend, fun x => ?_⟩
      have hset : cover (l.set i ⟨e.addr + size, e.size - size⟩) x + (e.contains x).toNat =
          cover l x + (Block.contains ⟨e.addr + size, e.size - size⟩ x).toNat := cover_set he x
      have hsplit := contains_split e.addr size (e.size - size) x
      rw [Nat.add_sub_cancel' hsize, show (⟨e.addr, e.size⟩ : Block) = e from rfl] at hsplit
      rw [cover_cons]
      omega

end Take

end Bedrock.Iommu
