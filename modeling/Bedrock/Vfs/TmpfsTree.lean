import Bedrock.Lib.Assoc
import Bedrock.Lib.Names
import Bedrock.Vfs.Tmpfs

/-!
# Vfs/TmpfsTree — the names of a tmpfs as a tree

Moves and links touch only the maps they name, while being a tree is a property of the whole:

    rename  root/a --▸ root/b/a        is b below a?     has b an a already?
    link    root/a --▸ root/c          is a a directory?

Neither is asked of a tmpfs: directories may be linked, a directory with children may be
overwritten or unlinked, and whether it is moved below itself is asked of the dentries only.  In
runs that do none of this the names stay a tree.
-/

namespace Bedrock.Tmpfs

open Function Relation Names List Option Nat

namespace Fs

variable {s s' : Fs} {i i' j d : ℕ} {name old new : Str} {c c' : List (Str × ℕ)} {e : Entry}

/-! ## The naming -/

/-- What each directory calls by each name. -/
def names (s : Fs) : Names ℕ Str := fun i name => (s.children i).bind (·.lookup name)

def IsDir (s : Fs) (i : ℕ) : Prop := (s.children i).isSome

theorem lookup_take (c : List (Str × ℕ)) (name n : Str) :
    (take c name).lookup n = if n = name then none else c.lookup n :=
  lookup_filter_ne c name n

theorem lookup_put (c : List (Str × ℕ)) (name n : Str) (j : ℕ) :
    (put c name j).lookup n = if n = name then some j else c.lookup n := by
  have htake : (c.filter fun e => e.1 ≠ name).lookup n = _ := lookup_take c name n
  rw [put, lookup_cons_ite, htake]
  by_cases hn : n = name
  · rw [if_pos hn, if_pos hn]
  · rw [if_neg hn, if_neg hn, if_neg hn]

theorem names_of_children (hc : s.children i = some c) (n : Str) : s.names i n = c.lookup n := by
  rw [names, hc]
  rfl

theorem children_setChildren (hc : s.children i = some c) (a : ℕ) :
    (s.setChildren i c').children a = if a = i then some c' else s.children a := by
  have hentry := entry_setEntry s i a (.dir c')
  by_cases ha : a = i
  · rw [if_pos ha, children_eq_some.mp hc] at hentry
    rw [if_pos ha]
    exact children_eq_some.mpr hentry
  · rw [if_neg ha] at hentry ⊢
    rw [children, children, setChildren, hentry]

theorem names_setChildren (hc : s.children i = some c) (a : ℕ) (n : Str) :
    (s.setChildren i c').names a n = if a = i then c'.lookup n else s.names a n := by
  rw [names, children_setChildren hc]
  split_ifs <;> rfl

theorem names_put (hc : s.children i = some c) :
    (s.setChildren i (put c name j)).names = s.names.set i name (some j) := by
  funext a n
  rw [names_setChildren hc, lookup_put, Names.set]
  obtain rfl | ha := eq_or_ne a i
  · by_cases hn : n = name <;> simp [names_of_children hc]
  · simp [ha]

theorem names_take (hc : s.children i = some c) :
    (s.setChildren i (take c name)).names = s.names.set i name none := by
  funext a n
  rw [names_setChildren hc, lookup_take, Names.set]
  obtain rfl | ha := eq_or_ne a i
  · by_cases hn : n = name <;> simp [names_of_children hc]
  · simp [ha]

theorem isDir_setChildren (hc : s.children i = some c) : (s.setChildren i c').IsDir = s.IsDir := by
  funext a
  rw [IsDir, IsDir, children_setChildren hc]
  by_cases ha : a = i
  · simp [ha, hc]
  · simp [ha]

/-- The directory names nothing. -/
def idle (s : Fs) (j : ℕ) : Bool :=
  match s.children j with
  | some (_ :: _) => false
  | _ => true

theorem not_busy_of_idle (h : s.idle j = true) : ¬s.names.Busy j := by
  rintro ⟨k, n, hn⟩
  unfold idle at h
  rw [names] at hn
  cases hc : s.children j with
  | none => simp [hc] at hn
  | some c =>
    cases c with
    | nil => simp [hc] at hn
    | cons x c => simp [hc] at h

theorem children_of_not_busy (hc : s.children j = some c) (h : ¬s.names.Busy j) : c = [] := by
  cases c with
  | nil => rfl
  | cons x c =>
    refine absurd ⟨x.2, x.1, ?_⟩ h
    rw [names_of_children hc]
    exact (lookup_cons_ite x.1 x.1 x.2 c).trans (if_pos rfl)

/-! ## Parents -/

/-- Directory `a` has an entry for `j`. -/
def hasEntry (s : Fs) (a j : ℕ) : Bool :=
  ((s.children a).getD []).any fun e => s.names a e.1 = some j

theorem hasEntry_iff : s.hasEntry i j = true ↔ s.names.Edge i j := by
  constructor
  · intro h
    obtain ⟨e, -, he⟩ := any_eq_true.mp h
    exact ⟨e.1, of_decide_eq_true he⟩
  · rintro ⟨n, hn⟩
    have hn' := hn
    obtain ⟨c, hc, hlookup⟩ := bind_eq_some_iff.mp hn'
    refine any_eq_true.mpr ⟨(n, j), ?_, decide_eq_true hn⟩
    rw [hc]
    exact mem_of_lookup hlookup

/-- The first directory with an entry for `j`. -/
def parent (s : Fs) (j : ℕ) : Option ℕ := (List.range s.next).find? fun a => s.hasEntry a j

theorem edge_of_parent (h : s.parent j = some i) : s.names.Edge i j :=
  hasEntry_iff.mp (find?_some (p := fun a => s.hasEntry a j) h)

/-! ## The tree -/

/-- **The directories are a tree**: each of them has one entry, or has been removed and is empty,
none is below itself, and each that has children hangs from the root. -/
structure IsTree (s : Fs) : Prop where
  one_entry : ∀ j, s.IsDir j → j ≠ root →
    (∃! p : ℕ × Str, s.names p.1 p.2 = some j) ∨
      (∀ i name, s.names i name ≠ some j) ∧ s.children j = some []
  acyclic : ∀ j, ¬TransGen s.names.Edge j j
  attached : ∀ j, s.names.Busy j → ReflTransGen s.names.Edge root j

/-- The number of an inode. -/
def inoAt (s : Fs) (i : ℕ) : Option ℕ := (s.inodes i).map TmpfsInode.ino

/-- The naming is rooted, inodes and their numbers are new when they are made. -/
structure TreeInv (s : Fs) : Prop where
  rooted : Rooted root s.IsDir s.names
  fresh : ∀ i, s.next ≤ i → s.inoAt i = none
  below : ∀ i n j, s.names i n = some j → j < s.next
  ino_lt : ∀ i n, s.inoAt i = some n → n < s.nextIno
  ino_inj : ∀ i j n, s.inoAt i = some n → s.inoAt j = some n → i = j

theorem TreeInv.isTree (h : TreeInv s) : s.IsTree where
  one_entry := by
    intro j hj hroot
    by_cases hentry : ∃ i n, s.names i n = some j
    · obtain ⟨i, n, hn⟩ := hentry
      refine .inl ⟨(i, n), hn, fun p hp => ?_⟩
      obtain ⟨h1, h2⟩ := h.rooted.unique hj hp hn
      exact Prod.ext h1 h2
    · have hno : ∀ i n, s.names i n ≠ some j := fun i n hn => hentry ⟨i, n, hn⟩
      have hidle : ¬s.names.Busy j := by
        intro hbusy
        -- a busy directory is the root or the end of an edge
        obtain heq | ⟨k, -, n, hn⟩ := ReflTransGen.cases_tail (h.rooted.reach j hbusy)
        · exact hroot heq
        · exact hno k n hn
      obtain ⟨c, hc⟩ := isSome_iff_exists.mp hj
      exact .inr ⟨hno, by rw [hc, children_of_not_busy hc hidle]⟩
  acyclic := h.rooted.acyclic
  attached := h.rooted.reach

/-! ## The condition -/

/-- The directory is part of the tree. -/
def attached (s : Fs) (d : ℕ) : Bool := d = root ∨ (s.parent d).isSome

/-- The name leads to nothing, or to something without children. -/
def idleAt (s : Fs) (d : ℕ) (name : Str) : Bool := (s.names d name).all s.idle

/-- A directory does not end up below itself. -/
def notAbove (s : Fs) (j d : ℕ) : Bool :=
  (s.children j).isNone || decide (j ∉ ancestors s.parent s.next d)

/-- Nothing is made in a removed directory, no directory is linked, none with children is
overwritten or unlinked, and none is moved below itself. -/
def careful (s : Fs) : Op → Bool
  | .create d _ | .mkdir d _ | .mkfifo d _ | .mknod d _ _ | .symlink d _ _ => s.attached d
  | .link d old _ => (s.names d old).all fun j => (s.children j).isNone
  | .rename d old new => old = new ∨ s.idleAt d new
  | .renameAcrossDirs refused d d' old new => refused ∨ s.attached d' ∧
      (d = d' ∧ old = new ∨ s.idleAt d' new) ∧ (s.names d old).all fun j => s.notAbove j d'
  | .unlink d name => s.idleAt d name
  | _ => true

/-! ## Steps -/

theorem inoAt_setEntry (s : Fs) (i : ℕ) (e : Entry) : (s.setEntry i e).inoAt = s.inoAt := by
  funext a
  obtain rfl | ha := eq_or_ne a i
  · simp only [inoAt, setEntry, update_self]
    cases s.inodes a <;> rfl
  · simp only [inoAt, setEntry, update_of_ne ha]

theorem children_of_inoAt_none (h : s.inoAt i = none) : s.children i = none := by
  have hnone : s.inodes i = none := by simpa [inoAt] using h
  rw [children, entry, hnone]
  rfl

variable (h : TreeInv s)
include h

theorem TreeInv.lt_next (hc : s.children i = some c) : i < s.next := by
  by_contra hle
  rw [children_of_inoAt_none (h.fresh i (not_lt.mp hle))] at hc
  cases hc

theorem busy_lt_next (hi : s.names.Busy i) : i < s.next := by
  obtain ⟨c, hc⟩ := isSome_iff_exists.mp (h.rooted.dir i hi)
  exact h.lt_next hc

theorem TreeInv.reach_of_attached (ha : s.attached d = true) : s.names.Reach root d := by
  obtain rfl | hp := of_decide_eq_true ha
  · exact .refl
  · obtain ⟨p, hp⟩ := isSome_iff_exists.mp hp
    exact h.rooted.reach_of_edge (edge_of_parent hp)

theorem TreeInv.parent_eq (hj : s.IsDir j) (hij : s.names.Edge i j) : s.parent j = some i := by
  cases hp : s.parent j with
  | none =>
    have hnone := find?_eq_none.mp hp i (mem_range.mpr (busy_lt_next h ⟨j, hij⟩))
    exact absurd (hasEntry_iff.mpr hij) hnone
  | some p =>
    obtain ⟨n, hn⟩ := hij
    obtain ⟨m, hm⟩ := edge_of_parent hp
    rw [(h.rooted.unique hj hm hn).1]

theorem TreeInv.not_above (hd : s.IsDir d) (hja : s.notAbove j d = true) :
    ¬ReflTransGen s.names.Edge j d := by
  intro hjd
  obtain hfile | hmem := Bool.or_eq_true_iff.mp hja
  · -- a file is above nothing but itself
    have hnone : s.children j = none := isNone_iff_eq_none.mp hfile
    obtain rfl | ⟨k, ⟨n, hn⟩, -⟩ := ReflTransGen.cases_head hjd
    · rw [IsDir, hnone] at hd
      cases hd
    · rw [names, hnone] at hn
      cases hn
  · refine of_decide_eq_true hmem ?_
    have hanc := h.rooted.mem_ancestors (S := Finset.range s.next)
      (fun i j hj hij => h.parent_eq hj hij)
      (fun i hi => Finset.mem_range.mpr (busy_lt_next h hi)) hd hjd
    rwa [Finset.card_range] at hanc

/-- A step that changes names only and leaves the naming rooted. -/
theorem TreeInv.rename_only (hdir : s'.IsDir = s.IsDir) (hino : s'.inoAt = s.inoAt)
    (hnext : s'.next = s.next) (hnextIno : s'.nextIno = s.nextIno)
    (hr : Rooted root s.IsDir s'.names) (hb : ∀ a n j, s'.names a n = some j → j < s.next) :
    TreeInv s' where
  rooted := by rw [hdir]; exact hr
  fresh := by rw [hino, hnext]; exact h.fresh
  below := by rw [hnext]; exact hb
  ino_lt := by rw [hino, hnextIno]; exact h.ino_lt
  ino_inj := by rw [hino]; exact h.ino_inj

theorem TreeInv.setChildren (hc : s.children i = some c)
    (hr : Rooted root s.IsDir (s.setChildren i c').names)
    (hb : ∀ n j, c'.lookup n = some j → j < s.next) : TreeInv (s.setChildren i c') := by
  refine h.rename_only (isDir_setChildren hc) (inoAt_setEntry s i _) rfl rfl hr fun a n j hn => ?_
  rw [names_setChildren hc] at hn
  split_ifs at hn
  · exact hb n j hn
  · exact h.below a n j hn

theorem TreeInv.lookup_lt (hc : s.children i = some c) {n : Str}
    (hn : c.lookup n = some j) : j < s.next :=
  h.below i n j (by rw [names_of_children hc]; exact hn)

theorem TreeInv.take_lt (hc : s.children i = some c) (n : Str) (k : ℕ)
    (hn : (take c name).lookup n = some k) : k < s.next := by
  rw [lookup_take] at hn
  split_ifs at hn
  exact h.lookup_lt hc hn

omit h in
theorem put_lt {b : ℕ} (hj : j < b) (hc : ∀ n k, c.lookup n = some k → k < b) (n : Str) (k : ℕ)
    (hn : (put c name j).lookup n = some k) : k < b := by
  rw [lookup_put] at hn
  split_ifs at hn
  · exact some.inj hn ▸ hj
  · exact hc n k hn

/-- Taking away the name of something without children. -/
theorem TreeInv.takeName (hc : s.children i = some c)
    (hidle : ∀ k, c.lookup name = some k → ¬s.names.Busy k) :
    TreeInv (s.setChildren i (take c name)) := by
  refine h.setChildren hc ?_ (h.take_lt hc)
  rw [names_take hc]
  exact h.rooted.clear fun k hk => hidle k (by rwa [names_of_children hc] at hk)

omit h in
theorem idle_of_idleAt (h : s.idleAt i name = true) (k : ℕ) (hk : s.names i name = some k) :
    ¬s.names.Busy k := by
  rw [idleAt, hk] at h
  exact not_busy_of_idle h

/-- A free name for something that is no directory, or has no name. -/
theorem TreeInv.putName (hc : s.children i = some c)
    (hi : s.names.Reach root i) (hfree : c.lookup name = none) (hj : j < s.next) (hroot : j ≠ root)
    (hno : s.IsDir j → ∀ a m, s.names a m ≠ some j) : TreeInv (s.setChildren i (put c name j)) := by
  refine h.setChildren hc ?_ (put_lt hj fun n k hk => h.lookup_lt hc hk)
  have hdir : s.IsDir i := by rw [IsDir, hc]; rfl
  rw [names_put hc]
  exact h.rooted.name hi hdir (by rw [names_of_children hc]; exact hfree) hroot hno

theorem names_newInode (fileType : FileType) (he : ∀ c, e = .dir c → c = []) :
    (s.newInode fileType e).names = s.names := by
  funext a n
  by_cases ha : a = s.next
  · have hold : s.names a n = none := by
      rw [names, ha, children_of_inoAt_none (h.fresh _ le_rfl)]
      rfl
    rw [hold, names, children, entry_newInode, if_pos ha]
    cases e with
    | dir c =>
      rw [he c rfl]
      rfl
    | _ => rfl
  · rw [names, names, children, children, entry_newInode, if_neg ha]

theorem TreeInv.newInode (fileType : FileType) (he : ∀ c, e = .dir c → c = []) :
    TreeInv (s.newInode fileType e) := by
  have hnames := names_newInode h fileType he
  have hchildren : ∀ a, a ≠ s.next → (s.newInode fileType e).children a = s.children a := by
    intro a ha
    rw [children, children, entry_newInode, if_neg ha]
  have hino : ∀ a, (s.newInode fileType e).inoAt a =
      if a = s.next then some s.nextIno else s.inoAt a := by
    intro a
    by_cases ha : a = s.next
    · simp only [inoAt, Fs.newInode, ha, update_self, if_true, map_some]
    · simp only [inoAt, Fs.newInode, update_of_ne ha, if_neg ha]
  exact {
    rooted := by
      rw [hnames]
      refine h.rooted.congr_dir (fun a ha => ?_) fun a ha => ?_
      · rw [IsDir, hchildren a (busy_lt_next h ha).ne]
        exact h.rooted.dir a ha
      · by_cases hnext : a = s.next
        · exact .inr fun i n hn => absurd (h.below i n a hn) (by omega)
        · rw [IsDir, hchildren a hnext] at ha
          exact .inl ha
    fresh := fun a ha => by
      have hlt : s.next < a := ha
      rw [hino, if_neg hlt.ne']
      exact h.fresh a hlt.le
    below := fun a n j hn => by
      rw [hnames] at hn
      exact (h.below a n j hn).trans (lt_succ_self _)
    ino_lt := fun a n hn => by
      rw [hino] at hn
      split_ifs at hn
      · cases hn
        exact lt_succ_self _
      · exact (h.ino_lt a n hn).trans (lt_succ_self _)
    ino_inj := fun a b n ha hb => by
      rw [hino] at ha hb
      split_ifs at ha hb with h1 h2
      · rw [h1, h2]
      · cases ha
        exact absurd (h.ino_lt b _ hb) (lt_irrefl _)
      · cases hb
        exact absurd (h.ino_lt a _ ha) (lt_irrefl _)
      · exact h.ino_inj a b n ha hb }

theorem TreeInv.addNew {fileType : FileType} (he : ∀ c, e = .dir c → c = [])
    (hi : s.attached i = true) (ha : s.addNew i name fileType e = .ok s') : TreeInv s' := by
  obtain ⟨c, hc, hfree, rfl⟩ := addNew_ok ha
  have hlt := h.lt_next hc
  have hnames := names_newInode h fileType he
  have hc' : (s.newInode fileType e).children i = some c := by
    rw [children, entry_newInode, if_neg hlt.ne]
    exact hc
  refine (h.newInode fileType he).putName hc' ?_ hfree (lt_succ_self _) ?_ fun _ a m hm => ?_
  · rw [hnames]
    exact h.reach_of_attached hi
  · exact ne_of_gt (lt_of_le_of_lt (zero_le i) hlt)
  · rw [hnames] at hm
    exact lt_irrefl _ (h.below a m _ hm)

theorem TreeInv.used (u : ℕ) (hs : List ℕ) : TreeInv { s with used := u, handles := hs } :=
  ⟨h.rooted, h.fresh, h.below, h.ino_lt, h.ino_inj⟩

theorem TreeInv.link (hdir : ((s.names i old).all fun j => (s.children j).isNone) = true)
    (ha : s.link i old new = .ok s') : TreeInv s' := by
  obtain ⟨c, j, hc, hj, hfree, rfl⟩ := link_ok ha
  have hj' : s.names i old = some j := by rw [names_of_children hc]; exact hj
  rw [hj'] at hdir
  have hnone : s.children j = none := isNone_iff_eq_none.mp hdir
  refine h.putName hc (h.rooted.reach i ⟨j, old, hj'⟩) hfree (h.lookup_lt hc hj) ?_ fun hd => ?_
  · rintro rfl
    exact h.rooted.root i old hj'
  · rw [IsDir, hnone] at hd
    cases hd

/-- Moving an entry, within a directory or to another one. -/
theorem TreeInv.rename (hidle : old = new ∨ s.idleAt i new = true)
    (ha : s.rename i old new = .ok s') : TreeInv s' := by
  obtain ⟨c, j, hc, hj, rfl⟩ := rename_ok ha
  have hj' : s.names i old = some j := by rw [names_of_children hc]; exact hj
  have hdir : s.IsDir i := by rw [IsDir, hc]; rfl
  have hnames : (s.setChildren i (put (take c old) new j)).names =
      (s.names.set i old none).set i new (some j) := by
    funext a n
    rw [names_setChildren hc, lookup_put, lookup_take, Names.set, Names.set]
    obtain rfl | ha := eq_or_ne a i
    · simp [names_of_children hc]
    · simp [ha]
  refine h.setChildren hc ?_ (put_lt (h.lookup_lt hc hj) (h.take_lt hc))
  rw [hnames]
  obtain rfl | hidle := hidle
  · have hsame : (s.names.set i old none).set i old (some j) = s.names := by
      funext a n
      rw [Names.set, Names.set]
      split_ifs with heq
      · rw [heq.1, heq.2, hj']
      · rfl
    rw [hsame]
    exact h.rooted
  · refine h.rooted.move hj' (h.rooted.reach i ⟨j, old, hj'⟩) hdir (idle_of_idleAt hidle) ?_
    intro hji
    exact h.rooted.acyclic i (TransGen.head' ⟨old, hj'⟩ hji)

theorem TreeInv.renameAcrossDirs (hi' : s.attached i' = true)
    (hidle : i = i' ∧ old = new ∨ s.idleAt i' new = true)
    (habove : ((s.names i old).all fun j => s.notAbove j i') = true)
    (ha : s.renameAcrossDirs i i' old new = .ok s') : TreeInv s' := by
  rcases renameAcrossDirs_ok ha with
    ⟨n, n', hn, hn', hino, hren⟩ | ⟨c, c', j, hne, hc, hc', hj, rfl⟩
  · obtain rfl : i = i' := h.ino_inj i i' n.ino (by rw [inoAt, hn]; rfl)
      (by rw [inoAt, hn', hino]; rfl)
    exact h.rename (hidle.imp And.right id) hren
  · have hj' : s.names i old = some j := by rw [names_of_children hc]; exact hj
    have hdir' : s.IsDir i' := by rw [IsDir, hc']; rfl
    have hidle' := hidle.resolve_left fun heq => hne heq.1
    rw [hj'] at habove
    have hmid : (s.setChildren i (take c old)).children i' = some c' := by
      rw [children_setChildren hc, if_neg hne.symm]
      exact hc'
    have hnames : ((s.setChildren i (take c old)).setChildren i' (put c' new j)).names =
        (s.names.set i old none).set i' new (some j) := by rw [names_put hmid, names_take hc]
    refine h.rename_only ?_ ?_ rfl rfl ?_ fun a n k hk => ?_
    · rw [isDir_setChildren hmid, isDir_setChildren hc]
    · exact (inoAt_setEntry _ i' _).trans (inoAt_setEntry s i _)
    · rw [hnames]
      exact h.rooted.move hj' (h.reach_of_attached hi') hdir' (idle_of_idleAt hidle')
        (h.not_above hdir' habove)
    · rw [hnames] at hk
      obtain ⟨-, -, rfl⟩ | ⟨-, hk⟩ := eq_of_set_some hk
      · exact h.lookup_lt hc hj
      · exact h.below a n k (eq_of_set_none hk)

omit h in
theorem children_of_isData (he : s.entry i = some e) (hd : e.isData = true) :
    s.children i = none := by
  rw [children, he]
  cases e <;> first | rfl | cases hd

theorem TreeInv.rewritten (hw : s.Rewritten i s') : TreeInv s' := by
  obtain ⟨e0, e, u, he, hd0, hd, rfl⟩ := hw
  have hchildren : ∀ a, (s.setEntry i e).children a = s.children a := by
    intro a
    have hentry := entry_setEntry s i a e
    by_cases ha : a = i
    · rw [if_pos ha, he] at hentry
      rw [children_of_isData hentry hd, ha, children_of_isData he hd0]
    · rw [children, children, hentry, if_neg ha]
  have hnames : (s.setEntry i e).names = s.names := by
    funext a n
    rw [names, names, hchildren]
  have hdir : (s.setEntry i e).IsDir = s.IsDir := by
    funext a
    rw [IsDir, IsDir, hchildren]
  have hinv : TreeInv (s.setEntry i e) :=
    h.rename_only hdir (inoAt_setEntry s i e) rfl rfl (hnames ▸ h.rooted)
      (hnames ▸ h.below)
  exact hinv.used u s.handles

theorem named_of_edge (hij : s.names.Edge i j) : s.named j = true := by
  have hlt := busy_lt_next h ⟨j, hij⟩
  obtain ⟨n, hn⟩ := hij
  obtain ⟨c, hc, hlookup⟩ := bind_eq_some_iff.mp hn
  refine any_eq_true.mpr ⟨i, mem_range.mpr hlt, any_eq_true.mpr ⟨(n, j), ?_, ?_⟩⟩
  · rw [hc]
    exact mem_of_lookup hlookup
  · exact decide_eq_true rfl

theorem TreeInv.drop (hd : s.drop j = some s') : TreeInv s' := by
  obtain ⟨n, hn, hroot, -, hnamed, rfl⟩ := drop_some hd
  have hidle : ¬s.names.Busy j := by
    intro hbusy
    obtain heq | ⟨k, -, hk⟩ := ReflTransGen.cases_tail (h.rooted.reach j hbusy)
    · exact hroot heq
    · rw [named_of_edge h hk] at hnamed
      cases hnamed
  set s1 : Fs := { s with inodes := update s.inodes j none } with hs1
  have hchildren : ∀ a, s1.children a = if a = j then none else s.children a := by
    intro a
    by_cases ha : a = j
    · simp only [hs1, children, entry, ha, update_self, if_true, map_none]
    · simp only [hs1, children, entry, update_of_ne ha, if_neg ha]
  have hino : ∀ a, s1.inoAt a = if a = j then none else s.inoAt a := by
    intro a
    by_cases ha : a = j
    · simp only [hs1, inoAt, ha, update_self, if_true, map_none]
    · simp only [hs1, inoAt, update_of_ne ha, if_neg ha]
  have hnames : s1.names = s.names := by
    funext a m
    by_cases ha : a = j
    · have hnone : s.names a m = none := by
        rw [ha]
        exact eq_none_iff_forall_ne_some.mpr fun k hk => hidle ⟨k, m, hk⟩
      rw [hnone, names, hchildren, if_pos ha]
      rfl
    · rw [names, names, hchildren, if_neg ha]
  have hinv : TreeInv s1 := by
    refine ⟨?_, fun a ha => ?_, ?_, fun a m hm => ?_, fun a b m ha hb => ?_⟩
    · rw [hnames]
      refine h.rooted.congr_dir (fun a ha => ?_) fun a ha => ?_
      · have hne : a ≠ j := fun heq => hidle (heq ▸ ha)
        rw [IsDir, hchildren, if_neg hne]
        exact h.rooted.dir a ha
      · rw [IsDir, hchildren] at ha
        split_ifs at ha
        · cases ha
        · exact .inl ha
    · rw [hino]
      split_ifs
      · rfl
      · exact h.fresh a ha
    · rw [hnames]
      exact h.below
    · rw [hino] at hm
      split_ifs at hm
      exact h.ino_lt a m hm
    · rw [hino] at ha hb
      split_ifs at ha hb
      exact h.ino_inj a b m ha hb
  split_ifs
  · exact hinv.used _ s.handles
  · exact hinv

/-- **A careful operation keeps the tree.** -/
theorem TreeInv.apply {op : Op} (hop : s.careful op = true)
    (ha : s.apply op = some (.ok s')) : TreeInv s' := by
  cases op with
  | create i name | mkfifo i name | mknod i name mode => exact h.addNew (by nofun) hop (some.inj ha)
  | mkdir i name => exact h.addNew (fun _ hc => (Entry.dir.inj hc).symm) hop (some.inj ha)
  | symlink i name target =>
    obtain ⟨s1, hr, ha⟩ := symlink_ok (some.inj ha)
    obtain ⟨u, rfl⟩ : ∃ u, s1 = { s with used := u } := by
      unfold reserveBudget at hr
      split_ifs at hr <;> exact ⟨_, (Except.ok.inj hr).symm⟩
    exact (h.used u s.handles).addNew (by nofun) hop ha
  | link i old new => exact h.link hop (some.inj ha)
  | writeAt i offset buf => exact h.rewritten (writeAt_ok ha)
  | truncate i len => exact h.rewritten (truncate_ok (some.inj ha))
  | rename i old new => exact h.rename (of_decide_eq_true hop) (some.inj ha)
  | renameAcrossDirs refused i i' old new =>
    have ha := some.inj ha
    split_ifs at ha with hrefused
    obtain ⟨hi', hidle, habove⟩ := (of_decide_eq_true hop).resolve_left hrefused
    exact h.renameAcrossDirs hi' hidle habove ha
  | unlink i name =>
    obtain ⟨c, j, hc, -, rfl⟩ := unlink_ok (some.inj ha)
    refine h.takeName hc fun k hk => idle_of_idleAt hop k ?_
    rw [names_of_children hc]
    exact hk
  | rmdir i name =>
    obtain ⟨c, j, hc, hj, hempty, rfl⟩ := rmdir_ok (some.inj ha)
    refine h.takeName hc fun k hk hbusy => ?_
    obtain rfl : j = k := some.inj (hj.symm.trans hk)
    obtain ⟨c', hc'⟩ := isSome_iff_exists.mp (h.rooted.dir j hbusy)
    obtain ⟨k, n, hn⟩ := hbusy
    rw [names_of_children hc', hempty c' hc'] at hn
    cases hn
  | hold i | release i =>
    simp only [Fs.apply] at ha
    split_ifs at ha
    cases ha
    exact h.used s.used _
  | drop i =>
    obtain ⟨t, ht, heq⟩ := map_eq_some_iff.mp ha
    cases heq
    exact h.drop ht

theorem TreeInv.step {op : Op} (hop : s.careful op = true)
    (hs : s.step op = some s') : TreeInv s' := by
  obtain ⟨r, hr, heq⟩ := map_eq_some_iff.mp hs
  cases r with
  | ok t =>
    obtain rfl : t = s' := heq
    exact h.apply hop hr
  | error e =>
    obtain rfl : s = s' := heq
    exact h

omit h

theorem treeInv_mount {nextIno : ℕ} (hino : 1 < nextIno) : TreeInv (mount nextIno) := by
  have hnames : ∀ i n, (mount nextIno).names i n = none := by
    intro i n
    by_cases hi : i = root
    · rw [hi]
      rfl
    · rw [names, children, entry, mount]
      simp only [if_neg hi]
      rfl
  have hidle : ∀ i, ¬(mount nextIno).names.Busy i := by
    rintro i ⟨k, n, hn⟩
    rw [hnames] at hn
    cases hn
  have hinoAt : ∀ i n, (mount nextIno).inoAt i = some n → i = root ∧ n = 1 := by
    intro i n hn
    rw [inoAt, mount] at hn
    by_cases hi : i = root
    · simp only [if_pos hi] at hn
      exact ⟨hi, (some.inj hn).symm⟩
    · simp only [if_neg hi] at hn
      cases hn
  exact {
    rooted :=
      { dir := fun j hj => absurd hj (hidle j)
        unique := fun _ h1 => by rw [hnames] at h1; cases h1
        root := fun i n hn => by rw [hnames] at hn; cases hn
        reach := fun j hj => absurd hj (hidle j) }
    fresh := fun i hi => by
      have hpos : 1 ≤ i := hi
      cases hn : (mount nextIno).inoAt i with
      | none => rfl
      | some n => exact absurd (hinoAt i n hn).1 (ne_of_gt hpos)
    below := fun i n j hn => by rw [hnames] at hn; cases hn
    ino_lt := fun i n hn => by rw [(hinoAt i n hn).2]; exact hino
    ino_inj := fun i j n hi hj => by rw [(hinoAt i n hi).1, (hinoAt j n hj).1] }

/-- **In a careful run the directories stay a tree.** -/
theorem tree_run {nextIno : ℕ} (hino : 1 < nextIno) {ops : List Op} {s : Fs}
    (hops : RunMeets step (fun s op => s.careful op = true) (mount nextIno) ops)
    (ht : run step (mount nextIno) ops = some s) : s.IsTree := by
  have hinv : TreeInv s := run_invariant TreeInv (fun _ _ _ h hop hs => h.step hop hs) ops
    (treeInv_mount hino) hops ht
  exact hinv.isTree

/-- A directory moved below another, not below itself, and back over an empty one. -/
theorem tree_moves : ∃ s, run step (mount 2)
      [.mkdir root ['a'], .mkdir root ['b'], .create 1 ['f'], .link 1 ['f'] ['g'],
        .renameAcrossDirs false root 2 ['a'] ['a'], .mkdir root ['c'],
        .renameAcrossDirs true 2 1 ['a'] ['a'], .renameAcrossDirs false 2 root ['a'] ['c'],
        .rmdir root ['b']] = some s ∧
    s.names root ['c'] = some 1 ∧ s.IsTree :=
  exists_of_any (fun s => s.names root ['c'] = some 1) (by decide +kernel) fun _ hs hname =>
    ⟨hname, tree_run (by decide) (by decide +kernel) hs⟩

/-- A directory with two entries. -/
theorem directory_linked : ∃ s,
    run step (mount 2) [.mkdir root ['a'], .link root ['a'] ['b']] = some s ∧ ¬s.IsTree := by
  refine exists_of_any (fun s => (s.children 1).isSome ∧ s.names root ['a'] = some 1 ∧
    s.names root ['b'] = some 1) (by decide +kernel) fun s _ hnames htree => ?_
  obtain ⟨hdir, ha, hb⟩ := hnames
  obtain ⟨p, -, hp⟩ | ⟨hno, -⟩ := htree.one_entry 1 hdir (by decide)
  · have heq := (hp (root, ['a']) ha).trans (hp (root, ['b']) hb).symm
    exact absurd heq (by decide)
  · exact hno root ['a'] ha

end Fs

end Bedrock.Tmpfs
