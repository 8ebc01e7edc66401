import Bedrock.Vfs.Dentries

/-!
# Vfs/NameOps — what the operations on a name do

One lemma for each operation says what a success amounts to, first for an inode and then for a
dentry, where the children of the dentry and the cache are changed as well:

    unlinkAt i n      the entry of n leaves the directory i
    unlinkName d n    …and the child n leaves the dentry d, and (ino, n) the cache

Each of them keeps the references good.
-/

namespace Bedrock

open Function List Option

namespace Vfs

variable {v v' : Vfs} {d c i j n m : ℕ} {name : Str} {e : Dentry}

/-! ## Operations of the inodes -/

variable {children : List (Str × ℕ)} {old new : Str} {fileType : FileType} {entry : TmpfsEntry}

theorem entries_eq_some : v.entries i = some children ↔ (v.inodes i).entry = .dir children := by
  unfold entries
  split
  next c hc => simp [hc]
  next hc => exact ⟨nofun, fun h => absurd h (hc children)⟩

theorem Wf.entries_lt (h : v.Wf) (hi : i < v.nextInode) (hc : v.entries i = some children) :
    ∀ y ∈ children, y.2 < v.nextInode :=
  h.inode i hi children (entries_eq_some.mp hc)

theorem Wf.setEntries (h : v.Wf) (hc : ∀ y ∈ children, y.2 < v.nextInode) :
    (v.setEntries i children).Wf := by
  refine h.setInodes le_rfl fun a ha => ?_
  by_cases hai : a = i
  · rw [hai, update_self]
    rintro _ ⟨⟩ y hy
    exact hc y hy
  · rw [update_of_ne hai]
    exact h.inode a ha

/-- A new inode that nothing names yet. -/
def pushInode (v : Vfs) (x : Inode) : Vfs :=
  { v with
    inodes := update v.inodes v.nextInode x
    nextInode := v.nextInode + 1
    nextIno := v.nextIno + 1 }

theorem Wf.pushInode (h : v.Wf) {x : Inode}
    (hx : ∀ children, x.entry = .dir children → children = []) : (v.pushInode x).Wf := by
  refine h.setInodes (Nat.le_succ _) fun a ha => ?_
  obtain hlt | rfl := Nat.lt_succ_iff_lt_or_eq.mp ha
  · rw [update_of_ne hlt.ne]
    exact (h.inode a hlt).mono (Nat.le_succ _)
  · rw [update_self]
    intro children hc y hy
    rw [hx children hc] at hy
    cases hy

theorem addNew_ok (h : v.addNew i name fileType entry = .ok v') :
    ∃ children, v.entries i = some children ∧ children.lookup name = none ∧
      v' = (v.pushInode ⟨v.nextIno, fileType, entry, (v.inodes i).fs⟩).setEntries i
        ((name, v.nextInode) :: children) := by
  unfold addNew at h
  split at h
  · cases h
  rename_i children hc
  split_ifs at h with hsome
  cases h
  exact ⟨children, hc, not_isSome_iff_eq_none.mp hsome, rfl⟩

theorem symlink_ok {target : Str} (h : v.symlink i name target = .ok v') :
    ∃ used, { v with used := used }.addNew i name .symlink (.symlink target) = .ok v' := by
  unfold symlink at h
  split at h
  · cases h
  simp only at h
  split_ifs at h
  exact ⟨_, h⟩

theorem link_ok (h : v.link i old new = .ok v') :
    ∃ children j, v.entries i = some children ∧ children.lookup old = some j ∧
      children.lookup new = none ∧ v' = v.setEntries i ((new, j) :: children) := by
  unfold link at h
  split at h
  · cases h
  rename_i children hc
  split at h
  · cases h
  rename_i j hj
  split_ifs at h with hsome
  cases h
  exact ⟨children, j, hc, hj, not_isSome_iff_eq_none.mp hsome, rfl⟩

theorem rename_ok (h : v.rename i old new = .ok v') :
    ∃ children j, v.entries i = some children ∧ children.lookup old = some j ∧
      v' = v.setEntries i ((new, j) :: children.filter fun e => e.1 ≠ old ∧ e.1 ≠ new) := by
  unfold rename at h
  split at h
  · cases h
  rename_i children hc
  split at h
  · cases h
  rename_i j hj
  cases h
  exact ⟨children, j, hc, hj, rfl⟩

theorem unlinkAt_ok (h : v.unlinkAt i name = .ok v') :
    ∃ children, v.entries i = some children ∧ (children.lookup name).isSome ∧
      v' = v.setEntries i (children.filter fun e => e.1 ≠ name) := by
  unfold unlinkAt at h
  split at h
  · cases h
  rename_i children hc
  split at h
  · cases h
  rename_i j hj
  cases h
  exact ⟨children, hc, by rw [hj]; rfl, rfl⟩

/-- A directory that is removed leaves as a file does. -/
theorem unlinkAt_of_rmdirAt (h : v.rmdirAt i name = .ok v') : v.unlinkAt i name = .ok v' := by
  unfold rmdirAt at h
  split at h
  · cases h
  rename_i children hc
  split at h
  · cases h
  rename_i j hj
  split at h
  · cases h
  simpa only [unlinkAt, hc, hj] using h

/-- A move between directories is one within a directory, or takes the name from the one and gives
it to the other. -/
theorem renameAcross_ok {i' : ℕ} (h : v.renameAcross i i' old new = .ok v') :
    (v.inodes i).fs = (v.inodes i').fs ∧
      (((v.inodes i).ino = (v.inodes i').ino ∧ v.rename i old new = .ok v') ∨
      ((v.inodes i).ino ≠ (v.inodes i').ino ∧ ∃ source target j, v.entries i = some source ∧
        v.entries i' = some target ∧ source.lookup old = some j ∧
        v' = (v.setEntries i (source.filter fun e => e.1 ≠ old)).setEntries i'
          ((new, j) :: target.filter fun e => e.1 ≠ new))) := by
  unfold renameAcross at h
  split_ifs at h with hfs hdir hdot hino
  · exact ⟨not_not.mp hfs, .inl ⟨hino, h⟩⟩
  · refine ⟨not_not.mp hfs, .inr ⟨hino, ?_⟩⟩
    split at h
    next source target hs ht =>
      split at h
      · cases h
      rename_i j hj
      cases h
      exact ⟨source, target, j, hs, ht, hj, rfl⟩
    next => cases h

variable (h : v.Wf)
include h

variable (hi : i < v.nextInode)
include hi

theorem Wf.addNew (hn : v.addNew i name fileType entry = .ok v')
    (hx : ∀ children, entry = .dir children → children = []) : v'.Wf := by
  obtain ⟨children, hc, -, rfl⟩ := addNew_ok hn
  refine (h.pushInode hx).setEntries fun y hy => ?_
  obtain rfl | hy := mem_cons.mp hy
  · exact Nat.lt_succ_self _
  · exact (h.entries_lt hi hc y hy).trans (Nat.lt_succ_self _)

theorem Wf.rename (hn : v.rename i old new = .ok v') : v'.Wf := by
  obtain ⟨children, j, hc, hj, rfl⟩ := rename_ok hn
  refine h.setEntries fun y hy => ?_
  obtain rfl | hy := mem_cons.mp hy
  · exact h.entries_lt hi hc (old, j) (mem_of_lookup hj)
  · exact h.entries_lt hi hc y (mem_filter.mp hy).1

omit hi in
theorem Wf.setUsed (used : ℕ → ℕ) : Wf { v with used := used } :=
  ⟨h.dentry, h.plain, h.inode, h.dcache, h.drives⟩

theorem Wf.invoke {op : NameOp} (hn : v.invoke i op = .ok v') : v'.Wf := by
  cases op with
  | create name
  | mkfifo name mode | mknod name mode dev => exact h.addNew hi hn fun _ hc => nomatch hc
  | mkdir name => exact h.addNew hi hn fun _ hc => (TmpfsEntry.dir.inj hc).symm
  | rename old new => exact h.rename hi hn
  | symlink name target =>
    obtain ⟨used, hn⟩ := symlink_ok hn
    exact (h.setUsed used).addNew hi hn fun _ hc => nomatch hc
  | link old new =>
    obtain ⟨children, j, hc, hj, -, rfl⟩ := link_ok hn
    refine h.setEntries fun y hy => ?_
    obtain rfl | hy := mem_cons.mp hy
    · exact h.entries_lt hi hc (old, j) (mem_of_lookup hj)
    · exact h.entries_lt hi hc y hy

theorem Wf.unlinkAt (hn : v.unlinkAt i name = .ok v') : v'.Wf := by
  obtain ⟨children, hc, -, rfl⟩ := unlinkAt_ok hn
  exact h.setEntries fun y hy => h.entries_lt hi hc y (mem_filter.mp hy).1

theorem Wf.renameAcross {i' : ℕ} (hi' : i' < v.nextInode)
    (hn : v.renameAcross i i' old new = .ok v') : v'.Wf := by
  obtain ⟨-, ⟨-, hn⟩ | ⟨-, source, target, j, hs, ht, hj, rfl⟩⟩ := renameAcross_ok hn
  · exact h.rename hi hn
  · refine (h.setEntries fun y hy => h.entries_lt hi hs y (mem_filter.mp hy).1).setEntries
      fun y hy => ?_
    obtain rfl | hy := mem_cons.mp hy
    · exact h.entries_lt hi hs (old, j) (mem_of_lookup hj)
    · exact h.entries_lt hi' ht y (mem_filter.mp hy).1

omit hi

theorem Wf.truncateAt (hn : v.truncateAt j = .ok v') : v'.Wf := by
  unfold Vfs.truncateAt at hn
  split at hn
  next =>
    cases hn
    exact h
  next target _ =>
    cases hn
    refine h.setInodes le_rfl fun a ha => ?_
    by_cases haj : a = j
    · rw [haj, update_self]
      exact nofun
    · rw [update_of_ne haj]
      exact h.inode a ha
  next => cases hn

/-! ## Names below a dentry -/

variable (hd : d < v.nextDentry)
include hd

theorem Wf.attach (hj : j < v.nextInode) (name : Str) : (v.attach d name j).Wf := by
  obtain ⟨hpush, hplain⟩ := h.pushChild hd hj
  have hset := hpush.setChild (hd.trans (Nat.lt_succ_self _)) (Nat.lt_succ_self _) hplain name
  refine hset.insert (Nat.lt_succ_self _) ?_ _
  exact hset.plain d (hd.trans (Nat.lt_succ_self _)) (name, v.nextDentry) (by simp [Vfs.setChild])

theorem Wf.detach (name : Str) (held : Bool) : (v.detach d name held).Wf := by
  unfold Vfs.detach
  split
  next c hc =>
    have hwf := (h.dropChild hd name).setInode (h.lookup_child hd hc).1 (o := none) nofun
    cases held
    · exact hwf.expire c
    · exact hwf
  next => exact h

omit hd in
omit h in
theorem detach_next (v : Vfs) (d : ℕ) (name : Str) (held : Bool) :
    (v.detach d name held).nextInode = v.nextInode ∧
      (v.detach d name held).nextDentry = v.nextDentry := by
  unfold detach
  split
  · cases held <;> exact ⟨rfl, rfl⟩
  · exact ⟨rfl, rfl⟩

/-- The references are good afterwards, to at least as many dentries. -/
structure Sound (v v' : Vfs) : Prop where
  wf : v'.Wf
  next_le : v.nextDentry ≤ v'.nextDentry

omit hd in
theorem Wf.sound : Sound v v := ⟨h, le_rfl⟩

omit hd in
omit h in
theorem Sound.trans {v₁ v₂ v₃ : Vfs} (h : Sound v₁ v₂) (h' : Sound v₂ v₃) : Sound v₁ v₃ :=
  ⟨h'.wf, h.next_le.trans h'.next_le⟩

theorem Wf.mkdirName (hn : v.mkdirName d name = .ok v') : Sound v v' := by
  unfold Vfs.mkdirName at hn
  split at hn
  · cases hn
  rename_i i hi
  split_ifs at hn
  obtain ⟨v1, hnew, ⟨⟩⟩ := map_eq_ok.mp hn
  have hilt := (h.dentry d hd).inode_lt i hi
  have h1 := h.addNew hilt hnew fun _ hc => (TmpfsEntry.dir.inj hc).symm
  obtain ⟨children, -, -, rfl⟩ := addNew_ok hnew
  exact ⟨h1.attach hd (Nat.lt_succ_self _) name, Nat.le_succ _⟩

theorem Wf.unlinkName (name : Str) (held : Bool) : Sound v (v.unlinkName d name held).1 := by
  unfold Vfs.unlinkName
  split
  next => exact h.sound
  next i hi =>
    obtain ⟨hnext, hle⟩ := detach_next v d name held
    have hilt := ((h.dentry d hd).inode_lt i hi).trans_eq hnext.symm
    have h1 := h.detach hd name held
    split_ifs
    · exact h.sound
    · simp only
      split
      next => exact ⟨h1, hle.ge⟩
      next v2 hn =>
        have h2 := h1.unlinkAt hilt hn
        obtain ⟨children, -, -, rfl⟩ := unlinkAt_ok hn
        exact ⟨h2.evict _ _, hle.ge⟩

theorem Wf.rmdirName (name : Str) (held : Bool) : Sound v (v.rmdirName d name held).1 := by
  unfold Vfs.rmdirName
  split_ifs
  · exact h.sound
  · split
    next => exact h.sound
    next i hi =>
      obtain ⟨hnext, hle⟩ := detach_next v d name held
      have hilt := ((h.dentry d hd).inode_lt i hi).trans_eq hnext.symm
      have h1 := h.detach hd name held
      simp only
      split
      next => exact ⟨h1, hle.ge⟩
      next v2 hn =>
        have hn := unlinkAt_of_rmdirAt hn
        have h2 := h1.unlinkAt hilt hn
        obtain ⟨children, -, -, rfl⟩ := unlinkAt_ok hn
        exact ⟨h2.evict _ _, hle.ge⟩

theorem Wf.moveWithin (i : ℕ) (old new : Str) : Sound v (v.moveWithin d i old new) := by
  unfold Vfs.moveWithin
  split
  next c hc =>
    obtain ⟨hlt, hm⟩ := h.lookup_child hd hc
    have hdrop := h.dropChild hd old
    have hm1 : ((v.dropChild d old).dentries c).mountPoint = false :=
      (mountPoint_setChildren v d _ c).trans hm
    have hset := hdrop.setChild hd hlt hm1 new
    refine ⟨(hset.evict _ old).insert hlt ?_ _, le_rfl⟩
    exact hset.plain d hd (new, c) (by simp [Vfs.setChild])
  next => exact ⟨h.evict _ old, le_rfl⟩

theorem Wf.moveAcross {d' : ℕ} (hd' : d' < v.nextDentry)
    (i : ℕ) (old : Str) (i' : ℕ) (new : Str) : Sound v (v.moveAcross d i old d' i' new) := by
  unfold Vfs.moveAcross
  split
  next c hc =>
    obtain ⟨hlt, hm⟩ := h.lookup_child hd hc
    have hdrop := h.dropChild hd old
    have hm1 : ((v.dropChild d old).dentries c).mountPoint = false :=
      (mountPoint_setChildren v d _ c).trans hm
    have hok := hdrop.dentry c hlt
    have hmove := hdrop.setDentry (d := c)
      (e := { (v.dropChild d old).dentries c with
        parent := some d', mountId := ((v.dropChild d old).dentries d').mountId })
      (fun _ => ⟨hok.inode_lt, fun p hp => some.inj hp ▸ hd', hok.child_lt,
        (hdrop.dentry d' hd').mountId_ne⟩) rfl (hdrop.plain c)
    have hm2 := (congrArg Dentry.mountPoint (update_self c
      { (v.dropChild d old).dentries c with
        parent := some d', mountId := ((v.dropChild d old).dentries d').mountId }
      (v.dropChild d old).dentries)).trans hm1
    exact ⟨((hmove.insert hlt hm2 ((v.inodes i').ino, new)).setChild hd' hlt hm2 new).evict _ old,
      le_rfl⟩
  next => exact ⟨h.evict _ old, le_rfl⟩

omit hd

omit h

/-- What a successful rename does: the file system's rename, then the dentries'. -/
theorem renameName_ok {d' : ℕ} (h : v.renameName d old d' new = .ok v') :
    ∃ i i' v1, (v.dentries d).inode = some i ∧ (v.dentries d').inode = some i' ∧
      ((d = d' ∧ v.rename i old new = .ok v1 ∧ v' = v1.moveWithin d i old new) ∨
      (d ≠ d' ∧ v.renameAcross i i' old new = .ok v1 ∧ v' = v1.moveAcross d i old d' i' new)) := by
  unfold renameName at h
  split at h
  · cases h
  rename_i i hi
  split at h
  · cases h
  split at h
  · cases h
  rename_i i' hi'
  split_ifs at h with hdir heq
  · obtain ⟨v1, hr, ⟨⟩⟩ := map_eq_ok.mp h
    exact ⟨i, i', v1, hi, hi', .inl ⟨heq, hr, rfl⟩⟩
  · obtain ⟨v1, hr, ⟨⟩⟩ := map_eq_ok.mp h
    exact ⟨i, i', v1, hi, hi', .inr ⟨heq, hr, rfl⟩⟩

theorem rename_nextDentry (h : v.rename i old new = .ok v') : v'.nextDentry = v.nextDentry := by
  obtain ⟨children, j, -, -, rfl⟩ := rename_ok h
  rfl

theorem renameAcross_nextDentry {i' : ℕ} (h : v.renameAcross i i' old new = .ok v') :
    v'.nextDentry = v.nextDentry := by
  obtain ⟨-, ⟨-, hr⟩ | ⟨-, source, target, j, -, -, -, rfl⟩⟩ := renameAcross_ok h
  · exact rename_nextDentry hr
  · rfl

theorem addNew_nextDentry (h : v.addNew i name fileType entry = .ok v') :
    v'.nextDentry = v.nextDentry := by
  obtain ⟨children, -, -, rfl⟩ := addNew_ok h
  rfl

theorem invoke_nextDentry {op : NameOp} (h : v.invoke i op = .ok v') :
    v'.nextDentry = v.nextDentry := by
  cases op with
  | create name | mkdir name | mkfifo name mode | mknod name mode dev => exact addNew_nextDentry h
  | rename old new => exact rename_nextDentry h
  | symlink name target =>
    obtain ⟨used, h⟩ := symlink_ok h
    exact (addNew_nextDentry h).trans rfl
  | link old new =>
    obtain ⟨children, j, -, -, -, rfl⟩ := link_ok h
    rfl

theorem Wf.renameName {d' : ℕ} (h : v.Wf) (hd : d < v.nextDentry) (hd' : d' < v.nextDentry)
    (hn : v.renameName d old d' new = .ok v') : Sound v v' := by
  obtain ⟨i, i', v1, hi, hi', hcase⟩ := renameName_ok hn
  have hilt := (h.dentry d hd).inode_lt i hi
  have hilt' := (h.dentry d' hd').inode_lt i' hi'
  obtain ⟨-, hr, rfl⟩ | ⟨-, hr, rfl⟩ := hcase
  · have hnext := rename_nextDentry hr
    have hmove := (h.rename hilt hr).moveWithin (hd.trans_eq hnext.symm) i old new
    exact ⟨hmove.wf, hnext.ge.trans hmove.next_le⟩
  · have hnext := renameAcross_nextDentry hr
    have hmove := (h.renameAcross hilt hilt' hr).moveAcross (hd.trans_eq hnext.symm)
      (hd'.trans_eq hnext.symm) i old i' new
    exact ⟨hmove.wf, hnext.ge.trans hmove.next_le⟩

theorem Wf.refresh (h : v.Wf) (hd : d < v.nextDentry) (hj : j < v.nextInode) (leaf : Str) :
    Sound v (v.refresh d leaf j) := by
  unfold Vfs.refresh
  split
  next c hc =>
    exact ⟨h.setInode (h.lookup_child hd hc).1 fun i hi => some.inj hi ▸ hj, le_rfl⟩
  next => exact ⟨h.attach hd hj leaf, Nat.le_succ _⟩

/-- What opening a name leaves behind: nothing new, the dentry of what is there, or a new file. -/
theorem openLeaf_cases (v : Vfs) (d : ℕ) (leaf : Str) (flags : OpenFlags) :
    (v.openLeaf d leaf flags).1 = v ∨
      ∃ i, (v.dentries d).inode = some i ∧
        ((∃ j v1, (v.inodes i).lookup leaf = .ok j ∧ (v1 = v ∨ v.truncateAt j = .ok v1) ∧
          (v.openLeaf d leaf flags).1 = v1.refresh d leaf j) ∨
        (∃ v1, v.addNew i leaf .regular .file = .ok v1 ∧
          (v.openLeaf d leaf flags).1 = v1.attach d leaf v.nextInode)) := by
  unfold openLeaf
  split
  next => exact .inl rfl
  next i hi =>
    split
    next => exact .inl rfl
    next =>
      split
      next j hj =>
        split
        next => exact .inl rfl
        next =>
          split
          next => exact .inl rfl
          next v1 hv1 =>
            refine .inr ⟨i, hi, .inl ⟨j, v1, hj, ?_, rfl⟩⟩
            split_ifs at hv1
            · exact .inr hv1
            · cases hv1
              exact .inl rfl
      next e he =>
        split
        next => exact .inl rfl
        next =>
          split
          next => exact .inl rfl
          next v1 hv1 => exact .inr ⟨i, hi, .inr ⟨v1, hv1, rfl⟩⟩

theorem truncateAt_next (h : v.truncateAt j = .ok v') :
    v'.nextInode = v.nextInode ∧ v'.nextDentry = v.nextDentry := by
  unfold truncateAt at h
  split at h
  · cases h
    exact ⟨rfl, rfl⟩
  · cases h
    exact ⟨rfl, rfl⟩
  · cases h

theorem Wf.openLeaf (h : v.Wf) (hd : d < v.nextDentry) (leaf : Str) (flags : OpenFlags) :
    Sound v (v.openLeaf d leaf flags).1 := by
  obtain heq | ⟨i, hi, ⟨j, v1, hj, hv1, heq⟩ | ⟨v1, hv1, heq⟩⟩ := openLeaf_cases v d leaf flags
  · rw [heq]
    exact h.sound
  · rw [heq]
    have hjlt := (h.inode i ((h.dentry d hd).inode_lt i hi)).lookup_lt hj
    obtain rfl | hv1 := hv1
    · exact h.refresh hd hjlt leaf
    · obtain ⟨hni, hnd⟩ := truncateAt_next hv1
      have hr := (h.truncateAt hv1).refresh (hd.trans_eq hnd.symm) (hjlt.trans_eq hni.symm) leaf
      exact ⟨hr.wf, hnd.ge.trans hr.next_le⟩
  · rw [heq]
    have h1 := h.addNew ((h.dentry d hd).inode_lt i hi) hv1 fun _ hc => nomatch hc
    obtain ⟨children, -, -, rfl⟩ := addNew_ok hv1
    exact ⟨h1.attach hd (Nat.lt_succ_self _) leaf, Nat.le_succ _⟩

theorem Wf.leafBase_lt (h : v.Wf) (hd : d < v.nextDentry) {target : Str} {r : ℕ × List Str}
    (hr : v.leafBase d target = .ok r) : r.1 < v.nextDentry := by
  unfold leafBase at hr
  split at hr
  next letter inner _ =>
    split at hr
    next m hm =>
      cases hr
      exact h.drive_lt hm
    next => cases hr
  next =>
    split_ifs at hr
    · split at hr
      next m hm =>
        cases hr
        exact h.mountById_lt hm
      next =>
        cases hr
        exact hd
    · cases hr
      exact hd

/-- The links in the last place are followed by walks: what every walk keeps is kept. -/
theorem followLeaf_keeps {P : Vfs → Prop}
    (hwalk : ∀ v base components c v', P v → base < v.nextDentry →
      Vfs.walkInner symlinkMax v base components = .ok (c, v') → P v')
    (hbase : ∀ v target r, P v → v.leafBase d target = .ok r → r.1 < v.nextDentry) :
    ∀ links v j, P v → P (followLeaf d links v j).1 := by
  intro links
  induction links with
  | zero =>
    intro v j hv
    unfold followLeaf
    split_ifs <;> exact hv
  | succ links ih =>
    intro v j hv
    unfold followLeaf
    split
    next => exact hv
    next =>
      simp only
      split
      next => exact hv
      next target _ =>
        split
        next => exact hv
        next =>
          split
          next => exact hv
          next base components hb =>
            split
            next => exact hv
            next c v1 hw =>
              have hv1 := hwalk v base components c v1 hv (hbase v target _ hv hb) hw
              split
              next => exact hv1
              next j _ => exact ih v1 j hv1

theorem Wf.followLeaf (h : v.Wf) (hd : d < v.nextDentry) (links j : ℕ) :
    Sound v (Vfs.followLeaf d links v j).1 := by
  refine followLeaf_keeps (P := (Sound v)) ?_ ?_ links v j h.sound
  · intro v1 base components c v2 h1 hb hw
    obtain ⟨h2, hg, -⟩ := h1.wf.walkInner hb hw
    exact ⟨h2, h1.next_le.trans hg.next_le⟩
  · intro v1 target r h1 hr
    exact h1.wf.leafBase_lt (hd.trans_le h1.next_le) hr

theorem Wf.resolveInode (h : v.Wf) (hd : d < v.nextDentry) (leaf : Str) (flags : OpenFlags) :
    Sound v (v.resolveInode d leaf flags).1 := by
  have hopen := h.openLeaf hd leaf flags
  unfold Vfs.resolveInode
  split
  next v1 e heq =>
    rw [heq] at hopen
    exact hopen
  next v1 j heq =>
    rw [heq] at hopen
    have hfollow := hopen.trans (hopen.wf.followLeaf (hd.trans_le hopen.next_le) symlinkMax j)
    split
    next => exact hopen
    next =>
      split
      next v2 e heq2 =>
        rw [heq2] at hfollow
        exact hfollow
      next v2 j2 heq2 =>
        rw [heq2] at hfollow
        split <;> exact hfollow

end Vfs

end Bedrock
