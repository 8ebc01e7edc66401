import Bedrock.Vfs.Coherent

/-!
# Vfs/CoherentOps — when a call on a name keeps the cache coherent

The calls change the dentries they came by and the entry of the global cache.  What else remembers
the name goes on remembering it:

    another dentry of the directory      a drive bound to it has a dentry of its own
    the name overwritten                 a rename whose source is not cached moves no dentry
    the dentry of a directory that stays a failing rmdir empties it and leaves it in the cache

Making a name is always safe, since nothing remembers a name that is not there.
-/

namespace Bedrock

open Function List

namespace Vfs

variable {v v' : Vfs} {d d' c i i' j : ℕ} {name old new : Str}

/-! ## Making names -/

theorem Coherent.attach (h : v.Coherent) (hd : d < v.nextDentry)
    (hi : (v.dentries d).inode = some i) (hj : v.look i name = some j) :
    (v.attach d name j).Coherent := by
  have hjlt := (h.wf.inode i ((h.wf.dentry d hd).inode_lt i hi)).lookup_lt (look_eq_some.mp hj)
  exact h.hung (hung_attach hd hi name j) (h.wf.attach hd hjlt name) hd hi hj

variable {fileType : FileType} {entry : TmpfsEntry} {held : Bool}

theorem addNew_look
    (hn : v.addNew i name fileType entry = .ok v') : v'.look i name = some v.nextInode := by
  obtain ⟨children, -, -, rfl⟩ := addNew_ok hn
  rw [look_setEntries, if_pos rfl, lookup_cons_ite, if_pos rfl]

theorem addNew_dentries
    (hn : v.addNew i name fileType entry = .ok v') : v'.dentries = v.dentries := by
  obtain ⟨children, -, -, rfl⟩ := addNew_ok hn
  rfl

variable (h : v.Coherent)
include h

variable (hd : d < v.nextDentry)
include hd

theorem Coherent.addNew_attach (hi : (v.dentries d).inode = some i)
    (hn : v.addNew i name fileType entry = .ok v')
    (hx : ∀ children, entry = .dir children → children = []) :
    (v'.attach d name v.nextInode).Coherent := by
  have hilt := (h.wf.dentry d hd).inode_lt i hi
  refine (h.addNew hilt hn hx).attach (hd.trans_eq (addNew_nextDentry hn).symm) ?_ (addNew_look hn)
  rw [addNew_dentries hn]
  exact hi

theorem Coherent.mkdirName (hn : v.mkdirName d name = .ok v') : v'.Coherent := by
  unfold Vfs.mkdirName at hn
  split at hn
  · cases hn
  rename_i i hi
  split_ifs at hn
  obtain ⟨v₁, hnew, ⟨⟩⟩ := map_eq_ok.mp hn
  exact h.addNew_attach hd hi hnew fun _ hc => (TmpfsEntry.dir.inj hc).symm

/-- Refreshing the dentry of a name that is there changes nothing or makes one. -/
theorem Coherent.refresh (hi : (v.dentries d).inode = some i) (hj : v.look i name = some j) :
    (v.refresh d name j).Coherent := by
  unfold Vfs.refresh
  split
  next c hc =>
    have hcj := h.cached_look (h.kid_cached ⟨hd, hi, mem_of_lookup hc⟩) hj
    have hsame : { v.dentries c with inode := some j } = v.dentries c := by
      rw [← hcj]
    rw [setInode, hsame, update_eq_self]
    exact h
  next => exact h.attach hd hi hj

omit hd in
theorem Coherent.truncateAt (hn : v.truncateAt j = .ok v') :
    v'.Coherent ∧ Relisted v v' ∧ v'.look = v.look := by
  have hwf := h.wf.truncateAt hn
  unfold Vfs.truncateAt at hn
  split at hn
  next =>
    cases hn
    exact ⟨h, ⟨⟨rfl, rfl, fun _ => rfl, fun _ => rfl⟩, rfl, rfl, rfl⟩, rfl⟩
  next target htarget =>
    cases hn
    have hlook : ∀ a n, ((update v.inodes j
        { v.inodes j with entry := .symlink [] } a).lookup n).toOption = v.look a n := by
      intro a n
      by_cases ha : a = j
      · rw [ha, update_self, look, Inode.lookup, Inode.lookup, htarget]
      · rw [update_of_ne ha, look]
    have hr : Relisted v { v with
        inodes := update v.inodes j { v.inodes j with entry := .symlink [] }
        used := update v.used (v.inodes j).fs
          (v.used (v.inodes j).fs - byteLen target) } := by
      refine ⟨⟨rfl, rfl, fun a => ?_, fun a => ?_⟩, rfl, rfl, rfl⟩ <;>
      · by_cases ha : a = j
        · simp only [ha, update_self]
        · simp only [update_of_ne ha]
    refine ⟨h.relisted hr hwf (fun a n b _ => hlook a n) fun a ha n b hb => ?_, hr,
      funext₂ hlook⟩
    exact h.fs a ha n b ((hlook a n).symm.trans hb)
  next => cases hn

theorem Coherent.openLeaf (leaf : Str)
    (flags : OpenFlags) : (v.openLeaf d leaf flags).1.Coherent := by
  obtain heq | ⟨i, hi, ⟨j, v₁, hj, hv1, heq⟩ | ⟨v₁, hv1, heq⟩⟩ := openLeaf_cases v d leaf flags
  · rw [heq]
    exact h
  · rw [heq]
    obtain rfl | hv1 := hv1
    · exact h.refresh hd hi (look_eq_some.mpr hj)
    · obtain ⟨h1, hr, hlook⟩ := h.truncateAt hv1
      refine h1.refresh (hd.trans_eq hr.nextDentry.symm) (by rw [hr.dentries]; exact hi) ?_
      rw [hlook]
      exact look_eq_some.mpr hj
  · rw [heq]
    exact h.addNew_attach hd hi hv1 fun _ hc => nomatch hc

theorem Coherent.followLeaf (links j : ℕ) : (Vfs.followLeaf d links v j).1.Coherent := by
  refine (followLeaf_keeps (P := fun v' => v'.Coherent ∧ v.nextDentry ≤ v'.nextDentry) ?_ ?_ links v
    j ⟨h, le_rfl⟩).1
  · rintro v₁ base components c v2 ⟨h1, hle⟩ hb hw
    exact ⟨h1.walkInner hb hw, hle.trans (h1.wf.walkInner hb hw).2.1.next_le⟩
  · rintro v₁ target r ⟨h1, hle⟩ hr
    exact h1.wf.leafBase_lt (hd.trans_le hle) hr

theorem Coherent.resolveInode (leaf : Str)
    (flags : OpenFlags) : (v.resolveInode d leaf flags).1.Coherent := by
  have hopen := h.openLeaf hd leaf flags
  have hle := (h.wf.openLeaf hd leaf flags).next_le
  unfold Vfs.resolveInode
  split
  next v₁ e heq =>
    rw [heq] at hopen
    exact hopen
  next v₁ j heq =>
    rw [heq] at hopen hle
    have hfollow := hopen.followLeaf (hd.trans_le hle) symlinkMax j
    split
    next => exact hopen
    next =>
      split
      next v2 e heq2 =>
        rw [heq2] at hfollow
        exact hfollow
      next v2 j2 heq2 =>
        rw [heq2] at hfollow
        split <;> exact hfollow

/-! ## Removing names -/

omit hd

omit h

/-- No other dentry of the directory remembers the name. -/
def Alone (v : Vfs) (d i : ℕ) (name : Str) : Prop :=
  ∀ a < v.nextDentry, a ≠ d → (v.dentries a).inode = some i →
    ∀ x ∈ (v.dentries a).children, x.1 ≠ name

/-- What taking a dentry away leaves of the children… -/
theorem detach_kid {a b : ℕ} {n : Str}
    (hk : (v.detach d name held).Kid a i n b) : v.Kid a i n b ∧ (a = d → n ≠ name) := by
  unfold detach at hk
  split at hk
  next c hc =>
    have hk' : ((v.dropChild d name).setInode c none).Kid a i n b := by
      cases held <;> exact hk
    obtain ⟨ha, hai, hmem⟩ := hk'
    by_cases hac : a = c
    · rw [hac] at hai
      simp only [setInode, update_self] at hai
      cases hai
    · simp only [setInode, update_of_ne hac] at hai hmem
      have hai' := (inode_setChildren v d _ a).symm.trans hai
      obtain rfl | had := eq_or_ne a d
      · simp only [dropChild, update_self] at hmem
        obtain ⟨hmem, hne⟩ := mem_filter.mp hmem
        exact ⟨⟨ha, hai', hmem⟩, fun _ => of_decide_eq_true hne⟩
      · simp only [dropChild, update_of_ne had] at hmem
        exact ⟨⟨ha, hai', hmem⟩, fun h => absurd h had⟩
  next hnone =>
    refine ⟨hk, fun had hn => ?_⟩
    have hsome := lookup_isSome_of_mem hk.2.2
    rw [had, hn, hnone] at hsome
    cases hsome

/-- …of the cache… -/
theorem detach_dcache {x : (ℕ × Str) × ℕ} (hx : x ∈ (v.detach d name held).dcache) :
    x ∈ v.dcache := by
  unfold detach at hx
  split at hx
  · cases held
    · exact (mem_filter.mp hx).1
    · exact hx
  · exact hx

/-- …and of what the dentries stand for. -/
theorem detach_holds (v : Vfs) (d : ℕ) (name : Str) (held : Bool) (b : ℕ) :
    (v.detach d name held).holds b = v.holds b ∨
      (v.dentries d).children.lookup name = some b := by
  unfold detach
  split
  next c hc =>
    by_cases hbc : b = c
    · exact .inr (hbc ▸ hc)
    · refine .inl ?_
      have hold : ((v.dropChild d name).setInode c none).holds b = v.holds b := by
        simp only [holds, setInode, update_of_ne hbc]
        exact inode_setChildren v d _ b
      cases held <;> exact hold
  next => exact .inl rfl

theorem detach_files (v : Vfs) (d : ℕ) (name : Str) (held : Bool) :
    SameFiles v (v.detach d name held) := by
  unfold detach
  split
  · cases held <;> exact ⟨rfl, rfl, rfl⟩
  · exact ⟨rfl, rfl, rfl⟩

/-- The name is gone from the directory, the dentry and the cache. -/
theorem Coherent.removed (h : v.Coherent) (hd : d < v.nextDentry)
    (hi : (v.dentries d).inode = some i) (halone : v.Alone d i name)
    (hu : Unlisted (v.detach d name held) v' i name) (hwf : v'.Wf) :
    (v'.evict (v'.inodes i).ino name).Coherent := by
  have hf := detach_files v d name held
  have hino : ∀ a, (v'.inodes a).ino = (v.inodes a).ino := fun a => by rw [hu.ino, hf.inodes]
  have hlook : ∀ a n, v'.look a n = if a = i ∧ n = name then none else v.look a n := fun a n => by
    rw [hu.look, hf.look]
  have hdc : ∀ x ∈ (v'.evict (v'.inodes i).ino name).dcache,
      x ∈ v.dcache ∧ x.1 ≠ ((v.inodes i).ino, name) := by
    intro x hx
    obtain ⟨hx, hne⟩ := mem_filter.mp hx
    rw [hu.dcache] at hx
    rw [hino] at hne
    exact ⟨detach_dcache hx, of_decide_eq_true hne⟩
  refine h.assemble ⟨hu.nextInode.trans hf.nextInode, hu.nextIno.trans hf.nextIno, hino, fun a => by
    rw [← hf.inodes]; exact hu.fs a⟩ (hwf.evict _ _) ?_ (fun x hx => h.key x (hdc x hx).1) ?_
  · refine h.faithful.shrink fun a n b hb => ?_
    have hold : v.Cached a n b ∧ ¬(a = i ∧ n = name) := by
      obtain ⟨ha, ⟨x, hx, hxa, hmem⟩ | hmem⟩ := hb
      · have ha' : a < v.nextInode := ha.trans_eq (hu.nextInode.trans hf.nextInode)
        have hdet : (v.detach d name held).Kid x a n b := by
          rw [Kid, ← hu.dentries, ← hu.nextDentry]
          exact ⟨hx, hxa, hmem⟩
        obtain ⟨hkid, hne⟩ := detach_kid hdet
        refine ⟨⟨ha', .inl ⟨x, hkid⟩⟩, ?_⟩
        rintro ⟨rfl, rfl⟩
        by_cases hxd : x = d
        · exact hne hxd rfl
        · exact halone x hkid.1 hxd hkid.2.1 _ hkid.2.2 rfl
      · obtain ⟨hmem, hne⟩ := hdc _ hmem
        have hkey : (v'.evict (v'.inodes i).ino name).inodes a = v'.inodes a := rfl
        rw [hkey, hino] at hmem hne
        refine ⟨⟨ha.trans_eq (hu.nextInode.trans hf.nextInode), .inr hmem⟩, ?_⟩
        rintro ⟨rfl, rfl⟩
        exact hne rfl
    refine ⟨hold.1, ?_, (hlook a n).trans (if_neg hold.2)⟩
    have hholds : (v'.evict (v'.inodes i).ino name).holds b = (v.detach d name held).holds b := by
      rw [holds, holds, ← hu.dentries]
      rfl
    refine hholds.trans ((detach_holds v d name held b).resolve_right fun hb => hold.2 ?_)
    exact h.faithful.unique hold.1 (h.kid_cached ⟨hd, hi, mem_of_lookup hb⟩)
  · intro a ha n j hj
    have hj' : v'.look a n = some j := hj
    rw [hlook] at hj'
    split_ifs at hj'
    exact h.fs a ha n j hj'

/-- A name the directory has not got has no child to be taken. -/
theorem Coherent.detach_of_not_look (h : v.Coherent) (hd : d < v.nextDentry)
    (hi : (v.dentries d).inode = some i) (hn : v.look i name = none) (held : Bool) :
    v.detach d name held = v := by
  unfold Vfs.detach
  split
  next c hc =>
    exact absurd (h.kid_cached ⟨hd, hi, mem_of_lookup hc⟩) (h.faithful.not_cached hn c)
  next => rfl

theorem look_of_not_entries (hc : v.entries i = none) : v.look i name = none := by
  cases hj : v.look i name with
  | none => rfl
  | some j =>
    have hl := look_eq_some.mp hj
    unfold Inode.lookup at hl
    split at hl
    next children hentry =>
      rw [entries_eq_some.mpr hentry] at hc
      cases hc
    next => cases hl

theorem look_of_unlinkAt_error {e : VfsError} (h : v.unlinkAt i name = .error e) :
    v.look i name = none := by
  unfold unlinkAt at h
  split at h
  next hc => exact look_of_not_entries hc
  next children hc =>
    split at h
    next hnone => exact (look_of_entries hc name).trans hnone
    next => cases h

/-- The name leads to a directory with names in it. -/
def isFullAt (v : Vfs) (i : ℕ) (name : Str) : Bool :=
  match v.look i name with
  | some j => ((v.entries j).getD []) ≠ []
  | none => false

theorem SameFiles.isFullAt (h : SameFiles v v') (i : ℕ) (name : Str) :
    v'.isFullAt i name = v.isFullAt i name := by
  unfold Vfs.isFullAt entries
  rw [h.look, h.inodes]

/-- A name that cannot be removed is not there, or leads to a full directory. -/
theorem look_of_rmdirAt_error {e : VfsError} (h : v.rmdirAt i name = .error e) :
    v.look i name = none ∨ v.isFullAt i name := by
  unfold rmdirAt at h
  split at h
  next hc => exact .inl (look_of_not_entries hc)
  next children hc =>
    split at h
    next hnone => exact .inl ((look_of_entries hc name).trans hnone)
    next j hj =>
      refine .inr ?_
      rw [isFullAt, look_of_entries hc, hj]
      simp only
      split at h
      next x rest hfull =>
        rw [hfull]
        rfl
      next => cases h

/-- What `unlink` must not touch. -/
def unlinkSafe (v : Vfs) (d : ℕ) (name : Str) : Prop :=
  ∀ i ∈ (v.dentries d).inode, v.Alone d i name

/-- What `rmdir` must not touch; nor may it fail on a directory whose dentry is cached and held. -/
def rmdirSafe (v : Vfs) (d : ℕ) (name : Str) (held : Bool) : Prop :=
  ∀ i ∈ (v.dentries d).inode, v.Alone d i name ∧
    (held → v.isFullAt i name → (v.dentries d).children.lookup name = none)

theorem Coherent.unlinkName (h : v.Coherent) (hd : d < v.nextDentry) (held : Bool)
    (hsafe : v.unlinkSafe d name) : (v.unlinkName d name held).1.Coherent := by
  have hf := detach_files v d name held
  unfold Vfs.unlinkName
  split
  next => exact h
  next i hi =>
    split
    next => exact h
    next =>
      simp only
      split
      next e he =>
        have hnone := look_of_unlinkAt_error he
        rw [hf.look] at hnone
        rw [h.detach_of_not_look hd hi hnone]
        exact h
      next v2 hn =>
        have hilt := (h.wf.dentry d hd).inode_lt i hi
        have hwf := (h.wf.detach hd name held).unlinkAt (hilt.trans_eq hf.nextInode.symm) hn
        exact h.removed hd hi (hsafe i hi) (unlinkAt_unlisted hn) hwf

/-- A dentry that nobody holds goes with its entries, though the directory stays. -/
theorem Coherent.dropped (h : v.Coherent) (hd : d < v.nextDentry)
    (hi : (v.dentries d).inode = some i) (halone : v.Alone d i name)
    (hc : (v.dentries d).children.lookup name = some c) : (v.detach d name false).Coherent := by
  have hf := detach_files v d name false
  refine h.sameFiles hf (h.wf.detach hd name false) ?_ fun x hx => h.key x (detach_dcache hx)
  have hcached := h.kid_cached ⟨hd, hi, mem_of_lookup hc⟩
  refine h.faithful.shrink fun a n b hb => ?_
  have hold : v.Cached a n b ∧ b ≠ c := by
    obtain ⟨ha, ⟨x, hdet⟩ | hmem⟩ := hb
    · have ha' := ha.trans_eq hf.nextInode
      obtain ⟨hkid, hne⟩ := detach_kid hdet
      refine ⟨⟨ha', .inl ⟨x, hkid⟩⟩, ?_⟩
      rintro rfl
      obtain ⟨rfl, rfl⟩ := h.faithful.unique ⟨ha', .inl ⟨x, hkid⟩⟩ hcached
      by_cases hxd : x = d
      · exact hne hxd rfl
      · exact halone x hkid.1 hxd hkid.2.1 _ hkid.2.2 rfl
    · rw [hf.inodes] at hmem
      refine ⟨⟨ha.trans_eq hf.nextInode, .inr (detach_dcache hmem)⟩, ?_⟩
      rw [detach, hc] at hmem
      exact of_decide_eq_true (mem_filter.mp hmem).2
  refine ⟨hold.1, ?_, congrFun₂ hf.look a n⟩
  refine (detach_holds v d name false b).resolve_right fun hb => hold.2 ?_
  exact Option.some.inj (hb.symm.trans hc)

theorem Coherent.rmdirName (h : v.Coherent) (hd : d < v.nextDentry) (held : Bool)
    (hsafe : v.rmdirSafe d name held) : (v.rmdirName d name held).1.Coherent := by
  have hf := detach_files v d name held
  unfold Vfs.rmdirName
  split
  next => exact h
  next =>
    split
    next => exact h
    next i hi =>
      obtain ⟨halone, hheld⟩ := hsafe i hi
      simp only
      split
      next e he =>
        have hsame : (v.dentries d).children.lookup name = none → v.detach d name held = v := by
          intro hnone
          rw [detach, hnone]
        obtain hnone | hfull := look_of_rmdirAt_error he
        · rw [hf.look] at hnone
          rw [h.detach_of_not_look hd hi hnone]
          exact h
        · cases hc : (v.dentries d).children.lookup name with
          | none =>
            rw [hsame hc]
            exact h
          | some c =>
            cases held with
            | false => exact h.dropped hd hi halone hc
            | true =>
              rw [hf.isFullAt] at hfull
              rw [hheld rfl hfull] at hc
              cases hc
      next v2 hn =>
        have hilt := (h.wf.dentry d hd).inode_lt i hi
        have hn := unlinkAt_of_rmdirAt hn
        have hwf := (h.wf.detach hd name held).unlinkAt (hilt.trans_eq hf.nextInode.symm) hn
        exact h.removed hd hi halone (unlinkAt_unlisted hn) hwf

/-! ## Moving names -/

/-- Child `c` of `d` moves to `d'`: what remembers its names afterwards. -/
structure Shifted (v v' : Vfs) (d i : ℕ) (old : Str) (d' i' : ℕ) (new : Str) (c : ℕ) : Prop where
  files : SameFiles v v'
  kid : ∀ a x n b, v'.Kid a x n b → (a = d' ∧ n = new ∧ b = c ∧ (v.dentries d').inode = some x) ∨
    (v.Kid a x n b ∧ (a = d → n ≠ old) ∧ (a = d' → n ≠ new))
  dcache : ∀ x ∈ v'.dcache, x = (((v.inodes i').ino, new), c) ∨
    (x ∈ v.dcache ∧ x.1 ≠ ((v.inodes i).ino, old) ∧ x.1 ≠ ((v.inodes i').ino, new))
  holds : ∀ b, v'.holds b = v.holds b

theorem shifted_within (hc : (v.dentries d).children.lookup old = some c) (i : ℕ) (new : Str) :
    Shifted v (v.moveWithin d i old new) d i old d i new c := by
  rw [moveWithin, hc]
  have hinode : ∀ a, (((v.dropChild d old).setChild d new c).dentries a).inode
      = (v.dentries a).inode := fun a =>
    (inode_setChildren (v.dropChild d old) d _ a).trans (inode_setChildren v d _ a)
  refine ⟨⟨rfl, rfl, rfl⟩, ?_, ?_, hinode⟩
  · rintro a x n b ⟨ha, hax, hmem⟩
    have hax' := (hinode a).symm.trans hax
    obtain rfl | had := eq_or_ne a d
    · have hmem' : (n, b) ∈ (new, c) :: ((v.dentries a).children.filter fun e => e.1 ≠ old).filter
          fun e => e.1 ≠ new := by
        simpa only [evict, setChild, dropChild, update_self] using hmem
      obtain heq | hmem' := mem_cons.mp hmem'
      · obtain ⟨rfl, rfl⟩ := Prod.mk.inj heq
        exact .inl ⟨rfl, rfl, rfl, hax'⟩
      · obtain ⟨hmem', hnew⟩ := mem_filter.mp hmem'
        obtain ⟨hmem', hold⟩ := mem_filter.mp hmem'
        exact .inr ⟨⟨ha, hax', hmem'⟩, fun _ => of_decide_eq_true hold,
          fun _ => of_decide_eq_true hnew⟩
    · refine .inr ⟨⟨ha, hax', ?_⟩, fun h => absurd h had, fun h => absurd h had⟩
      simpa only [evict, setChild, dropChild, update_of_ne had] using hmem
  · intro x hx
    obtain ⟨hx, hnew⟩ | heq := mem_dcacheInsert hx
    · obtain ⟨hx, hold⟩ := mem_filter.mp hx
      exact .inr ⟨hx, of_decide_eq_true hold, hnew⟩
    · exact .inl heq

theorem shifted_across (hne : d ≠ d') (hc : (v.dentries d).children.lookup old = some c)
    (i i' : ℕ) (new : Str) : Shifted v (v.moveAcross d i old d' i' new) d i old d' i' new c := by
  rw [moveAcross, hc]
  -- the dentry moved changes neither its children nor what it stands for
  have hmoved : ∀ a, (update (v.dropChild d old).dentries c
      { (v.dropChild d old).dentries c with
        parent := some d', mountId := ((v.dropChild d old).dentries d').mountId } a).inode
        = (v.dentries a).inode ∧
      (update (v.dropChild d old).dentries c
      { (v.dropChild d old).dentries c with
        parent := some d', mountId := ((v.dropChild d old).dentries d').mountId } a).children
        = ((v.dropChild d old).dentries a).children := by
    intro a
    have hdrop := inode_setChildren v d ((v.dentries d).children.filter fun e => e.1 ≠ old) a
    obtain rfl | hac := eq_or_ne a c
    · rw [update_self]
      exact ⟨hdrop, rfl⟩
    · rw [update_of_ne hac]
      exact ⟨hdrop, rfl⟩
  refine ⟨⟨rfl, rfl, rfl⟩, ?_, ?_, fun b => ?_⟩
  · rintro a x n b ⟨ha, hax, hmem⟩
    obtain rfl | had' := eq_or_ne a d'
    · simp only [evict, setChild, update_self] at hax hmem
      rw [(hmoved a).1] at hax
      obtain heq | hmem := mem_cons.mp hmem
      · obtain ⟨rfl, rfl⟩ := Prod.mk.inj heq
        exact .inl ⟨rfl, rfl, rfl, hax⟩
      · obtain ⟨hmem, hnew⟩ := mem_filter.mp hmem
        rw [(hmoved a).2] at hmem
        simp only [dropChild, update_of_ne hne.symm] at hmem
        exact .inr ⟨⟨ha, hax, hmem⟩, fun h => absurd h.symm hne, fun _ => of_decide_eq_true hnew⟩
    · simp only [evict, setChild, update_of_ne had'] at hax hmem
      rw [(hmoved a).1] at hax
      rw [(hmoved a).2] at hmem
      obtain rfl | had := eq_or_ne a d
      · simp only [dropChild, update_self] at hmem
        obtain ⟨hmem, hold⟩ := mem_filter.mp hmem
        exact .inr ⟨⟨ha, hax, hmem⟩, fun _ => of_decide_eq_true hold, fun h => absurd h had'⟩
      · simp only [dropChild, update_of_ne had] at hmem
        exact .inr ⟨⟨ha, hax, hmem⟩, fun h => absurd h had, fun h => absurd h had'⟩
  · intro x hx
    obtain ⟨hx, hold⟩ := mem_filter.mp hx
    obtain ⟨hx, hnew⟩ | heq := mem_dcacheInsert hx
    · exact .inr ⟨hx, of_decide_eq_true hold, hnew⟩
    · exact .inl heq
  · refine Eq.trans ?_ (hmoved b).1
    exact inode_setChildren _ d' _ b

theorem Relisted.kid (h : Relisted v v') (a x : ℕ) (n : Str) (b : ℕ) :
    v'.Kid a x n b ↔ v.Kid a x n b := by
  rw [Kid, Kid, h.dentries, h.nextDentry]

section Moving

variable {v₁ : Vfs} (h : v.Coherent) (hd : d < v.nextDentry) (hi : (v.dentries d).inode = some i)
  (hm : Moved v v₁ i old i' new j) (hfs : (v.inodes i).fs = (v.inodes i').fs)
  (hold : v.Alone d i old)

include h hd hi hm hfs hold

/-- The directories moved the name, and the dentry with it. -/
theorem Coherent.shifted (hd' : (v.dentries d').inode = some i') (hilt' : i' < v.nextInode)
    (hnew : v.Alone d' i' new) (hc : (v.dentries d).children.lookup old = some c)
    (hs : Shifted v₁ v' d i old d' i' new c) (hwf : v'.Wf) : v'.Coherent := by
  have hilt := (h.wf.dentry d hd).inode_lt i hi
  have hcached := h.kid_cached ⟨hd, hi, mem_of_lookup hc⟩
  have hino : ∀ a, (v'.inodes a).ino = (v.inodes a).ino := fun a => by rw [hs.files.inodes, hm.ino]
  have hdc : ∀ x ∈ v'.dcache, x = (((v.inodes i').ino, new), c) ∨
      (x ∈ v.dcache ∧ x.1 ≠ ((v.inodes i).ino, old) ∧ x.1 ≠ ((v.inodes i').ino, new)) := by
    intro x hx
    have hx' := hs.dcache x hx
    rwa [hm.ino, hm.ino, hm.dcache] at hx'
  refine h.assemble ⟨hs.files.nextInode.trans hm.nextInode, hs.files.nextIno.trans hm.nextIno, hino,
    fun a => by rw [hs.files.inodes]; exact hm.fs a⟩ hwf ?_ (fun x hx => ?_) ?_
  · have hvalue : v'.holds c = some j := by
      refine (hs.holds c).trans ?_
      rw [holds, hm.dentries]
      exact h.cached_look hcached hm.source
    refine h.faithful.grow hvalue (by rw [hs.files.look, hm.look, if_pos ⟨rfl, rfl⟩])
      fun a n b hb => ?_
    -- a name remembered before is neither of the two that changed
    have hkept : v.Cached a n b → ¬(a = i ∧ n = old) → ¬(a = i' ∧ n = new) → b ≠ c ∧
        v.Cached a n b ∧ v'.holds b = v.holds b ∧ v'.look a n = v.look a n := by
      intro hb hno hnn
      refine ⟨?_, hb, (hs.holds b).trans (by rw [holds, holds, hm.dentries]), ?_⟩
      · rintro rfl
        exact hno (h.faithful.unique hb hcached)
      · rw [hs.files.look, hm.look, if_neg hnn, if_neg hno]
    obtain ⟨ha, hb⟩ := hb
    have ha' := ha.trans_eq (hs.files.nextInode.trans hm.nextInode)
    obtain ⟨x, hkid⟩ | hmem := hb
    · obtain ⟨rfl, rfl, rfl, hxa⟩ | ⟨hkid, hno, hnn⟩ := hs.kid x a n b hkid
      · rw [hm.dentries] at hxa
        exact .inl ⟨Option.some.inj (hxa.symm.trans hd'), rfl, rfl⟩
      · have hkid' := (hm.kid x a n b).mp hkid
        refine .inr (hkept ⟨ha', .inl ⟨x, hkid'⟩⟩ ?_ ?_)
        · rintro ⟨rfl, rfl⟩
          by_cases hxd : x = d
          · exact hno hxd rfl
          · exact hold x hkid'.1 hxd hkid'.2.1 _ hkid'.2.2 rfl
        · rintro ⟨rfl, rfl⟩
          by_cases hxd : x = d'
          · exact hnn hxd rfl
          · exact hnew x hkid'.1 hxd hkid'.2.1 _ hkid'.2.2 rfl
    · obtain heq | ⟨hmem, hno, hnn⟩ := hdc _ hmem
      · obtain ⟨hkey, rfl⟩ := Prod.mk.inj heq
        obtain ⟨hsame, rfl⟩ := Prod.mk.inj hkey
        rw [hino] at hsame
        exact .inl ⟨h.ino_inj a ha' i' hilt' hsame, rfl, rfl⟩
      · rw [hino] at hmem hno hnn
        refine .inr (hkept ⟨ha', .inr hmem⟩ ?_ ?_)
        · rintro ⟨rfl, rfl⟩
          exact hno rfl
        · rintro ⟨rfl, rfl⟩
          exact hnn rfl
  · obtain rfl | ⟨hx, -⟩ := hdc x hx
    · exact ⟨i', hilt', rfl⟩
    · exact h.key x hx
  · rw [hs.files.look]
    exact hm.look_fs h hilt hfs

/-- The directories moved the name, of which no child was cached. -/
theorem Coherent.evicted (hnew : v.Uncached i' new) (hc : (v.dentries d).children.lookup old = none)
    (hwf : (v₁.evict (v₁.inodes i).ino old).Wf) : (v₁.evict (v₁.inodes i).ino old).Coherent := by
  have hdc : ∀ x ∈ (v₁.evict (v₁.inodes i).ino old).dcache,
      x ∈ v.dcache ∧ x.1 ≠ ((v.inodes i).ino, old) := by
    intro x hx
    obtain ⟨hx, hne⟩ := mem_filter.mp hx
    rw [hm.dcache] at hx
    rw [hm.ino] at hne
    exact ⟨hx, of_decide_eq_true hne⟩
  have hlook := hm.look_fs h ((h.wf.dentry d hd).inode_lt i hi) hfs
  refine h.assemble ⟨hm.nextInode, hm.nextIno, hm.ino, hm.fs⟩ hwf ?_
    (fun x hx => h.key x (hdc x hx).1) hlook
  refine h.faithful.shrink fun a n b hb => ?_
  have hkept : v.Cached a n b ∧ ¬(a = i ∧ n = old) := by
    obtain ⟨ha, ⟨x, hkid⟩ | hmem⟩ := hb
    · have hkid' := (hm.kid x a n b).mp hkid
      refine ⟨⟨ha.trans_eq hm.nextInode, .inl ⟨x, hkid'⟩⟩, ?_⟩
      rintro ⟨rfl, rfl⟩
      by_cases hxd : x = d
      · have hsome := lookup_isSome_of_mem hkid'.2.2
        rw [hxd, hc] at hsome
        cases hsome
      · exact hold x hkid'.1 hxd hkid'.2.1 _ hkid'.2.2 rfl
    · obtain ⟨hmem, hne⟩ := hdc _ hmem
      have hkey : ((v₁.evict (v₁.inodes i).ino old).inodes a).ino = (v.inodes a).ino := hm.ino a
      rw [hkey] at hmem hne
      refine ⟨⟨ha.trans_eq hm.nextInode, .inr hmem⟩, ?_⟩
      rintro ⟨rfl, rfl⟩
      exact hne rfl
  refine ⟨hkept.1, ?_, (hm.look a n).trans ?_⟩
  · exact congrArg (fun f => (f b).inode) hm.dentries
  · rw [if_neg, if_neg hkept.2]
    rintro ⟨rfl, rfl⟩
    exact hnew.not_cached b hkept.1

end Moving

/-- What `rename` must not touch; and if it moves no dentry, nothing may remember the name it
takes. -/
def renameSafe (v : Vfs) (d : ℕ) (old : Str) (d' : ℕ) (new : Str) : Prop :=
  ∀ i ∈ (v.dentries d).inode, ∀ i' ∈ (v.dentries d').inode, v.Alone d i old ∧ v.Alone d' i' new ∧
    ((v.dentries d).children.lookup old = none → v.Uncached i' new)

theorem Coherent.renameName (h : v.Coherent) (hd : d < v.nextDentry) (hd' : d' < v.nextDentry)
    (hsafe : v.renameSafe d old d' new) (hn : v.renameName d old d' new = .ok v') :
    v'.Coherent := by
  have hwf := (h.wf.renameName hd hd' hn).wf
  obtain ⟨i, i', v₁, hi, hi', hcase⟩ := renameName_ok hn
  obtain ⟨hold, hnew, hun⟩ := hsafe i hi i' hi'
  have hilt := (h.wf.dentry d hd).inode_lt i hi
  have hilt' := (h.wf.dentry d' hd').inode_lt i' hi'
  obtain ⟨rfl, hr, rfl⟩ | ⟨hne, hr, rfl⟩ := hcase
  · obtain rfl : i = i' := Option.some.inj (hi.symm.trans hi')
    obtain ⟨j, hm⟩ := rename_moved hr
    cases hc : (v.dentries d).children.lookup old with
    | none =>
      have hmove : v₁.moveWithin d i old new = v₁.evict (v₁.inodes i).ino old := by
        rw [moveWithin, hm.dentries, hc]
      rw [hmove] at hwf ⊢
      exact h.evicted hd hi hm rfl hold (hun hc) hc hwf
    | some c =>
      have hc1 : (v₁.dentries d).children.lookup old = some c := by rw [hm.dentries, hc]
      exact h.shifted hd hi hm rfl hold hi' hilt' hnew hc (shifted_within hc1 i new) hwf
  · obtain ⟨hfs, j, hm⟩ := h.renameAcross_moved hilt hilt' hr
    cases hc : (v.dentries d).children.lookup old with
    | none =>
      have hmove : v₁.moveAcross d i old d' i' new = v₁.evict (v₁.inodes i).ino old := by
        rw [moveAcross, hm.dentries, hc]
      rw [hmove] at hwf ⊢
      exact h.evicted hd hi hm hfs hold (hun hc) hc hwf
    | some c =>
      have hc1 : (v₁.dentries d).children.lookup old = some c := by rw [hm.dentries, hc]
      exact h.shifted hd hi hm hfs hold hi' hilt' hnew hc (shifted_across hne hc1 i i' new) hwf

end Vfs

end Bedrock
