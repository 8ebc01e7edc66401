import Bedrock.Vfs.CoherentOps

/-!
# Vfs/Transparent — runs in which the dentry cache cannot be seen

Walks and calls that make names never spoil the cache.  The others do not when no dentry but the
ones they came by remembers the name, and a tmpfs is mounted when there is no root with its number:

    A -- ino 1 -- x          walk from B's root for x:   cache (1, x)  ▸  the x of A
    B -- ino 1

In every run of such calls the cache is transparent; it is not where a second tmpfs is mounted.
-/

namespace Bedrock

namespace Vfs

variable {v v' : Vfs} {d c i : ℕ} {name : Str} {e : Dentry}

/-! ## Losing references -/

theorem Coherent.expire (h : v.Coherent) (c : ℕ) : (v.expire c).Coherent := by
  refine h.sameFiles ⟨rfl, rfl, rfl⟩ (h.wf.expire c) ?_
    fun x hx => h.key x (List.mem_filter.mp hx).1
  refine h.faithful.shrink fun a n b hb => ⟨?_, rfl, rfl⟩
  exact ⟨hb.1, hb.2.imp_right fun hmem => (List.mem_filter.mp hmem).1⟩

theorem Coherent.orphan (h : v.Coherent) (d : ℕ) : (v.orphan d).Coherent := by
  have hsame : ∀ a, ((v.orphan d).dentries a).inode = (v.dentries a).inode ∧
      ((v.orphan d).dentries a).children = (v.dentries a).children := by
    intro a
    by_cases ha : a = d
    · simp only [Vfs.orphan, ha, Function.update_self, and_self]
    · simp only [Vfs.orphan, Function.update_of_ne ha, and_self]
  refine h.sameFiles ⟨rfl, rfl, rfl⟩ (h.wf.orphan d) ?_ h.key
  refine h.faithful.shrink fun a n b hb => ⟨⟨hb.1, hb.2.imp_left ?_⟩, (hsame b).1, rfl⟩
  rintro ⟨x, hx, hxa, hmem⟩
  exact ⟨x, hx, (hsame x).1.symm.trans hxa, (hsame x).2 ▸ hmem⟩

theorem Coherent.pushDentry (h : v.Coherent) (hc : e.children = []) (hv : v' = { v with
      dentries := Function.update v.dentries v.nextDentry e
      nextDentry := v.nextDentry + 1 })
    (hwf : v'.Wf) : v'.Coherent := by
  subst hv
  refine h.sameFiles ⟨rfl, rfl, rfl⟩ hwf ?_ h.key
  refine h.faithful.shrink fun a n b hb => ?_
  have hold : v.Cached a n b := by
    refine ⟨hb.1, hb.2.imp_left ?_⟩
    rintro ⟨x, hx, hxa, hmem⟩
    obtain hx | rfl := Nat.lt_succ_iff_lt_or_eq.mp hx
    · simp only [Function.update_of_ne hx.ne] at hxa hmem
      exact ⟨x, hx, hxa, hmem⟩
    · simp only [Function.update_self, hc] at hmem
      cases hmem
  refine ⟨hold, ?_, rfl⟩
  simp only [holds, Function.update_of_ne (h.cached_lt hold).ne]

theorem Coherent.setDrives (h : v.Coherent) {drives : List (Char × DriveMount)}
    (hwf : Wf { v with drives := drives }) : Coherent { v with drives := drives } :=
  ⟨hwf, h.faithful, h.ino_inj, h.ino_lt, h.one_lt, h.key, h.fs⟩

instance (v : Vfs) (d i : ℕ) (name : Str) : Decidable (v.Alone d i name) :=
  inferInstanceAs (Decidable (∀ a < v.nextDentry, _))

instance (v : Vfs) (i : ℕ) (name : Str) : Decidable (v.Uncached i name) :=
  inferInstanceAs (Decidable ((∀ d < v.nextDentry, _) ∧ _))

instance (v : Vfs) (d : ℕ) (name : Str) : Decidable (v.unlinkSafe d name) :=
  inferInstanceAs (Decidable (∀ i ∈ (v.dentries d).inode, _))

instance (v : Vfs) (d : ℕ) (name : Str) (held : Bool) : Decidable (v.rmdirSafe d name held) :=
  inferInstanceAs (Decidable (∀ i ∈ (v.dentries d).inode, _))

instance (v : Vfs) (d : ℕ) (old : Str) (d' : ℕ) (new : Str) :
    Decidable (v.renameSafe d old d' new) :=
  inferInstanceAs (Decidable (∀ i ∈ (v.dentries d).inode, _))

instance (v : Vfs) (i : ℕ) : ∀ op, Decidable (v.invokeSafe i op)
  | .rename old new => inferInstanceAs (Decidable (v.Uncached i old ∧ v.Uncached i new))
  | .create _ | .mkdir _ | .symlink .. | .link .. | .mkfifo .. | .mknod .. => isTrue trivial

end Vfs

namespace Kernel

variable {k k' : Kernel} {d i : ℕ} {path : Str}

/-! ## Careful calls -/

/-- What is asked of the name a path leads to, if its directory is found. -/
def OnParent (k : Kernel) (path : Str) (P : Kernel → ℕ → Str → Prop) : Prop :=
  match k.resolveParent path with
  | .ok (d, name, k') => P k' d name
  | .error _ => True

instance (k : Kernel) (path : Str) (P : Kernel → ℕ → Str → Prop)
    [∀ k d name, Decidable (P k d name)] : Decidable (k.OnParent path P) :=
  match h : k.resolveParent path with
  | .ok (d, name, k') => decidable_of_iff (P k' d name) (by simp [OnParent, h])
  | .error _ => isTrue (by simp [OnParent, h])

/-- **A call that leaves nothing stale**: no dentry but the ones it came by remembers a name that it
takes away, and a tmpfs is mounted when no inode has the number of its root. -/
def Careful (k : Kernel) : VfsCall → Prop
  | .rmdir path held => k.OnParent path fun k d name => k.rmdirSafe d name held
  | .unlink path _ => k.OnParent path fun k d name => k.unlinkSafe d name
  | .rename oldPath newPath => k.OnParent oldPath fun k d old =>
    k.OnParent newPath fun k d' new => k.renameSafe d old d' new
  | .mount _ => ∀ i < k.nextInode, (k.inodes i).ino ≠ 1
  | .invoke i op => k.invokeSafe i op
  | .invokeRmdir i name => k.Uncached i name
  | .invokeUnlink i name => k.Uncached i name
  | _ => True

instance (k : Kernel) : ∀ c, Decidable (k.Careful c)
  | .rmdir path held =>
    inferInstanceAs (Decidable (k.OnParent path fun k d name => k.rmdirSafe d name held))
  | .unlink path _ =>
    inferInstanceAs (Decidable (k.OnParent path fun k d name => k.unlinkSafe d name))
  | .rename oldPath newPath => inferInstanceAs (Decidable (k.OnParent oldPath fun k d old =>
    k.OnParent newPath fun k d' new => k.renameSafe d old d' new))
  | .mount _ => inferInstanceAs (Decidable (∀ i < k.nextInode, (k.inodes i).ino ≠ 1))
  | .invoke i op => inferInstanceAs (Decidable (k.invokeSafe i op))
  | .invokeRmdir i name | .invokeUnlink i name => inferInstanceAs (Decidable (k.Uncached i name))
  | .walk .. | .mkdir _ | .pwrite .. | .chdir _ | .mountVirtual .. | .mountAt .. | .unmount ..
  | .expire _ | .orphan _ => isTrue trivial

/-- References are good and what is remembered is so. -/
structure Inv (k : Kernel) : Prop where
  wf : k.Wf
  coherent : k.toVfs.Coherent

theorem OnParent.of_ok {P : Kernel → ℕ → Str → Prop} {name : Str} (h : k.OnParent path P)
    (hr : k.resolveParent path = .ok (d, name, k')) : P k' d name := by
  rwa [OnParent, hr] at h

variable (h : k.Inv)
include h

theorem Inv.reaches (hr : k.Reaches d k') : k'.Inv ∧ d < k'.nextDentry := by
  obtain ⟨hwf, hd, -⟩ := h.wf.reaches hr
  refine ⟨⟨hwf, ?_⟩, hd⟩
  obtain ⟨start, components, v, hs, hw, rfl⟩ := hr
  exact h.coherent.walkInner hs hw

theorem Inv.parent {name : Str} (hr : k.resolveParent path = .ok (d, name, k')) :
    k'.Inv ∧ d < k'.nextDentry :=
  h.reaches (h.wf.resolveParent hr)

theorem Inv.reply {r : Except VfsError Vfs} (hr : ∀ v, r = .ok v → v.Coherent) :
    (k.reply r).1.toVfs.Coherent := by
  cases r with
  | error e => exact h.coherent
  | ok v => exact hr v rfl

theorem Inv.onInode {r : Except VfsError Vfs} (hr : i < k.nextInode → ∀ v, r = .ok v → v.Coherent) :
    (k.onInode i r).1.toVfs.Coherent := by
  unfold Kernel.onInode
  split_ifs with hi
  · exact h.reply (hr hi)
  · exact h.coherent

/-! ## Drives -/

theorem Inv.assign {letter : Char} {m : DriveMount}
    (ha : k.assign letter m = .ok k') (hwf : k'.Wf) : k'.toVfs.Coherent := by
  have hdrives : ∃ ds, k'.toVfs = { k.toVfs with drives := ds } := by
    unfold Kernel.assign at ha
    simp only at ha
    split_ifs at ha
    cases ha
    exact ⟨_, rfl⟩
  obtain ⟨ds, hds⟩ := hdrives
  rw [hds]
  exact h.coherent.setDrives (hds ▸ hwf.vfs)

theorem Inv.mount (letter : Char) (hfresh : ∀ i < k.nextInode, (k.inodes i).ino ≠ 1) :
    (k.mount letter).1.toVfs.Coherent := by
  have hwf := h.wf.mount letter
  unfold Kernel.mount at hwf ⊢
  simp only at hwf ⊢
  split at hwf
  next => exact h.coherent
  next k' ha =>
    have hfs := h.wf.newTmpfs
    have hroot := hfs.newRoot (Nat.lt_succ_self _) h.wf.mountId_ne k.nextSb
    have htmpfs : k.newTmpfs.toVfs.Coherent :=
      h.coherent.newInode le_rfl h.coherent.one_lt hfresh
        (fun _ hc => (TmpfsEntry.dir.inj hc).symm) rfl hfs.vfs
    have hmade : Inv
        (k.newTmpfs.newRoot k.nextInode k.nextMountId k.nextSb).takeMountId.takeSuperblock :=
      ⟨hroot.takeMountId.takeSuperblock, htmpfs.pushDentry rfl rfl hroot.vfs⟩
    exact hmade.assign ha hwf

theorem Inv.mountVirtual (source : Str) (letter : Char) :
    (k.mountVirtual source letter).1.toVfs.Coherent := by
  unfold Kernel.mountVirtual
  split
  next => exact h.coherent
  next srcLetter d k1 hr =>
    obtain ⟨h1, hd⟩ := h.reaches (h.wf.resolvePath hr)
    split
    next => exact h1.coherent
    next i hi =>
      split
      next => exact h1.coherent
      next m _ =>
        simp only
        split
        next => exact h1.coherent
        next k' ha =>
          have hilt := (h1.wf.vfs.dentry d hd).inode_lt i hi
          have hroot := h1.wf.newRoot hilt h1.wf.mountId_ne (k1.sbOf m.id)
          have hmade : Inv (k1.newRoot i k1.nextMountId (k1.sbOf m.id)).takeMountId :=
            ⟨hroot.takeMountId, h1.coherent.pushDentry rfl rfl hroot.vfs⟩
          exact hmade.assign ha (hmade.wf.assign ⟨Nat.lt_succ_self _, rfl⟩ ha)

theorem Inv.mountAt (target : Str) (letter : Char) :
    (k.mountAt target letter).1.toVfs.Coherent := by
  unfold Kernel.mountAt
  split
  next => exact h.coherent
  next l d k1 hr =>
    obtain ⟨h1, hd⟩ := h.reaches (h.wf.resolvePath hr)
    split
    next => exact h1.coherent
    next =>
      rw [if_pos (h1.wf.vfs.dentry d hd).mountId_ne]
      exact h1.coherent
    next => exact h1.coherent

theorem Inv.unmount (letter : Char) (synced shut : Except VfsError Unit) :
    (k.unmount letter synced shut).1.toVfs.Coherent := by
  have hwf := h.wf.unmount letter synced shut
  unfold Kernel.unmount at hwf ⊢
  split
  next => exact h.coherent
  next hbusy =>
    rw [if_neg hbusy] at hwf
    split
    next => exact h.coherent
    next m hm =>
      rw [hm] at hwf
      split
      next => exact h.coherent
      next =>
        split
        next => exact h.coherent
        next =>
          simp only at hwf
          rw [(h.wf.shutDown _).uncover (lookupDrive_ok hm)] at hwf ⊢
          exact h.coherent.setDrives hwf.vfs

/-! ## Calls -/

theorem Inv.call (c : VfsCall) (hc : k.Careful c) : (k.call c).1.Inv := by
  refine ⟨h.wf.call c, ?_⟩
  cases c with
  | walk d components =>
    simp only [Kernel.call]
    split_ifs with hd
    · split
      next => exact h.coherent
      next c k1 hw => exact (h.reaches (walkFrom_reaches hd hw)).1.coherent
    · exact h.coherent
  | mkdir path =>
    simp only [Kernel.call, Kernel.mkdir]
    split
    next => exact h.coherent
    next d name k1 hr =>
      obtain ⟨h1, hd⟩ := h.parent hr
      exact h1.reply fun v hn => h1.coherent.mkdirName hd hn
  | rmdir path held =>
    simp only [Kernel.call, Kernel.rmdir]
    split
    next => exact h.coherent
    next d name k1 hr =>
      obtain ⟨h1, hd⟩ := h.parent hr
      exact h1.coherent.rmdirName hd held (OnParent.of_ok hc hr)
  | unlink path held =>
    simp only [Kernel.call, Kernel.unlink]
    split
    next => exact h.coherent
    next d name k1 hr =>
      obtain ⟨h1, hd⟩ := h.parent hr
      exact h1.coherent.unlinkName hd held (OnParent.of_ok hc hr)
  | rename oldPath newPath =>
    simp only [Kernel.call, Kernel.rename]
    split
    next => exact h.coherent
    next d old k1 hr =>
      obtain ⟨h1, hd⟩ := h.parent hr
      split
      next => exact h1.coherent
      next d' new k2 hr' =>
        obtain ⟨h2, hd'⟩ := h1.parent hr'
        have hle := (h1.wf.reaches (h1.wf.resolveParent hr')).2.2.next_le
        have hsafe := OnParent.of_ok (OnParent.of_ok hc hr) hr'
        exact h2.reply fun v hn => h2.coherent.renameName (hd.trans_le hle) hd' hsafe hn
  | pwrite path flags =>
    simp only [Kernel.call, Kernel.pwrite]
    split
    next => exact h.coherent
    next d leaf k1 hr =>
      obtain ⟨h1, hd⟩ := h.parent hr
      have hres := h1.coherent.resolveInode hd leaf flags
      split
      next v e heq =>
        rw [heq] at hres
        exact hres
      next v j heq =>
        rw [heq] at hres
        exact hres
  | chdir path =>
    simp only [Kernel.call, Kernel.chdir]
    split
    next => exact h.coherent
    next letter d k1 hr =>
      obtain ⟨h1, hd⟩ := h.reaches (h.wf.resolvePath hr)
      split <;> exact h1.coherent
  | mount letter => exact h.mount letter hc
  | mountVirtual source letter => exact h.mountVirtual source letter
  | mountAt target letter => exact h.mountAt target letter
  | unmount letter synced shut => exact h.unmount letter synced shut
  | invoke i op => exact h.onInode fun hi v hn => h.coherent.invoke hi hc hn
  | invokeRmdir i name =>
    refine h.onInode fun hi v hn => ?_
    have hn := Vfs.unlinkAt_of_rmdirAt hn
    exact h.coherent.unlisted (Vfs.unlinkAt_unlisted hn) (h.wf.vfs.unlinkAt hi hn) hc
  | invokeUnlink i name =>
    refine h.onInode fun hi v hn => ?_
    exact h.coherent.unlisted (Vfs.unlinkAt_unlisted hn) (h.wf.vfs.unlinkAt hi hn) hc
  | expire c => exact h.coherent.expire c
  | orphan d => exact h.coherent.orphan d

omit h

theorem inv_boot : boot.Inv where
  wf := wf_boot
  coherent :=
    { wf := wf_boot.vfs
      faithful := ⟨fun hc => absurd hc.1 (Nat.not_lt_zero _),
        fun hc => absurd hc.1 (Nat.not_lt_zero _)⟩
      ino_inj := nofun
      ino_lt := nofun
      one_lt := Nat.one_lt_two
      key := nofun
      fs := nofun }

/-- **In every run of careful calls the dentry cache is transparent.** -/
theorem transparent_of_careful (cs : List VfsCall) (hcs : RunMeets step Careful boot cs)
    (hrun : run step boot cs = some k) : k.toVfs.Transparent := by
  have hinv : k.Inv := by
    refine run_invariant Inv (fun s c s' hs hc hstep => ?_) cs inv_boot hcs hrun
    obtain rfl := Option.some.inj hstep
    exact hs.call c hc
  exact hinv.coherent.transparent

/-- A run with a bound drive, moves and removals of which every call is careful. -/
theorem transparent_bound_drive :
    ∃ k, run step boot (init ++ [.mkdir "A>d".toList, .mountVirtual "A>d".toList 'B',
      .pwrite "B>f".toList ⟨true, false, false, false, false⟩,
      .rename "B>f".toList "A>g".toList, .invoke 0 (.link "g".toList "h".toList),
      .unlink "A>g".toList true, .rmdir "A>tmp".toList false]) = some k ∧ k.toVfs.Transparent := by
  exact exists_of_any (fun _ => True) (by decide +kernel) fun k hk _ =>
    transparent_of_careful _ (by decide +kernel) hk

/-- A walk finds a name that its directory has not got: the cache can be seen. -/
theorem not_transparent_of_found {v : Vfs} {name : Str} (hd : d < v.nextDentry)
    (hi : (v.dentries d).inode = some i) (hname : Vfs.IsName name) (hlook : v.look i name = none)
    (hwalk : (v.walkInner Vfs.symlinkMax d [name]).toOption.isSome) : ¬ v.Transparent := by
  intro h
  have hplain : ∀ n ∈ [name], Vfs.IsName n := fun n hn => List.mem_singleton.mp hn ▸ hname
  have hlinks : v.NoLinks i [name] := fun j hj => by
    cases hlook.symm.trans hj
  have heq := (h d i [name] hd hi hplain hlinks).1
  rw [Names.follow, hlook] at heq
  rw [Option.map_eq_none_iff.mp heq] at hwalk
  cases hwalk

/-- A run after which the root of the last drive has a name too many, evaluated. -/
theorem not_transparent_of_any (cs : List VfsCall) (d i : ℕ) (name : Str) (hname : Vfs.IsName name)
    (h : (run step boot cs).any (fun k => decide (d < k.nextDentry ∧
      (k.dentries d).inode = some i ∧ k.look i name = none ∧
      (k.walkInner Vfs.symlinkMax d [name]).toOption.isSome)) = true) :
    ∃ k, run step boot cs = some k ∧ ¬ k.toVfs.Transparent := by
  refine exists_of_any _ h fun k _ hall => ?_
  obtain ⟨hd, hi, hlook, hwalk⟩ := hall
  exact not_transparent_of_found hd hi hname hlook hwalk

/-- Of two tmpfs drives the second finds the directory made on the first. -/
theorem second_tmpfs_sees_first :
    ∃ k, run step boot (init ++ [.mount 'B', .mkdir "A>x".toList]) = some k ∧
      ¬ k.toVfs.Transparent :=
  not_transparent_of_any _ 2 2 "x".toList (by decide) (by decide +kernel)

/-- A directory removed through its parent's object is found for as long as it is cached. -/
theorem removed_directory_found :
    ∃ k, run step boot (init ++ [.invokeRmdir 0 "tmp".toList]) = some k ∧ ¬ k.toVfs.Transparent :=
  not_transparent_of_any _ 0 0 "tmp".toList (by decide) (by decide +kernel)

end Kernel

end Bedrock
