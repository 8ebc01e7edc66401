import Bedrock.Vfs.NameOps

/-!
# Vfs/Reachable — the states the calls can reach

A call resolves a path by walks and then changes what the path leads to; so whatever walks and the
operations on a name keep, the calls keep, and every run of them.

    call  =  walk from a drive or from the current directory  ▸  operation on a name

In particular `mount_at` never mounts anything.
-/

namespace Bedrock

variable {v v' : Vfs} {d i : ℕ}

namespace Kernel

variable {k k' : Kernel} {path : Str} {letter : Char} {mnt : DriveMount}

/-! ## Paths -/

/-- **The references of the whole kernel are good**, the current directory's too. -/
structure Wf (k : Kernel) : Prop where
  vfs : k.toVfs.Wf
  cwd_lt : ∀ x, k.cwd = some x → x.2 < k.nextDentry
  mountId_ne : k.nextMountId ≠ 0

variable (h : k.Wf)
include h

theorem Wf.withVfs (hs : Vfs.Sound k.toVfs v) : (k.withVfs v).Wf :=
  ⟨hs.wf, fun x hx => (h.cwd_lt x hx).trans_le hs.next_le, h.mountId_ne⟩

/-- `d` is where a walk from some dentry ends, in `k'`. -/
def Reaches (k : Kernel) (d : ℕ) (k' : Kernel) : Prop :=
  ∃ start components v, start < k.nextDentry ∧
    k.walkInner Vfs.symlinkMax start components = .ok (d, v) ∧ k' = k.withVfs v

omit h in
theorem walkFrom_reaches {start : ℕ} {components : List Str} (hs : start < k.nextDentry)
    (hw : k.walkFrom start components = .ok (d, k')) : k.Reaches d k' := by
  unfold walkFrom at hw
  obtain ⟨r, hv, ⟨⟩⟩ := map_eq_ok.mp hw
  exact ⟨start, components, r.2, hs, hv, rfl⟩

theorem Wf.reaches (hr : k.Reaches d k') :
    k'.Wf ∧ d < k'.nextDentry ∧ Vfs.Grows k.toVfs k'.toVfs := by
  obtain ⟨start, components, v, hs, hw, rfl⟩ := hr
  obtain ⟨hv, hg, hd⟩ := h.vfs.walkInner hs hw
  exact ⟨h.withVfs ⟨hv, hg.next_le⟩, hd, hg⟩

omit h in
theorem lookupDrive_ok (hm : k.lookupDrive letter = .ok mnt) : k.drive letter = some mnt := by
  unfold lookupDrive at hm
  split_ifs at hm
  split at hm
  next m hd =>
    cases hm
    exact hd
  next => cases hm

theorem Wf.startOf_lt {r : Char × ℕ × Str} (hr : k.startOf path = .ok r) :
    r.2.1 < k.nextDentry := by
  unfold startOf at hr
  split at hr
  next letter inner _ =>
    obtain ⟨m, hm, ⟨⟩⟩ := map_eq_ok.mp hr
    exact h.vfs.drive_lt (lookupDrive_ok hm)
  next =>
    split at hr
    next l d hcwd =>
      cases hr
      exact h.cwd_lt _ hcwd
    next => cases hr

theorem Wf.resolvePath {r : Char × ℕ × Kernel} (hr : k.resolvePath path = .ok r) :
    k.Reaches r.2.1 r.2.2 := by
  unfold Kernel.resolvePath at hr
  split_ifs at hr
  split at hr
  · cases hr
  rename_i letter d inner hstart
  obtain ⟨x, hw, ⟨⟩⟩ := map_eq_ok.mp hr
  exact walkFrom_reaches (h.startOf_lt hstart) hw

theorem Wf.resolveParent {r : ℕ × Str × Kernel} (hr : k.resolveParent path = .ok r) :
    k.Reaches r.1 r.2.2 := by
  unfold Kernel.resolveParent at hr
  split at hr
  · cases hr
  rename_i letter d inner hstart
  split at hr
  · cases hr
  obtain ⟨x, hw, ⟨⟩⟩ := map_eq_ok.mp hr
  exact walkFrom_reaches (h.startOf_lt hstart) hw

theorem Wf.reply {r : Except VfsError Vfs}
    (hr : ∀ v, r = .ok v → Vfs.Sound k.toVfs v) : (k.reply r).1.Wf := by
  cases r with
  | error e => exact h
  | ok v => exact h.withVfs (hr v rfl)

theorem Wf.onInode {r : Except VfsError Vfs}
    (hr : i < k.nextInode → ∀ v, r = .ok v → Vfs.Sound k.toVfs v) : (k.onInode i r).1.Wf := by
  unfold Kernel.onInode
  split_ifs with hi
  · exact h.reply (hr hi)
  · exact h

/-! ## Drives -/

theorem Wf.assign (hm : mnt.root < k.nextDentry ∧ mnt.covered = none)
    (ha : k.assign letter mnt = .ok k') : k'.Wf := by
  unfold Kernel.assign at ha
  simp only at ha
  split_ifs at ha
  cases ha
  refine ⟨⟨h.vfs.dentry, h.vfs.plain, h.vfs.inode, h.vfs.dcache, fun x hx => ?_⟩, h.cwd_lt,
    h.mountId_ne⟩
  obtain hx | hx := List.mem_append.mp hx
  · exact h.vfs.drives x (List.mem_filter.mp hx).1
  · obtain rfl | hx := List.mem_cons.mp hx
    · exact hm
    · exact h.vfs.drives x (List.mem_filter.mp hx).1

theorem Wf.takeMountId : k.takeMountId.Wf := ⟨h.vfs, h.cwd_lt, Nat.succ_ne_zero _⟩

theorem Wf.takeSuperblock : k.takeSuperblock.Wf := ⟨h.vfs, h.cwd_lt, h.mountId_ne⟩

theorem Wf.shutDown (sb : ℕ) : (k.shutDown sb).Wf := ⟨h.vfs, h.cwd_lt, h.mountId_ne⟩

theorem Wf.newTmpfs : k.newTmpfs.Wf := by
  refine ⟨h.vfs.setInodes (Nat.le_succ _) fun a ha => ?_, h.cwd_lt, h.mountId_ne⟩
  obtain hlt | rfl := Nat.lt_succ_iff_lt_or_eq.mp ha
  · rw [Function.update_of_ne hlt.ne]
    exact (h.vfs.inode a hlt).mono (Nat.le_succ _)
  · rw [Function.update_self]
    rintro _ ⟨⟩ y hy
    cases hy

theorem Wf.newRoot (hi : i < k.nextInode) {id : ℕ} (hid : id ≠ 0) (sb : ℕ) :
    (k.newRoot i id sb).Wf :=
  ⟨h.vfs.push ⟨fun _ hx => Option.some.inj hx ▸ hi, nofun, fun _ hx => absurd hx List.not_mem_nil,
    hid⟩ rfl, fun x hx => (h.cwd_lt x hx).trans (Nat.lt_succ_self _), h.mountId_ne⟩

theorem Wf.mount (letter : Char) : (k.mount letter).1.Wf := by
  unfold Kernel.mount
  simp only
  split
  next => exact (h.takeMountId.takeSuperblock).shutDown _
  next k' ha =>
    refine Wf.assign ?_ ⟨Nat.lt_succ_self _, rfl⟩ ha
    exact (h.newTmpfs.newRoot (Nat.lt_succ_self _) h.mountId_ne _).takeMountId.takeSuperblock

theorem Wf.mountVirtual (source : Str) (letter : Char) : (k.mountVirtual source letter).1.Wf := by
  unfold Kernel.mountVirtual
  split
  next => exact h
  next srcLetter d k1 hr =>
    obtain ⟨h1, hd, -⟩ := h.reaches (h.resolvePath hr)
    split
    next => exact h1
    next i hi =>
      split
      next => exact h1
      next m _ =>
        simp only
        split
        next => exact h1.takeMountId
        next k' ha =>
          refine Wf.assign ?_ ⟨Nat.lt_succ_self _, rfl⟩ ha
          exact (h1.newRoot ((h1.vfs.dentry d hd).inode_lt i hi) h1.mountId_ne _).takeMountId

/-- **`mount_at` mounts nothing**: every directory it is given belongs to a mount already. -/
theorem Wf.mountAt (target : Str) (letter : Char) :
    (k.mountAt target letter).1.Wf ∧ (k.mountAt target letter).2 ≠ .ok () := by
  unfold Kernel.mountAt
  split
  next => exact ⟨h, nofun⟩
  next l d k1 hr =>
    obtain ⟨h1, hd, -⟩ := h.reaches (h.resolvePath hr)
    split
    next => exact ⟨h1, nofun⟩
    next =>
      rw [if_pos (h1.vfs.dentry d hd).mountId_ne]
      exact ⟨h1, nofun⟩
    next => exact ⟨h1, nofun⟩

theorem Wf.uncover (hm : k.drive letter = some mnt) : k.uncover mnt = k := by
  rw [Kernel.uncover, (h.vfs.drives _ (mem_of_lookup hm)).2]

theorem Wf.unmount (letter : Char) (synced shut : Except VfsError Unit) :
    (k.unmount letter synced shut).1.Wf := by
  unfold Kernel.unmount
  split_ifs
  · exact h
  · split
    next => exact h
    next m hm =>
      split
      next => exact h
      next =>
        split
        next => exact h.shutDown _
        next =>
          have hs := h.shutDown (k.sbOf m.id)
          rw [hs.uncover (lookupDrive_ok hm)]
          exact ⟨⟨hs.vfs.dentry, hs.vfs.plain, hs.vfs.inode, hs.vfs.dcache, fun x hx =>
            hs.vfs.drives x (List.mem_filter.mp hx).1⟩, hs.cwd_lt, hs.mountId_ne⟩

/-! ## Files -/

theorem Wf.mkdir (path : Str) : (k.mkdir path).1.Wf := by
  unfold Kernel.mkdir
  split
  next => exact h
  next d name k1 hr =>
    obtain ⟨h1, hd, -⟩ := h.reaches (h.resolveParent hr)
    exact h1.reply fun v hn => h1.vfs.mkdirName hd hn

theorem Wf.rmdir (path : Str) (held : Bool) : (k.rmdir path held).1.Wf := by
  unfold Kernel.rmdir
  split
  next => exact h
  next d name k1 hr =>
    obtain ⟨h1, hd, -⟩ := h.reaches (h.resolveParent hr)
    exact h1.withVfs (h1.vfs.rmdirName hd name held)

theorem Wf.unlink (path : Str) (held : Bool) : (k.unlink path held).1.Wf := by
  unfold Kernel.unlink
  split
  next => exact h
  next d name k1 hr =>
    obtain ⟨h1, hd, -⟩ := h.reaches (h.resolveParent hr)
    exact h1.withVfs (h1.vfs.unlinkName hd name held)

theorem Wf.rename (oldPath newPath : Str) : (k.rename oldPath newPath).1.Wf := by
  unfold Kernel.rename
  split
  next => exact h
  next d old k1 hr =>
    obtain ⟨h1, hd, -⟩ := h.reaches (h.resolveParent hr)
    split
    next => exact h1
    next d' new k2 hr' =>
      obtain ⟨h2, hd', hg⟩ := h1.reaches (h1.resolveParent hr')
      exact h2.reply fun v hn => h2.vfs.renameName (hd.trans_le hg.next_le) hd' hn

theorem Wf.pwrite (path : Str) (flags : OpenFlags) : (k.pwrite path flags).1.Wf := by
  unfold Kernel.pwrite
  split
  next => exact h
  next d leaf k1 hr =>
    obtain ⟨h1, hd, -⟩ := h.reaches (h.resolveParent hr)
    have hs := h1.vfs.resolveInode hd leaf flags
    split
    next v e heq =>
      rw [heq] at hs
      exact h1.withVfs hs
    next v j heq =>
      rw [heq] at hs
      exact h1.withVfs hs

theorem Wf.chdir (path : Str) : (k.chdir path).1.Wf := by
  unfold Kernel.chdir
  split
  next => exact h
  next letter d k1 hr =>
    obtain ⟨h1, hd, -⟩ := h.reaches (h.resolvePath hr)
    split
    next => exact h1
    next => exact ⟨h1.vfs, fun x hx => Option.some.inj hx ▸ hd, h1.mountId_ne⟩
    next => exact h1

theorem Wf.call (c : VfsCall) : (k.call c).1.Wf := by
  cases c with
  | walk d components =>
    simp only [Kernel.call]
    split_ifs with hd
    · split
      next => exact h
      next c k1 hw => exact (h.reaches (walkFrom_reaches hd hw)).1
    · exact h
  | mkdir path => exact h.mkdir path
  | rmdir path held => exact h.rmdir path held
  | unlink path held => exact h.unlink path held
  | rename oldPath newPath => exact h.rename oldPath newPath
  | pwrite path flags => exact h.pwrite path flags
  | chdir path => exact h.chdir path
  | mount letter => exact h.mount letter
  | mountVirtual source letter => exact h.mountVirtual source letter
  | mountAt target letter => exact (h.mountAt target letter).1
  | unmount letter synced shut => exact h.unmount letter synced shut
  | invoke i op =>
    refine h.onInode fun hi v hn => ?_
    exact ⟨h.vfs.invoke hi hn, (Vfs.invoke_nextDentry hn).ge⟩
  | invokeRmdir i name =>
    refine h.onInode fun hi v hn => ?_
    have hn := Vfs.unlinkAt_of_rmdirAt hn
    exact ⟨h.vfs.unlinkAt hi hn, by obtain ⟨c, -, -, rfl⟩ := Vfs.unlinkAt_ok hn; exact le_rfl⟩
  | invokeUnlink i name => exact h.onInode fun hi v hn =>
    ⟨h.vfs.unlinkAt hi hn, by obtain ⟨c, -, -, rfl⟩ := Vfs.unlinkAt_ok hn; exact le_rfl⟩
  | expire c => exact h.withVfs ⟨h.vfs.expire c, le_rfl⟩
  | orphan d => exact h.withVfs ⟨h.vfs.orphan d, le_rfl⟩

omit h

theorem wf_boot : boot.Wf :=
  ⟨⟨nofun, nofun, nofun, nofun, nofun⟩, nofun, Nat.one_ne_zero⟩

/-- **In every state of every run the references are good.** -/
theorem wf_run (cs : List VfsCall) (hrun : run step boot cs = some k) : k.Wf := by
  have hmeets : RunMeets step (fun _ _ => True) boot cs :=
    RunMeets.of_forall (fun _ _ => trivial) _ _
  refine run_invariant Wf (fun s c s' hs _ hstep => ?_) cs wf_boot hmeets hrun
  obtain rfl := Option.some.inj hstep
  exact hs.call c

end Kernel

end Bedrock
