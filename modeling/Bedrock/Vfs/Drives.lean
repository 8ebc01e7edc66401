import Bedrock.Vfs.Reachable

/-!
# Vfs/Drives — what unmounting a drive does to the others

`unmount` asks that the current directory was not entered by the very letter it is given, shuts the
drive's superblock down and takes the drive from the table.  A drive made by `mount_virtual` has the
superblock of its source, and the table does not distinguish `b` from `B`:

    A -- superblock 0 -- B         unmount B   shuts superblock 0 down, which A goes on using
    cwd = (b, dentry of B)         unmount B   succeeds in the current directory

Where neither is the case, the other drives are as they were.
-/

namespace Bedrock.Kernel

variable {k k' : Kernel} {letter : Char} {m : DriveMount}

/-- The current directory lies on the drive: by the letter it was entered with, in either case, or
by the mount that its dentry belongs to. -/
def CwdOn (k : Kernel) (letter : Char) (m : DriveMount) : Prop :=
  ∃ x ∈ k.cwd, x.1.toUpper = letter.toUpper ∨ (k.dentries x.2).mountId = m.id

instance (k : Kernel) (letter : Char) (m : DriveMount) : Decidable (k.CwdOn letter m) :=
  inferInstanceAs (Decidable (∃ x ∈ k.cwd, _))

/-- A drive that remains has the superblock of this one. -/
def Shared (k : Kernel) (letter : Char) (m : DriveMount) : Prop :=
  ∃ x ∈ k.drives, x.1 ≠ letter.toUpper ∧ k.sbOf x.2.id = k.sbOf m.id

instance (k : Kernel) (letter : Char) (m : DriveMount) : Decidable (k.Shared letter m) :=
  inferInstanceAs (Decidable (∃ x ∈ k.drives, _))

/-- **Taking drive `letter` away leaves the others alone**: no superblock is shut down that one of
them uses, their letters lead to the same roots and every name below to the same file, and the
current directory was elsewhere. -/
structure Isolated (k k' : Kernel) (letter : Char) (m : DriveMount) : Prop where
  shutdown : ∀ sbs, k'.shutdowns = sbs ++ k.shutdowns →
    ∀ sb ∈ sbs, ∀ x ∈ k'.drives, k'.sbOf x.2.id ≠ sb
  drive : ∀ l : Char, l.toUpper ≠ letter.toUpper → k'.drive l = k.drive l
  inodes : k'.inodes = k.inodes ∧ k'.nextInode = k.nextInode ∧ k'.used = k.used
  dentries : k'.dentries = k.dentries ∧ k'.nextDentry = k.nextDentry ∧ k'.dcache = k.dcache
  cwd : ¬ k.CwdOn letter m

/-- `unmount` refuses: the current directory was entered by the very letter. -/
def Kept (k : Kernel) (letter : Char) : Prop := k.cwd.map Prod.fst = some letter

instance (k : Kernel) (letter : Char) : Decidable (k.Kept letter) :=
  inferInstanceAs (Decidable (_ = _))

/-- What a successful `unmount` amounts to. -/
theorem Wf.unmount_ok (h : k.Wf) (hm : k.drive letter = some m) {synced shut : Except VfsError Unit}
    (hok : k.unmount letter synced shut = (k', .ok ())) :
    ¬ k.Kept letter ∧ k' = (k.shutDown (k.sbOf m.id)).removeDrive letter := by
  unfold Kernel.unmount at hok
  split at hok
  · cases hok
  rename_i hkept
  split at hok
  · cases hok
  rename_i m' hm'
  obtain rfl : m = m' := Option.some.inj (hm.symm.trans (lookupDrive_ok hm'))
  split at hok
  · cases hok
  split at hok
  · cases hok
  cases hok
  exact ⟨hkept, by rw [(h.shutDown _).uncover hm]⟩

/-- Otherwise it succeeds, if the file system does its part. -/
theorem unmount_of_not_kept (hm : k.lookupDrive letter = .ok m) (hkept : ¬ k.Kept letter) :
    ∃ k', k.unmount letter (.ok ()) (.ok ()) = (k', .ok ()) := by
  refine ⟨((k.shutDown (k.sbOf m.id)).uncover m).removeDrive letter, ?_⟩
  unfold Kept at hkept
  rw [Kernel.unmount, if_neg hkept, hm]

theorem drive_removeDrive (k : Kernel) {l : Char} (hl : l.toUpper ≠ letter.toUpper) :
    (k.removeDrive letter).drive l = k.drive l :=
  (lookup_filter_ne k.drives letter.toUpper l.toUpper).trans (if_neg hl)

/-- The only superblock shut down is the drive's own. -/
theorem shutdowns_iff (k : Kernel) (letter : Char) (m : DriveMount) :
    (∀ sbs, ((k.shutDown (k.sbOf m.id)).removeDrive letter).shutdowns = sbs ++ k.shutdowns →
      ∀ sb ∈ sbs, ∀ x ∈ ((k.shutDown (k.sbOf m.id)).removeDrive letter).drives,
        k.sbOf x.2.id ≠ sb) ↔ ¬ k.Shared letter m := by
  constructor
  · rintro h ⟨x, hx, hne, heq⟩
    refine h [k.sbOf m.id] rfl _ List.mem_cons_self x (List.mem_filter.mpr ⟨hx, ?_⟩) heq
    exact decide_eq_true hne
  · intro h sbs hsbs sb hsb x hx heq
    have hone : [k.sbOf m.id] ++ k.shutdowns = sbs ++ k.shutdowns := hsbs
    obtain rfl := List.append_cancel_right hone
    obtain ⟨hx, hne⟩ := List.mem_filter.mp hx
    exact h ⟨x, hx, of_decide_eq_true hne, heq.trans (List.mem_singleton.mp hsb)⟩

theorem Wf.isolated_iff_of_ok (h : k.Wf) (hm : k.drive letter = some m)
    {synced shut : Except VfsError Unit} (hok : k.unmount letter synced shut = (k', .ok ())) :
    Isolated k k' letter m ↔ ¬ k.Shared letter m ∧ ¬ k.CwdOn letter m := by
  obtain ⟨-, rfl⟩ := h.unmount_ok hm hok
  constructor
  · intro h
    exact ⟨(shutdowns_iff k letter m).mp h.shutdown, h.cwd⟩
  · rintro ⟨hshared, hcwd⟩
    exact ⟨(shutdowns_iff k letter m).mpr hshared, fun l hl => drive_removeDrive _ hl,
      ⟨rfl, rfl, rfl⟩, ⟨rfl, rfl, rfl⟩, hcwd⟩

/-- A run after which the drive can be unmounted, evaluated. -/
theorem unmounted_of_any (cs : List VfsCall) (letter : Char) (p : Kernel → DriveMount → Bool)
    (h : (run step boot cs).any (fun k => (k.lookupDrive letter).toOption.any fun m =>
      (k.unmount letter (.ok ()) (.ok ())).2.toOption.isSome && p k m) = true) :
    ∃ k k' m, run step boot cs = some k ∧ k.lookupDrive letter = .ok m ∧
      k.unmount letter (.ok ()) (.ok ()) = (k', .ok ()) ∧ p k m = true := by
  obtain ⟨k, hk, hdrive⟩ := (Option.any_eq_true _ _).mp h
  obtain ⟨m, hdrive, hall⟩ := (Option.any_eq_true _ _).mp hdrive
  have hm : k.lookupDrive letter = .ok m := by
    cases hm : k.lookupDrive letter with
    | error e => rw [hm] at hdrive; cases hdrive
    | ok m' => rw [hm] at hdrive; exact congrArg _ (Option.some.inj hdrive)
  obtain ⟨hsome, hp⟩ := (Bool.and_eq_true _ _).mp hall
  cases hres : k.unmount letter (.ok ()) (.ok ()) with
  | mk k' r =>
    rw [hres] at hsome
    cases r with
    | error e => cases hsome
    | ok u => exact ⟨k, k', m, hk, hm, hres, hp⟩

/-- The current directory is entered as `b>`; `B` can be unmounted all the same. -/
theorem lowercase_cwd_unmounted :
    ∃ k k' m, run step boot (init ++ [.mount 'B', .chdir "b>".toList]) = some k ∧
      k.lookupDrive 'B' = .ok m ∧ k.unmount 'B' (.ok ()) (.ok ()) = (k', .ok ()) ∧
      k.CwdOn 'B' m := by
  obtain ⟨k, k', m, hk, hm, hok, hp⟩ := unmounted_of_any
    (init ++ [.mount 'B', .chdir "b>".toList]) 'B' (fun k m => decide (k.CwdOn 'B' m))
    (by decide +kernel)
  exact ⟨k, k', m, hk, hm, hok, of_decide_eq_true hp⟩

end Bedrock.Kernel
