import Bedrock.Vfs.Tmpfs

/-!
# Vfs/Quota — the budget of a tmpfs

The counter of a tmpfs is changed in five places: space is reserved before a file grows, before a
link is made, and given back after a file shrinks, after a link is rewritten and when an inode is
dropped.  Whatever the operations, the counter is the sum of what the inodes hold, each of them
counted once however many names it has:

    used  =  Σ size(inode)  ≤  budget
-/

namespace Bedrock.Tmpfs

open Finset Option Nat

variable {s s' s₁ : Fs} {i j n : ℕ} {e e₀ : Entry}

namespace Fs

/-! ## The sum of the sizes -/

/-- The bytes an inode is charged for; a dropped one holds none. -/
def sizeAt (s : Fs) (i : ℕ) : ℕ := ((s.entry i).map Entry.size).getD 0

/-- The bytes all inodes are charged for. -/
def total (s : Fs) : ℕ := ∑ i ∈ range s.next, s.sizeAt i

/-- **The counter is the sum of the sizes and within the budget.** -/
structure Quota (s : Fs) : Prop where
  used_eq : s.used = s.total
  used_le : s.used ≤ tmpfsBudget

/-- …and no inode has come about otherwise. -/
structure Inv (s : Fs) : Prop extends Quota s where
  fresh : ∀ i, s.next ≤ i → s.entry i = none

theorem Inv.lt_next (h : Inv s) (he : s.entry i = some e) : i < s.next := by
  by_contra hle
  rw [h.fresh i (not_lt.mp hle)] at he
  cases he

/-- Changing one inode changes the sum by the difference. -/
theorem total_setEntry (h : i < s.next) (he : s.entry i = some e₀) (e : Entry) :
    (s.setEntry i e).total + e₀.size = s.total + e.size := by
  have hmem : i ∈ range s.next := mem_range.mpr h
  have hrest : ∑ k ∈ (range s.next).erase i, (s.setEntry i e).sizeAt k =
      ∑ k ∈ (range s.next).erase i, s.sizeAt k := by
    refine sum_congr rfl fun k hk => ?_
    rw [sizeAt, entry_setEntry, if_neg (ne_of_mem_erase hk), sizeAt]
  have hnew : (s.setEntry i e).sizeAt i = e.size := by
    rw [sizeAt, entry_setEntry, if_pos rfl, he]
    rfl
  have hold : s.sizeAt i = e₀.size := by
    rw [sizeAt, he]
    rfl
  have h1 : (s.setEntry i e).total =
      ∑ k ∈ (range s.next).erase i, (s.setEntry i e).sizeAt k + (s.setEntry i e).sizeAt i :=
    (sum_erase_add _ _ hmem).symm
  have h2 : s.total = ∑ k ∈ (range s.next).erase i, s.sizeAt k + s.sizeAt i :=
    (sum_erase_add _ _ hmem).symm
  omega

theorem fresh_setEntry (h : Inv s) (he : s.entry i = some e₀) (e : Entry) :
    ∀ k, s.next ≤ k → (s.setEntry i e).entry k = none := by
  intro k hk
  have hne : k ≠ i := fun hki => absurd (h.lt_next he) (by omega)
  rw [entry_setEntry, if_neg hne]
  exact h.fresh k hk

/-! ## Resizing -/

theorem refund_eq (s : Fs) (hn : n ≤ s.used) (hused : s.used ≤ tmpfsBudget) :
    s.refund n = { s with used := s.used - n } := by
  have hlt : s.used < 2 ^ 64 := hused.trans_lt (by decide)
  have hsub : wrappingSub s.used n = s.used - n := by
    rw [wrappingSub]
    omega
  rw [refund, hsub]

/-- A reservation either is charged in full or refused. -/
theorem reserveBudget_ok (hr : s.reserveBudget n = .ok s₁) (hused : s.used ≤ tmpfsBudget) :
    s₁ = { s with used := s.used + n } ∧ s.used + n ≤ tmpfsBudget := by
  unfold reserveBudget at hr
  split_ifs at hr with h0 h64 hle
  · subst h0
    exact ⟨(Except.ok.inj hr).symm, hused⟩
  · exact ⟨(Except.ok.inj hr).symm, not_lt.mp hle⟩

/-- **Growing and shrinking keeps the counter exact.** -/
theorem Inv.resized (h : Inv s) (he : s.entry i = some e₀)
    (hr : s.reserveGrowth e₀.size n = .ok s₁) (hn : e.size = n) :
    Inv ((s₁.setEntry i e).refundShrink e₀.size n) := by
  have hsum := total_setEntry (h.lt_next he) he e
  have hfresh := fresh_setEntry h he e
  have hused := h.used_eq
  have hle := h.used_le
  obtain hgrow | hshrink := lt_or_ge e₀.size n
  · rw [reserveGrowth, if_pos hgrow] at hr
    rw [refundShrink, if_neg (by omega)]
    obtain ⟨rfl, hfit⟩ := reserveBudget_ok hr hle
    refine ⟨⟨?_, hfit⟩, hfresh⟩
    show s.used + (n - e₀.size) = (s.setEntry i e).total
    omega
  · rw [reserveGrowth, if_neg (by omega)] at hr
    cases hr
    have hrefund : (s.setEntry i e).refundShrink e₀.size n =
        { s.setEntry i e with used := s.used - (e₀.size - n) } := by
      rw [refundShrink]
      split_ifs with hlt
      · exact refund_eq _ (show e₀.size - n ≤ s.used by omega) hle
      · rw [show e₀.size - n = 0 by omega]
        rfl
    rw [hrefund]
    refine ⟨⟨?_, (sub_le _ _).trans hle⟩, hfresh⟩
    show s.used - (e₀.size - n) = (s.setEntry i e).total
    omega

theorem length_resize (data : List UInt8) (len : ℕ) : (resize data len).length = len := by
  rw [resize, List.length_append, List.length_take, List.length_replicate]
  omega

variable {buf : List UInt8} {offset : ℕ} {name : Str}

theorem length_copyFromSlice {data written : List UInt8} {stop : ℕ}
    (h : copyFromSlice data offset stop buf = some written) :
    written.length = data.length ∧ stop ≤ data.length := by
  unfold copyFromSlice at h
  split_ifs at h with hb
  cases h
  simp only [List.length_append, List.length_take, List.length_drop]
  omega

variable (h : Inv s)
include h

theorem Inv.writeBytes {data : List UInt8} {make : List UInt8 → Entry}
    (hsize : ∀ d, (make d).size = d.length) (he : s.entry i = some (make data))
    (hw : s.writeBytes i data offset buf make = some (.ok s')) : Inv s' := by
  unfold Fs.writeBytes at hw
  simp only at hw
  split at hw
  · cases hw
  rename_i s₁ hr
  split at hw
  · cases hw
  rename_i written hc
  cases hw
  have hlen : written.length = max data.length ((offset + buf.length) % 2 ^ 64) := by
    have := length_copyFromSlice hc
    split_ifs at this with hlt
    · rw [length_resize] at this
      omega
    · omega
  have hinv := h.resized he (by rw [hsize]; exact hr) ((hsize written).trans hlen)
  rwa [hsize, ← hlen] at hinv

theorem Inv.writeAt (hw : s.writeAt i offset buf = some (.ok s')) : Inv s' := by
  unfold Fs.writeAt at hw
  split at hw
  · rename_i data he
    exact h.writeBytes (fun _ => rfl) he hw
  · rename_i target he
    split_ifs at hw
    · obtain ⟨s₁, hr, ⟨⟩⟩ := map_eq_ok.mp (some.inj hw)
      exact h.resized he hr rfl
    · exact h.writeBytes (fun _ => rfl) he hw
  · cases hw

theorem Inv.truncate {len : ℕ} (ht : s.truncate i len = .ok s') : Inv s' := by
  unfold Fs.truncate at ht
  split at ht
  · rename_i data he
    obtain ⟨s₁, hr, ⟨⟩⟩ := map_eq_ok.mp ht
    simp only [length_resize]
    exact h.resized he hr (length_resize data len)
  · rename_i target he
    obtain ⟨s₁, hr, ⟨⟩⟩ := map_eq_ok.mp ht
    have hlen : (if target.length < len then resize target len else target.take len).length =
        len := by
      split_ifs with hlt
      · exact length_resize target len
      · rw [List.length_take]
        omega
    simp only [hlen]
    exact h.resized he hr hlen
  · cases ht

/-! ## Names -/

theorem Inv.setChildren {c c' : List (Str × ℕ)} (hc : s.children i = some c) :
    Inv (s.setChildren i c') := by
  have he := children_eq_some.mp hc
  refine ⟨⟨?_, h.used_le⟩, fresh_setEntry h he _⟩
  have hsum := total_setEntry (h.lt_next he) he (.dir c')
  have hused := h.used_eq
  show s.used = (s.setEntry i (.dir c')).total
  simp only [Entry.size] at hsum
  omega

omit h in
theorem total_newInode (s : Fs) (fileType : FileType) (e : Entry) :
    (s.newInode fileType e).total = s.total + e.size := by
  have hnew : (s.newInode fileType e).sizeAt s.next = e.size := by
    rw [sizeAt, entry_newInode, if_pos rfl]
    rfl
  have hsum : (s.newInode fileType e).total =
      ∑ k ∈ range s.next, (s.newInode fileType e).sizeAt k +
        (s.newInode fileType e).sizeAt s.next := sum_range_succ _ _
  rw [hsum, hnew]
  refine congrArg (· + e.size) (sum_congr rfl fun k hk => ?_)
  rw [sizeAt, entry_newInode, if_neg (mem_range.mp hk).ne, sizeAt]

omit h in
/-- A new inode that has been charged for what it starts with. -/
theorem inv_addNew {fileType : FileType} (h : ∀ k, s.next ≤ k → s.entry k = none)
    (hused : s.used = s.total + e.size) (hle : s.used ≤ tmpfsBudget)
    (ha : s.addNew i name fileType e = .ok s') : Inv s' := by
  obtain ⟨c, hc, -, rfl⟩ := addNew_ok ha
  have hinv : Inv (s.newInode fileType e) := by
    refine ⟨⟨hused.trans (total_newInode s fileType e).symm, hle⟩, fun k hk => ?_⟩
    have hk' : s.next < k := hk
    rw [entry_newInode, if_neg hk'.ne']
    exact h k hk'.le
  have hne : i ≠ s.next := by
    rintro rfl
    rw [children_eq_some, h _ le_rfl] at hc
    cases hc
  have hc' : (s.newInode fileType e).children i = some c := by
    rw [children_eq_some, entry_newInode, if_neg hne]
    exact children_eq_some.mp hc
  exact hinv.setChildren hc'

/-- …which an empty one has. -/
theorem Inv.addNew {fileType : FileType} (he : e.size = 0)
    (ha : s.addNew i name fileType e = .ok s') : Inv s' :=
  inv_addNew h.fresh (he ▸ h.used_eq) h.used_le ha

theorem Inv.symlink {target : List UInt8} (ha : s.symlink i name target = .ok s') : Inv s' := by
  obtain ⟨s₁, hr, ha⟩ := symlink_ok ha
  obtain ⟨rfl, hfit⟩ := reserveBudget_ok hr h.used_le
  have hused : s.used + target.length = s.total + target.length := by rw [h.used_eq]
  exact inv_addNew (s := { s with used := s.used + target.length }) (e := .symlink target) h.fresh
    hused hfit ha

theorem Inv.rename {old new : Str} (ha : s.rename i old new = .ok s') : Inv s' := by
  obtain ⟨c, j, hc, -, rfl⟩ := rename_ok ha
  exact h.setChildren hc

theorem Inv.renameAcrossDirs {i' : ℕ} {old new : Str}
    (ha : s.renameAcrossDirs i i' old new = .ok s') : Inv s' := by
  obtain ⟨-, -, -, -, -, ha⟩ | ⟨c, c', j, hne, hc, hc', -, rfl⟩ := renameAcrossDirs_ok ha
  · exact h.rename ha
  · have hc'' : (s.setChildren i (take c old)).children i' = some c' := by
      rw [children_eq_some, Fs.setChildren, entry_setEntry, if_neg hne.symm]
      exact children_eq_some.mp hc'
    exact (h.setChildren hc).setChildren hc''

/-! ## Dropping -/

theorem Inv.drop (hd : s.drop j = some s') : Inv s' := by
  obtain ⟨n, hn, -, -, -, rfl⟩ := drop_some hd
  have he : s.entry j = some n.entry := by rw [entry, hn]; rfl
  have hmem : j ∈ range s.next := mem_range.mpr (h.lt_next he)
  set s₁ : Fs := { s with inodes := Function.update s.inodes j none } with hs1
  have hentry : ∀ k, s₁.entry k = if k = j then none else s.entry k := by
    intro k
    by_cases hk : k = j
    · simp only [hs1, entry, hk, Function.update_self, if_true, map_none]
    · simp only [hs1, entry, Function.update_of_ne hk, if_neg hk]
  have hsum : s₁.total + n.entry.size = s.total := by
    have hrest : s₁.total = ∑ k ∈ (range s.next).erase j, s₁.sizeAt k + s₁.sizeAt j :=
      (sum_erase_add _ _ hmem).symm
    have hall : s.total = ∑ k ∈ (range s.next).erase j, s.sizeAt k + s.sizeAt j :=
      (sum_erase_add _ _ hmem).symm
    have hsame : ∑ k ∈ (range s.next).erase j, s₁.sizeAt k =
        ∑ k ∈ (range s.next).erase j, s.sizeAt k := by
      refine sum_congr rfl fun k hk => ?_
      rw [sizeAt, hentry, if_neg (ne_of_mem_erase hk), sizeAt]
    have hnone : s₁.sizeAt j = 0 := by
      rw [sizeAt, hentry, if_pos rfl]
      rfl
    have hsome : s.sizeAt j = n.entry.size := by
      rw [sizeAt, he]
      rfl
    omega
  have hused : s.used = s.total := h.used_eq
  have hle := h.used_le
  have hrefund : (if 0 < n.entry.size then s₁.refund n.entry.size else s₁) =
      { s₁ with used := s.used - n.entry.size } := by
    split_ifs with hpos
    · exact refund_eq s₁ (show n.entry.size ≤ s.used by omega) hle
    · rw [show n.entry.size = 0 by omega]
      rfl
  rw [hrefund]
  refine ⟨⟨?_, (sub_le _ _).trans hle⟩, fun k hk => ?_⟩
  · show s.used - n.entry.size = s₁.total
    omega
  · show s₁.entry k = none
    rw [hentry]
    split_ifs
    · rfl
    · exact h.fresh k hk

/-! ## Runs -/

/-- **Every operation keeps the counter exact.** -/
theorem Inv.apply {op : Op} (ha : s.apply op = some (.ok s')) : Inv s' := by
  cases op with
  | create i name | mkdir i name | mkfifo i name | mknod i name mode =>
    exact h.addNew rfl (some.inj ha)
  | symlink i name target => exact h.symlink (some.inj ha)
  | link i old new =>
    obtain ⟨c, j, hc, -, -, rfl⟩ := link_ok (some.inj ha)
    exact h.setChildren hc
  | writeAt i offset buf => exact h.writeAt ha
  | truncate i len => exact h.truncate (some.inj ha)
  | rename i old new => exact h.rename (some.inj ha)
  | renameAcrossDirs refused i i' old new =>
    have ha := some.inj ha
    split_ifs at ha
    exact h.renameAcrossDirs ha
  | unlink i name =>
    obtain ⟨c, j, hc, -, rfl⟩ := unlink_ok (some.inj ha)
    exact h.setChildren hc
  | rmdir i name =>
    obtain ⟨c, j, hc, -, -, rfl⟩ := rmdir_ok (some.inj ha)
    exact h.setChildren hc
  | hold i | release i =>
    simp only [Fs.apply] at ha
    split_ifs at ha
    cases ha
    exact ⟨⟨h.used_eq, h.used_le⟩, h.fresh⟩
  | drop i =>
    obtain ⟨t, ht, heq⟩ := map_eq_some_iff.mp ha
    cases heq
    exact h.drop ht

theorem Inv.step {op : Op} (hs : s.step op = some s') : Inv s' := by
  obtain ⟨r, hr, heq⟩ := map_eq_some_iff.mp hs
  cases r with
  | ok t =>
    obtain rfl : t = s' := heq
    exact h.apply hr
  | error e =>
    obtain rfl : s = s' := heq
    exact h

omit h

theorem inv_mount (nextIno : ℕ) : Inv (mount nextIno) where
  used_eq := rfl
  used_le := zero_le _
  fresh := fun i hi => by
    have hpos : 1 ≤ i := hi
    have hne : i ≠ root := ne_of_gt hpos
    rw [entry, mount]
    simp only [if_neg hne, map_none]

/-- **In every run the counter is the sum of the sizes and within the budget.** -/
theorem quota_run (nextIno : ℕ) {ops : List Op} (ht : run step (mount nextIno) ops = some s) :
    Quota s := by
  have hinv : Inv s := run_invariant Inv (fun _ _ _ h _ hs => h.step hs) ops (inv_mount nextIno)
    (RunMeets.of_forall (fun _ _ => trivial) _ ops) ht
  exact hinv.toQuota

/-- A file with two names, written, shortened and dropped, next to a link. -/
theorem quota_two_names : ∃ s, run step (mount 2)
      [.create root ['f'], .writeAt 1 2 [7, 7, 7], .link root ['f'] ['g'],
        .symlink root ['l'] [47, 102], .truncate 1 1, .unlink root ['f'], .rmdir root ['g'],
        .drop 1] = some s ∧ s.used = 2 ∧ Quota s :=
  exists_of_any (fun s => s.used = 2) (by decide +kernel) fun _ hs hused => ⟨hused, quota_run 2 hs⟩

end Fs

end Bedrock.Tmpfs
