import Bedrock.Lib.Assoc
import Bedrock.Vfs.Calls

/-!
# Vfs/Dentries — what every state of the dentries keeps

Whatever is called, a dentry, an entry of the cache and a drive refer only to dentries that there
are, and names only to inodes that there are.  Every dentry belongs to a mount: a root is given its
mount's number, and a child its parent's.

    root -- mount_id = 1          mount_at asks for a directory with mount_id = 0,
     └- child -- mount_id = 1     and there is none: no mount covers anything
-/

namespace Bedrock

open Function List

variable {v v' : Vfs} {d c i j n m : ℕ} {name : Str} {e : Dentry}

/-! ## References -/

/-- A dentry refers to the first `n` dentries and the first `m` inodes, and has a mount. -/
structure Dentry.Ok (e : Dentry) (n m : ℕ) : Prop where
  inode_lt : ∀ i, e.inode = some i → i < m
  parent_lt : ∀ p, e.parent = some p → p < n
  child_lt : ∀ x ∈ e.children, x.2 < n
  mountId_ne : e.mountId ≠ 0

theorem Dentry.Ok.mono {n' m' : ℕ} (h : e.Ok n m) (hn : n ≤ n') (hm : m ≤ m') : e.Ok n' m' :=
  ⟨fun i hi => (h.inode_lt i hi).trans_le hm, fun p hp => (h.parent_lt p hp).trans_le hn,
    fun x hx => (h.child_lt x hx).trans_le hn, h.mountId_ne⟩

/-- A directory names the first `m` inodes. -/
def Inode.Ok (x : Inode) (m : ℕ) : Prop :=
  ∀ children, x.entry = .dir children → ∀ y ∈ children, y.2 < m

theorem Inode.Ok.mono {x : Inode} {m' : ℕ} (h : x.Ok m) (hm : m ≤ m') : x.Ok m' :=
  fun children hc y hy => (h children hc y hy).trans_le hm

theorem Inode.Ok.lookup_lt {x : Inode} (h : x.Ok m) (hj : x.lookup name = .ok j) : j < m := by
  unfold Inode.lookup at hj
  split at hj
  next children hc =>
    split at hj
    next k hk =>
      obtain rfl : k = j := Except.ok.inj hj
      exact h children hc _ (mem_of_lookup hk)
    next => cases hj
  next => cases hj

namespace Vfs

/-- **Every reference leads to something that is there**, no child is a mount point, and no mount
covers a dentry. -/
structure Wf (v : Vfs) : Prop where
  dentry : ∀ d < v.nextDentry, (v.dentries d).Ok v.nextDentry v.nextInode
  plain : ∀ d < v.nextDentry, ∀ x ∈ (v.dentries d).children, (v.dentries x.2).mountPoint = false
  inode : ∀ i < v.nextInode, (v.inodes i).Ok v.nextInode
  dcache : ∀ x ∈ v.dcache, x.2 < v.nextDentry ∧ (v.dentries x.2).mountPoint = false
  drives : ∀ x ∈ v.drives, x.2.root < v.nextDentry ∧ x.2.covered = none

/-! ## One edit -/

variable (h : v.Wf)
include h

/-- A dentry changes, but for being a mount point or not. -/
theorem Wf.setDentry (he : d < v.nextDentry → e.Ok v.nextDentry v.nextInode)
    (hm : e.mountPoint = (v.dentries d).mountPoint)
    (hc : d < v.nextDentry → ∀ x ∈ e.children, (v.dentries x.2).mountPoint = false) :
    Wf { v with dentries := update v.dentries d e } := by
  have hmp : ∀ x, (update v.dentries d e x).mountPoint = (v.dentries x).mountPoint := by
    intro x
    by_cases hx : x = d
    · rw [hx, update_self, hm]
    · rw [update_of_ne hx]
  refine ⟨fun a ha => ?_, fun a ha x hx => (hmp _).trans ?_, h.inode,
    fun x hx => ⟨(h.dcache x hx).1, (hmp _).trans (h.dcache x hx).2⟩, h.drives⟩
  · by_cases had : a = d
    · simpa only [had, update_self] using he (had ▸ ha)
    · simpa only [update_of_ne had] using h.dentry a ha
  · by_cases had : a = d
    · exact hc (had ▸ ha) x (by simpa only [had, update_self] using hx)
    · exact h.plain a ha x (by simpa only [update_of_ne had] using hx)

theorem Wf.push (he : e.Ok (v.nextDentry + 1) v.nextInode) (hc : e.children = []) : Wf { v with
      dentries := update v.dentries v.nextDentry e
      nextDentry := v.nextDentry + 1 } := by
  have hold : ∀ x < v.nextDentry, update v.dentries v.nextDentry e x = v.dentries x :=
    fun x hx => update_of_ne hx.ne _ _
  refine ⟨fun a ha => ?_, fun a ha x hx => ?_, h.inode, fun x hx => ?_, fun x hx =>
    ⟨(h.drives x hx).1.trans (Nat.lt_succ_self _), (h.drives x hx).2⟩⟩
  · obtain hlt | rfl := Nat.lt_succ_iff_lt_or_eq.mp ha
    · simpa only [hold a hlt] using (h.dentry a hlt).mono (Nat.le_succ _) le_rfl
    · simpa only [update_self] using he
  · obtain hlt | rfl := Nat.lt_succ_iff_lt_or_eq.mp ha
    · have hx' : x ∈ (v.dentries a).children := by simpa only [hold a hlt] using hx
      have hlt' := (h.dentry a hlt).child_lt x hx'
      simpa only [hold x.2 hlt'] using h.plain a hlt x hx'
    · simp only [update_self, hc] at hx
      cases hx
  · obtain ⟨hlt, hm⟩ := h.dcache x hx
    exact ⟨hlt.trans (Nat.lt_succ_self _), by simpa only [hold x.2 hlt] using hm⟩

theorem Wf.setDcache {cache : List ((ℕ × Str) × ℕ)}
    (hc : ∀ x ∈ cache, x ∈ v.dcache ∨ (x.2 < v.nextDentry ∧ (v.dentries x.2).mountPoint = false)) :
    Wf { v with dcache := cache } :=
  ⟨h.dentry, h.plain, h.inode, fun x hx => (hc x hx).elim (h.dcache x) id, h.drives⟩

theorem Wf.setInodes {inodes : ℕ → Inode} {nextIno : ℕ} {used : ℕ → ℕ}
    (hn : v.nextInode ≤ n) (hi : ∀ i < n, (inodes i).Ok n) :
    Wf { v with inodes := inodes, nextInode := n, nextIno := nextIno, used := used } :=
  ⟨fun d hd => (h.dentry d hd).mono le_rfl hn, h.plain, hi, h.dcache, h.drives⟩

omit h in
theorem mem_dcacheInsert {cache : List ((ℕ × Str) × ℕ)} {key : ℕ × Str} {x : (ℕ × Str) × ℕ}
    (hx : x ∈ dcacheInsert cache key c) : (x ∈ cache ∧ x.1 ≠ key) ∨ x = (key, c) := by
  simp only [dcacheInsert, mem_append, mem_filter, mem_singleton] at hx
  refine hx.imp_left fun hx => ⟨?_, of_decide_eq_true hx.2⟩
  split at hx
  · exact mem_of_mem_tail hx.1
  · exact hx.1

theorem Wf.insert (hc : c < v.nextDentry) (hm : (v.dentries c).mountPoint = false)
    (key : ℕ × Str) : Wf { v with dcache := dcacheInsert v.dcache key c } :=
  h.setDcache fun x hx => (mem_dcacheInsert hx).imp And.left fun hx => by
    subst hx
    exact ⟨hc, hm⟩

theorem Wf.evict (ino : ℕ) (name : Str) : (v.evict ino name).Wf :=
  h.setDcache fun _ hx => .inl (mem_filter.mp hx).1

theorem Wf.expire (c : ℕ) : (v.expire c).Wf :=
  h.setDcache fun _ hx => .inl (mem_filter.mp hx).1

variable (hd : d < v.nextDentry)
include hd

theorem Wf.setChildren {children : List (Str × ℕ)}
    (hc : ∀ x ∈ children, x.2 < v.nextDentry ∧ (v.dentries x.2).mountPoint = false) :
    Wf { v with dentries := update v.dentries d { v.dentries d with children } } :=
  have hok := h.dentry d hd
  h.setDentry (fun _ => ⟨hok.inode_lt, hok.parent_lt, fun x hx => (hc x hx).1, hok.mountId_ne⟩) rfl
    fun _ x hx => (hc x hx).2

theorem Wf.child_ok {x : Str × ℕ} (hx : x ∈ (v.dentries d).children) :
    x.2 < v.nextDentry ∧ (v.dentries x.2).mountPoint = false :=
  ⟨(h.dentry d hd).child_lt x hx, h.plain d hd x hx⟩

theorem Wf.addChild (hc : c < v.nextDentry)
    (hm : (v.dentries c).mountPoint = false) (name : Str) : (v.addChild d name c).Wf :=
  h.setChildren hd fun x hx => by
    obtain rfl | hx := mem_cons.mp hx
    · exact ⟨hc, hm⟩
    · exact h.child_ok hd hx

theorem Wf.setChild (hc : c < v.nextDentry)
    (hm : (v.dentries c).mountPoint = false) (name : Str) : (v.setChild d name c).Wf :=
  h.setChildren hd fun x hx => by
    obtain rfl | hx := mem_cons.mp hx
    · exact ⟨hc, hm⟩
    · exact h.child_ok hd (mem_filter.mp hx).1

theorem Wf.dropChild (name : Str) : (v.dropChild d name).Wf :=
  h.setChildren hd fun _ hx => h.child_ok hd (mem_filter.mp hx).1

omit hd

theorem Wf.setInode (hc : c < v.nextDentry) {o : Option ℕ}
    (ho : ∀ i, o = some i → i < v.nextInode) : (v.setInode c o).Wf :=
  have hok := h.dentry c hc
  h.setDentry (fun _ => ⟨ho, hok.parent_lt, hok.child_lt, hok.mountId_ne⟩) rfl (h.plain c)

theorem Wf.orphan (d : ℕ) : (v.orphan d).Wf :=
  h.setDentry (fun hd => have hok := h.dentry d hd
    ⟨hok.inode_lt, nofun, hok.child_lt, hok.mountId_ne⟩) rfl (h.plain d)

/-! ## Walks -/

omit h

/-- What a walk leaves alone: the file systems, the drives, and what the dentries there were stand
for. -/
structure Grows (v v' : Vfs) : Prop where
  inodes : v'.inodes = v.inodes
  nextInode : v'.nextInode = v.nextInode
  nextIno : v'.nextIno = v.nextIno
  drives : v'.drives = v.drives
  next_le : v.nextDentry ≤ v'.nextDentry
  inode : ∀ d < v.nextDentry, (v'.dentries d).inode = (v.dentries d).inode

theorem Grows.refl (v : Vfs) : Grows v v := ⟨rfl, rfl, rfl, rfl, le_rfl, fun _ _ => rfl⟩

theorem Grows.trans {v1 v2 v3 : Vfs} (h : Grows v1 v2) (h' : Grows v2 v3) : Grows v1 v3 :=
  ⟨h'.inodes.trans h.inodes, h'.nextInode.trans h.nextInode, h'.nextIno.trans h.nextIno,
    h'.drives.trans h.drives, h.next_le.trans h'.next_le,
    fun d hd => (h'.inode d (hd.trans_le h.next_le)).trans (h.inode d hd)⟩

theorem inode_setChildren (v : Vfs) (d : ℕ) (children : List (Str × ℕ)) (a : ℕ) :
    (update v.dentries d { v.dentries d with children } a).inode
      = (v.dentries a).inode := by
  by_cases ha : a = d
  · rw [ha, update_self]
  · rw [update_of_ne ha]

theorem mountPoint_setChildren (v : Vfs) (d : ℕ) (children : List (Str × ℕ)) (a : ℕ) :
    (update v.dentries d { v.dentries d with children } a).mountPoint
      = (v.dentries a).mountPoint := by
  by_cases ha : a = d
  · rw [ha, update_self]
  · rw [update_of_ne ha]

theorem grows_addChild (v : Vfs) (d : ℕ) (name : Str) (c : ℕ) : Grows v (v.addChild d name c) :=
  ⟨rfl, rfl, rfl, rfl, le_rfl, fun a _ => inode_setChildren v d _ a⟩

theorem grows_newDentry (v : Vfs) (d : ℕ) (name : Str) (j : ℕ) :
    Grows v (v.newDentry d name j).2 := by
  refine ⟨rfl, rfl, rfl, rfl, Nat.le_succ _, fun a ha => ?_⟩
  refine (inode_setChildren _ d _ a).trans ?_
  exact congrArg Dentry.inode (update_of_ne ha.ne _ _)

theorem Wf.pushChild (h : v.Wf) (hd : d < v.nextDentry) (hj : j < v.nextInode) :
    let dentries := update v.dentries v.nextDentry
      ⟨some j, some d, [], false, (v.dentries d).mountId⟩
    Wf { v with dentries, nextDentry := v.nextDentry + 1 } ∧
      (dentries v.nextDentry).mountPoint = false :=
  ⟨h.push ⟨fun i hi => Option.some.inj hi ▸ hj,
    fun p hp => Option.some.inj hp ▸ hd.trans (Nat.lt_succ_self _),
    fun x hx => absurd hx not_mem_nil, (h.dentry d hd).mountId_ne⟩ rfl, by rw [update_self]⟩

theorem Wf.newDentry (h : v.Wf) (hd : d < v.nextDentry) (hj : j < v.nextInode) (name : Str) :
    (v.newDentry d name j).2.Wf := by
  obtain ⟨hpush, hplain⟩ := h.pushChild hd hj
  exact (hpush.insert (Nat.lt_succ_self _) hplain (v.cacheIno d, name)).addChild
    (hd.trans (Nat.lt_succ_self _)) (Nat.lt_succ_self _) hplain name

theorem plain_newDentry (v : Vfs) (hd : d < v.nextDentry) (name : Str) (j : ℕ) :
    ((v.newDentry d name j).2.dentries v.nextDentry) =
      ⟨some j, some d, [], false, (v.dentries d).mountId⟩ :=
  (update_of_ne hd.ne' _ _).trans (update_self _ _ _)

theorem child_eq_ok (h : v.child d name = .ok (c, v')) :
    ((v.dentries d).children.lookup name = some c ∧ v' = v) ∨
      (v.dcache.lookup (v.cacheIno d, name) = some c ∧ (v.dentries c).inode ≠ none ∧
        v' = v.addChild d name c) ∨
      ∃ i j, (v.dentries d).inode = some i ∧ (v.inodes i).lookup name = .ok j ∧
        c = v.nextDentry ∧ v' = (v.newDentry d name j).2 := by
  unfold child at h
  split at h
  next b hb =>
    cases h
    exact .inl ⟨hb, rfl⟩
  next =>
    split at h
    next b hb =>
      split_ifs at h with hneg
      cases h
      exact .inr (.inl ⟨hb, hneg, rfl⟩)
    next =>
      split at h
      · cases h
      rename_i i hi
      obtain ⟨j, hl, ⟨⟩⟩ := map_eq_ok.mp h
      exact .inr (.inr ⟨i, j, hi, hl, rfl, rfl⟩)

theorem Wf.lookup_child (h : v.Wf) (hd : d < v.nextDentry)
    (hc : (v.dentries d).children.lookup name = some c) :
    c < v.nextDentry ∧ (v.dentries c).mountPoint = false :=
  h.child_ok hd (mem_of_lookup hc)

theorem Wf.child (h : v.Wf) (hd : d < v.nextDentry) (hc : v.child d name = .ok (c, v')) :
    v'.Wf ∧ Grows v v' ∧ c < v'.nextDentry ∧ (v'.dentries c).mountPoint = false := by
  obtain ⟨hb, rfl⟩ | ⟨hb, -, rfl⟩ | ⟨i, j, hi, hj, rfl, rfl⟩ := child_eq_ok hc
  · obtain ⟨hlt, hm⟩ := h.lookup_child hd hb
    exact ⟨h, .refl _, hlt, hm⟩
  · obtain ⟨hlt, hm⟩ := h.dcache _ (mem_of_lookup hb)
    have hwf := h.addChild hd hlt hm name
    exact ⟨hwf, grows_addChild v d name c, hlt, hwf.plain d hd (name, c) (by simp [Vfs.addChild])⟩
  · have hjlt := (h.inode i ((h.dentry d hd).inode_lt i hi)).lookup_lt hj
    exact ⟨h.newDentry hd hjlt name, grows_newDentry v d name j, Nat.lt_succ_self _,
      congrArg Dentry.mountPoint (plain_newDentry v hd name j)⟩

theorem Wf.up_lt (h : v.Wf) (hd : d < v.nextDentry) : v.up d < v.nextDentry := by
  unfold up
  split
  next p hp => exact (h.dentry d hd).parent_lt p hp
  next =>
    split
    next m hm =>
      obtain ⟨x, hx, rfl⟩ := mem_map.mp (mem_of_find?_eq_some hm)
      rw [(h.drives x hx).2]
      exact hd
    next => exact hd

theorem Wf.drive_lt (h : v.Wf) {letter : Char} {m : DriveMount} (hm : v.drive letter = some m) :
    m.root < v.nextDentry :=
  (h.drives _ (mem_of_lookup hm)).1

theorem Wf.mountById_lt (h : v.Wf) {id : ℕ} {m : DriveMount} (hm : v.mountById id = some m) :
    m.root < v.nextDentry := by
  obtain ⟨x, hx, rfl⟩ := mem_map.mp (mem_of_find?_eq_some hm)
  exact (h.drives x hx).1

theorem Wf.linkParent_lt (h : v.Wf) (hd : d < v.nextDentry) {p : ℕ}
    (hp : v.linkParent d = .ok p) : p < v.nextDentry := by
  unfold linkParent at hp
  split at hp
  next q hq =>
    cases hp
    exact (h.dentry d hd).parent_lt _ hq
  next => cases hp

theorem Wf.linkBase_lt (h : v.Wf) (hd : d < v.nextDentry) {target : Str} {r : ℕ × List Str}
    (hr : v.linkBase d target = .ok r) : r.1 < v.nextDentry := by
  have hparent : ∀ {r}, (v.linkParent d).map (fun p => (p, splitComponents target)) = .ok r →
      r.1 < v.nextDentry := by
    intro r hr
    obtain ⟨p, hp, ⟨⟩⟩ := map_eq_ok.mp hr
    exact h.linkParent_lt hd hp
  unfold linkBase at hr
  split at hr
  next letter inner _ =>
    split at hr
    next m hm =>
      cases hr
      exact h.drive_lt hm
    next => cases hr
  next =>
    split_ifs at hr
    · split at hr
      next m hm =>
        cases hr
        exact h.mountById_lt hm
      next => exact hparent hr
    · exact hparent hr

/-- The dentry a part of a walk ends at. -/
def Walked.stop : Walked → ℕ
  | .arrived d => d
  | .follow base _ => base

theorem crossMount_of_plain (h : (v.dentries d).mountPoint = false) : v.crossMount d = d := by
  rw [crossMount]
  simp [h]

section Keeps

variable {P : Vfs → Prop}
  (hchild : ∀ {v d name c v'}, v.Wf → P v → d < v.nextDentry → v.child d name = .ok (c, v') → P v')

include hchild

/-- What looking up one name keeps, a walk keeps: up to the first link… -/
theorem Wf.walkPlain_keeps {links : ℕ} {w : Walked} : ∀ {components : List Str} {v : Vfs} {d : ℕ},
    v.Wf → P v → d < v.nextDentry → walkPlain links v d components = .ok (w, v') →
      v'.Wf ∧ P v' ∧ Grows v v' ∧ w.stop < v'.nextDentry
  | [], v, d, h, hP, hd, hw => by
    cases hw
    exact ⟨h, hP, .refl _, hd⟩
  | name :: rest, v, d, h, hP, hd, hw => by
    unfold Vfs.walkPlain at hw
    split at hw
    next => exact Wf.walkPlain_keeps h hP hd hw
    next =>
      split at hw
      next => exact Wf.walkPlain_keeps h hP (h.up_lt hd) hw
      next =>
        split at hw
        · cases hw
        rename_i c v1 hc
        obtain ⟨h1, hg, hlt, hm⟩ := h.child hd hc
        have hP1 := hchild h hP hd hc
        simp only [crossMount_of_plain hm] at hw
        split at hw
        next i _ hi =>
          -- a link: its target starts at a
          split_ifs at hw
          split at hw
          · cases hw
          split_ifs at hw
          obtain ⟨r, hb, ⟨⟩⟩ := map_eq_ok.mp hw
          exact ⟨h1, hP1, hg, h1.linkBase_lt hlt hb⟩
        next =>
          obtain ⟨h2, hP2, hg2, hlt2⟩ := Wf.walkPlain_keeps h1 hP1 hlt hw
          exact ⟨h2, hP2, hg.trans hg2, hlt2⟩

/-- …and to its end. -/
theorem Wf.walkInner_keeps : ∀ {links : ℕ} {v : Vfs} {d : ℕ} {components : List Str},
    v.Wf → P v → d < v.nextDentry → walkInner links v d components = .ok (c, v') →
      v'.Wf ∧ P v' ∧ Grows v v' ∧ c < v'.nextDentry := by
  intro links
  induction links with
  | zero =>
    intro v d components h hP hd hw
    unfold Vfs.walkInner at hw
    split at hw
    next => cases hw
    next hp =>
      cases hw
      exact h.walkPlain_keeps hchild hP hd hp
    next => cases hw
  | succ links ih =>
    intro v d components h hP hd hw
    unfold Vfs.walkInner at hw
    split at hw
    next => cases hw
    next hp =>
      cases hw
      exact h.walkPlain_keeps hchild hP hd hp
    next base rest v1 hp =>
      obtain ⟨h1, hP1, hg1, hlt⟩ := h.walkPlain_keeps hchild hP hd hp
      obtain ⟨h2, hP2, hg2, hlt2⟩ := ih h1 hP1 hlt hw
      exact ⟨h2, hP2, hg1.trans hg2, hlt2⟩

end Keeps

/-- **A walk keeps every reference good and ends at a dentry that is there.** -/
theorem Wf.walkInner {links : ℕ} {components : List Str} (h : v.Wf) (hd : d < v.nextDentry)
    (hw : walkInner links v d components = .ok (c, v')) :
    v'.Wf ∧ Grows v v' ∧ c < v'.nextDentry := by
  obtain ⟨h', -, hg, hc⟩ := h.walkInner_keeps (P := fun _ => True) (fun _ _ _ _ => trivial) trivial
    hd hw
  exact ⟨h', hg, hc⟩

end Vfs

end Bedrock
