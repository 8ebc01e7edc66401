import Bedrock.Lib.NameCache
import Bedrock.Vfs.Reachable

/-!
# Vfs/Coherent — names that the dentries remember

A walk asks the children of a dentry, then the global cache under the number of the directory's
inode, and only then the directory.  The first two are filled by walks and by the calls that make a
name; `Cached v i n c` says that one of them remembers dentry `c` for name `n` of directory `i`:

    children(d) ∋ (n, c)  with  inode(d) = i          dcache ∋ ((ino(i), n), c)

While everything remembered is so, a walk along names finds what the directories say.
-/

namespace Bedrock.Vfs

open Function List

variable {v v' : Vfs} {d d' c i i' j : ℕ} {name old new : Str}

/-! ## What is remembered -/

/-- What each directory calls by each name: `lookup`. -/
def look (v : Vfs) : Names ℕ Str := fun i name => ((v.inodes i).lookup name).toOption

theorem look_eq_some : v.look i name = some j ↔ (v.inodes i).lookup name = .ok j := by
  unfold look
  cases (v.inodes i).lookup name with
  | error e => exact ⟨nofun, nofun⟩
  | ok a => exact ⟨fun h => congrArg _ (Option.some.inj h), fun h => congrArg _ (Except.ok.inj h)⟩

/-- A dentry of directory `i` has child `c` by this name. -/
def Kid (v : Vfs) (d i : ℕ) (name : Str) (c : ℕ) : Prop :=
  d < v.nextDentry ∧ (v.dentries d).inode = some i ∧ (name, c) ∈ (v.dentries d).children

/-- Dentry `c` is remembered for a name of directory `i`. -/
def Cached (v : Vfs) (i : ℕ) (name : Str) (c : ℕ) : Prop :=
  i < v.nextInode ∧ ((∃ d, v.Kid d i name c) ∨ (((v.inodes i).ino, name), c) ∈ v.dcache)

/-- What a dentry stands for. -/
def holds (v : Vfs) (c : ℕ) : Option ℕ := (v.dentries c).inode

/-- **Everything remembered is so**: the cache is faithful to the directories, whose inodes have
numbers of their own, and no directory names an inode of another file system. -/
structure Coherent (v : Vfs) : Prop where
  wf : v.Wf
  faithful : Names.Faithful v.look v.Cached v.holds
  ino_inj : ∀ i < v.nextInode, ∀ j < v.nextInode, (v.inodes i).ino = (v.inodes j).ino → i = j
  ino_lt : ∀ i < v.nextInode, (v.inodes i).ino < v.nextIno
  one_lt : 1 < v.nextIno
  key : ∀ x ∈ v.dcache, ∃ i < v.nextInode, (v.inodes i).ino = x.1.1
  fs : ∀ i < v.nextInode, ∀ name j, v.look i name = some j → (v.inodes j).fs = (v.inodes i).fs

/-- The inodes there are keep their numbers and file systems. -/
structure SameInodes (v v' : Vfs) : Prop where
  nextInode : v'.nextInode = v.nextInode
  nextIno : v'.nextIno = v.nextIno
  ino : ∀ a, (v'.inodes a).ino = (v.inodes a).ino
  fs : ∀ a, (v'.inodes a).fs = (v.inodes a).fs

/-- What is left to see then: what is remembered, and what the directories say. -/
theorem Coherent.assemble (h : v.Coherent) (hs : SameInodes v v') (hwf : v'.Wf)
    (hf : Names.Faithful v'.look v'.Cached v'.holds)
    (hkey : ∀ x ∈ v'.dcache, ∃ i < v.nextInode, (v.inodes i).ino = x.1.1)
    (hlook : ∀ a < v.nextInode, ∀ n j, v'.look a n = some j →
      (v.inodes j).fs = (v.inodes a).fs) : v'.Coherent where
  wf := hwf
  faithful := hf
  ino_inj := by
    simp only [hs.ino, hs.nextInode]
    exact h.ino_inj
  ino_lt := by
    simp only [hs.ino, hs.nextInode, hs.nextIno]
    exact h.ino_lt
  one_lt := h.one_lt.trans_eq hs.nextIno.symm
  key := by
    simp only [hs.ino, hs.nextInode]
    exact hkey
  fs := by
    simp only [hs.fs, hs.nextInode]
    exact hlook

/-- Only dentries change. -/
structure SameFiles (v v' : Vfs) : Prop where
  inodes : v'.inodes = v.inodes
  nextInode : v'.nextInode = v.nextInode
  nextIno : v'.nextIno = v.nextIno

theorem SameFiles.look (h : SameFiles v v') : v'.look = v.look := by
  unfold Vfs.look
  rw [h.inodes]

theorem Coherent.sameFiles (h : v.Coherent) (hs : SameFiles v v') (hwf : v'.Wf)
    (hf : Names.Faithful v'.look v'.Cached v'.holds)
    (hkey : ∀ x ∈ v'.dcache, ∃ i < v.nextInode, (v.inodes i).ino = x.1.1) : v'.Coherent :=
  h.assemble ⟨hs.nextInode, hs.nextIno, fun _ => by rw [hs.inodes], fun _ => by rw [hs.inodes]⟩ hwf
    hf hkey fun a ha n j hj => h.fs a ha n j (by rwa [hs.look] at hj)

/-- A child of a dentry is remembered for its directory. -/
theorem Coherent.kid_cached (h : v.Coherent) (hk : v.Kid d i name c) : v.Cached i name c :=
  ⟨(h.wf.dentry d hk.1).inode_lt i hk.2.1, .inl ⟨d, hk⟩⟩

theorem Coherent.cached_lt (h : v.Coherent) (hc : v.Cached i name c) : c < v.nextDentry := by
  obtain ⟨d, hd, -, hmem⟩ | hmem := hc.2
  · exact (h.wf.dentry d hd).child_lt _ hmem
  · exact (h.wf.dcache _ hmem).1

theorem cacheIno_eq (hi : (v.dentries d).inode = some i) : v.cacheIno d = (v.inodes i).ino := by
  rw [cacheIno, hi]

/-! ## Walks -/

theorem Coherent.addChild (h : v.Coherent) (hd : d < v.nextDentry)
    (hc : ((v.cacheIno d, name), c) ∈ v.dcache) : (v.addChild d name c).Coherent := by
  obtain ⟨hlt, hm⟩ := h.wf.dcache _ hc
  refine h.sameFiles ⟨rfl, rfl, rfl⟩ (h.wf.addChild hd hlt hm name) ?_ h.key
  refine h.faithful.shrink fun i n b hb => ⟨?_, inode_setChildren v d _ b, rfl⟩
  obtain ⟨hi, ⟨a, ha, hai, hmem⟩ | hmem⟩ := hb
  · have hai' : (v.dentries a).inode = some i := (inode_setChildren v d _ a).symm.trans hai
    obtain rfl | had := eq_or_ne a d
    · have hmem' : (n, b) ∈ (name, c) :: (v.dentries a).children := by
        simpa only [Vfs.addChild, update_self] using hmem
      obtain heq | hmem' := mem_cons.mp hmem'
      · cases heq
        rw [cacheIno_eq hai'] at hc
        exact ⟨hi, .inr hc⟩
      · exact ⟨hi, .inl ⟨a, ha, hai', hmem'⟩⟩
    · refine ⟨hi, .inl ⟨a, ha, hai', ?_⟩⟩
      simpa only [Vfs.addChild, update_of_ne had] using hmem
  · exact ⟨hi, .inr hmem⟩

/-- A new dentry under the name of a child: what `newDentry` and `attach` have in common. -/
structure Hung (v v' : Vfs) (d i : ℕ) (name : Str) (j : ℕ) : Prop where
  files : SameFiles v v'
  next : v'.nextDentry = v.nextDentry + 1
  fresh : (v'.dentries v.nextDentry).inode = some j ∧ (v'.dentries v.nextDentry).children = []
  inode : ∀ a < v.nextDentry, (v'.dentries a).inode = (v.dentries a).inode
  children : ∀ a < v.nextDentry, ∀ x ∈ (v'.dentries a).children,
    x ∈ (v.dentries a).children ∨ a = d ∧ x = (name, v.nextDentry)
  dcache : ∀ x ∈ v'.dcache, x ∈ v.dcache ∨ x = (((v.inodes i).ino, name), v.nextDentry)

theorem Coherent.hung (h : v.Coherent) (hu : Hung v v' d i name j) (hwf : v'.Wf)
    (hd : d < v.nextDentry) (hi : (v.dentries d).inode = some i) (hj : v.look i name = some j) :
    v'.Coherent := by
  have hilt := (h.wf.dentry d hd).inode_lt i hi
  refine h.sameFiles hu.files hwf ?_ ?_
  · refine h.faithful.grow hu.fresh.1 ((congrFun₂ hu.files.look i name).trans hj) fun a n b hb => ?_
    -- what was remembered before is none of the new dentry
    have hold : v.Cached a n b → b ≠ v.nextDentry ∧ v.Cached a n b ∧ v'.holds b = v.holds b ∧
        v'.look a n = v.look a n := fun hb =>
      have hlt := h.cached_lt hb
      ⟨hlt.ne, hb, hu.inode b hlt, congrFun₂ hu.files.look a n⟩
    obtain ⟨ha, ⟨x, hx, hxa, hmem⟩ | hmem⟩ := hb
    · rw [hu.files.nextInode] at ha
      rw [hu.next] at hx
      obtain hx | rfl := Nat.lt_succ_iff_lt_or_eq.mp hx
      · have hxa' := (hu.inode x hx).symm.trans hxa
        obtain hmem | ⟨rfl, heq⟩ := hu.children x hx _ hmem
        · exact .inr (hold ⟨ha, .inl ⟨x, hx, hxa', hmem⟩⟩)
        · cases heq
          exact .inl ⟨Option.some.inj (hxa'.symm.trans hi), rfl, rfl⟩
      · rw [hu.fresh.2] at hmem
        cases hmem
    · rw [hu.files.nextInode] at ha
      rw [hu.files.inodes] at hmem
      obtain hmem | heq := hu.dcache _ hmem
      · exact .inr (hold ⟨ha, .inr hmem⟩)
      · obtain ⟨hkey, rfl⟩ := Prod.mk.inj heq
        obtain ⟨hino, rfl⟩ := Prod.mk.inj hkey
        exact .inl ⟨h.ino_inj a ha i hilt hino, rfl, rfl⟩
  · intro x hx
    obtain hx | rfl := hu.dcache x hx
    · exact h.key x hx
    · exact ⟨i, hilt, rfl⟩

theorem hung_newDentry (hd : d < v.nextDentry) (hi : (v.dentries d).inode = some i) (name : Str)
    (j : ℕ) : Hung v (v.newDentry d name j).2 d i name j := by
  have hfresh := plain_newDentry v hd name j
  refine ⟨⟨rfl, rfl, rfl⟩, rfl, ⟨congrArg Dentry.inode hfresh, congrArg Dentry.children hfresh⟩,
    (grows_newDentry v d name j).inode, fun a ha x hx => ?_, fun x hx => ?_⟩
  · obtain rfl | had := eq_or_ne a d
    · have hx' : x ∈ (name, v.nextDentry) :: (v.dentries a).children := by
        simpa only [newDentry, Vfs.addChild, update_self, update_of_ne ha.ne]
          using hx
      exact (mem_cons.mp hx').symm.imp_right fun heq => ⟨rfl, heq⟩
    · refine .inl ?_
      simpa only [newDentry, Vfs.addChild, update_of_ne had, update_of_ne ha.ne]
        using hx
  · rw [← cacheIno_eq hi]
    exact (mem_dcacheInsert hx).imp_left And.left

theorem hung_attach (hd : d < v.nextDentry) (hi : (v.dentries d).inode = some i) (name : Str)
    (j : ℕ) : Hung v (v.attach d name j) d i name j := by
  have hfresh : (v.attach d name j).dentries v.nextDentry
      = ⟨some j, some d, [], false, (v.dentries d).mountId⟩ :=
    (update_of_ne hd.ne' _ _).trans (update_self _ _ _)
  have hat : ∀ a < v.nextDentry, a ≠ d → (v.attach d name j).dentries a = v.dentries a :=
    fun a ha had => (update_of_ne had _ _).trans (update_of_ne ha.ne _ _)
  have hself : (v.attach d name j).dentries d = { v.dentries d with
      children := (name, v.nextDentry) :: (v.dentries d).children.filter fun e => e.1 ≠ name } := by
    simp only [attach, remember, setChild, update_self, update_of_ne hd.ne]
  refine ⟨⟨rfl, rfl, rfl⟩, rfl, ⟨congrArg Dentry.inode hfresh, congrArg Dentry.children hfresh⟩,
    fun a ha => ?_, fun a ha x hx => ?_, fun x hx => ?_⟩
  · by_cases had : a = d
    · rw [had, hself]
    · rw [hat a ha had]
  · obtain rfl | had := eq_or_ne a d
    · rw [hself] at hx
      refine (mem_cons.mp hx).symm.imp (fun hx => (mem_filter.mp hx).1) fun heq => ?_
      exact ⟨rfl, heq⟩
    · rw [hat a ha had] at hx
      exact .inl hx
  · have hino : ((v.attach d name j).cacheIno d) = (v.inodes i).ino := by
      refine cacheIno_eq ?_
      rw [hself]
      exact hi
    rw [← hino]
    exact (mem_dcacheInsert hx).imp_left And.left

/-- One name below a dentry keeps the cache coherent. -/
theorem Coherent.child (h : v.Coherent) (hd : d < v.nextDentry)
    (hc : v.child d name = .ok (c, v')) : v'.Coherent := by
  obtain ⟨-, rfl⟩ | ⟨hb, -, rfl⟩ | ⟨i, j, hi, hj, rfl, rfl⟩ := child_eq_ok hc
  · exact h
  · exact h.addChild hd (mem_of_lookup hb)
  · exact h.hung (hung_newDentry hd hi name j) (h.wf.child hd hc).1 hd hi (look_eq_some.mpr hj)

variable {links : ℕ} {children : List (Str × ℕ)}

/-- **A walk keeps the cache coherent.** -/
theorem Coherent.walkInner {components : List Str} (h : v.Coherent)
    (hd : d < v.nextDentry) (hw : Vfs.walkInner links v d components = .ok (c, v')) : v'.Coherent :=
  (h.wf.walkInner_keeps (fun _ h hd hc => h.child hd hc) h hd hw).2.1

/-! ## Walks along names -/

/-- A remembered dentry is found where the directory has the name. -/
theorem Coherent.cached_look (h : v.Coherent) (hc : v.Cached i name c)
    (hj : v.look i name = some j) : (v.dentries c).inode = some j := by
  obtain ⟨j', hval, hname⟩ := h.faithful.right hc
  exact hval.trans (hname.symm.trans hj)

/-- A name of the directory is found… -/
theorem Coherent.child_of_look (h : v.Coherent) (hd : d < v.nextDentry)
    (hi : (v.dentries d).inode = some i) (hj : v.look i name = some j) :
    ∃ c v', v.child d name = .ok (c, v') ∧ (v'.dentries c).inode = some j := by
  have hilt := (h.wf.dentry d hd).inode_lt i hi
  unfold Vfs.child
  split
  next c hc =>
    exact ⟨c, v, rfl, h.cached_look ⟨hilt, .inl ⟨d, hd, hi, mem_of_lookup hc⟩⟩ hj⟩
  next =>
    split
    next c hc =>
      rw [cacheIno_eq hi] at hc
      have hcj := h.cached_look ⟨hilt, .inr (mem_of_lookup hc)⟩ hj
      rw [if_neg (hcj ▸ nofun)]
      exact ⟨c, _, rfl, (inode_setChildren v d _ c).trans hcj⟩
    next =>
      rw [hi]
      simp only [look_eq_some.mp hj]
      exact ⟨_, _, rfl, congrArg Dentry.inode (plain_newDentry v hd name j)⟩

/-- …and no other name is. -/
theorem Coherent.child_of_not_look (h : v.Coherent) (hd : d < v.nextDentry)
    (hi : (v.dentries d).inode = some i) (hj : v.look i name = none) :
    ∃ e, v.child d name = .error e := by
  have hilt := (h.wf.dentry d hd).inode_lt i hi
  unfold Vfs.child
  split
  next c hc =>
    exact absurd (h.kid_cached ⟨hd, hi, mem_of_lookup hc⟩) (h.faithful.not_cached hj c)
  next =>
    split
    next c hc =>
      rw [cacheIno_eq hi] at hc
      exact absurd ⟨hilt, .inr (mem_of_lookup hc)⟩ (h.faithful.not_cached hj c)
    next =>
      rw [hi]
      cases hl : (v.inodes i).lookup name with
      | error e => exact ⟨e, by simp only [hl]; rfl⟩
      | ok j =>
        rw [look_eq_some.mpr hl] at hj
        cases hj

/-- A component that is the name of a file. -/
def IsName (name : Str) : Prop := name ≠ [] ∧ name ≠ ".".toList ∧ name ≠ "..".toList

instance (name : Str) : Decidable (IsName name) :=
  inferInstanceAs (Decidable (name ≠ [] ∧ name ≠ ".".toList ∧ name ≠ "..".toList))

/-- No name on the way leads to a link. -/
def NoLinks (v : Vfs) : ℕ → List Str → Prop
  | _, [] => True
  | i, name :: rest =>
    ∀ j, v.look i name = some j → (v.inodes j).fileType ≠ .symlink ∧ NoLinks v j rest

theorem noLinks_congr (hs : SameFiles v v') :
    ∀ {i : ℕ} {names : List Str}, NoLinks v i names → NoLinks v' i names
  | _, [], _ => trivial
  | i, name :: rest, h => fun j hj => by
    rw [hs.look] at hj
    rw [hs.inodes]
    exact ⟨(h j hj).1, noLinks_congr hs (h j hj).2⟩

theorem walkPlain_cons {rest : List Str} (hname : IsName name)
    (hc : v.child d name = .ok (c, v')) (hm : (v'.dentries c).mountPoint = false)
    (hft : v'.fileType c ≠ some .symlink) :
    Vfs.walkPlain links v d (name :: rest) = Vfs.walkPlain links v' c rest := by
  obtain ⟨hne, hdot, hup⟩ := hname
  rw [Vfs.walkPlain, if_neg (not_or.mpr ⟨hdot, hne⟩), if_neg hup, hc]
  simp only [crossMount_of_plain hm]
  split
  next heq _ => exact absurd heq hft
  next => rfl

theorem walkPlain_cons_error {rest : List Str} {e : VfsError} (hname : IsName name)
    (hc : v.child d name = .error e) : Vfs.walkPlain links v d (name :: rest) = .error e := by
  obtain ⟨hne, hdot, hup⟩ := hname
  rw [Vfs.walkPlain, if_neg (not_or.mpr ⟨hdot, hne⟩), if_neg hup, hc]

theorem Coherent.walkPlain_names (links : ℕ) : ∀ {names : List Str} {v : Vfs} {d i : ℕ},
    v.Coherent → d < v.nextDentry → (v.dentries d).inode = some i → (∀ n ∈ names, IsName n) →
    NoLinks v i names →
      (∀ j, v.look.follow i names = some j → ∃ c v',
        Vfs.walkPlain links v d names = .ok (.arrived c, v') ∧ (v'.dentries c).inode = some j) ∧
      (v.look.follow i names = none → ∃ e, Vfs.walkPlain links v d names = .error e)
  | [], v, d, i, _, _, hi, _, _ =>
    ⟨fun _ hj => ⟨d, v, rfl, hi.trans hj⟩, nofun⟩
  | name :: rest, v, d, i, h, hd, hi, hnames, hlinks => by
    have hname := hnames name mem_cons_self
    cases hj : v.look i name with
    | none =>
      obtain ⟨e, he⟩ := h.child_of_not_look hd hi hj
      refine ⟨fun j hf => ?_, fun _ => ⟨e, walkPlain_cons_error hname he⟩⟩
      rw [Names.follow, hj] at hf
      cases hf
    | some j =>
      obtain ⟨c, v1, hc, hcj⟩ := h.child_of_look hd hi hj
      obtain ⟨-, hg, hlt, hm⟩ := h.wf.child hd hc
      have hs : SameFiles v v1 := ⟨hg.inodes, hg.nextInode, hg.nextIno⟩
      have hft : v1.fileType c ≠ some .symlink := by
        rw [fileType, hcj, hg.inodes]
        exact fun heq => (hlinks j hj).1 (Option.some.inj heq)
      have ih := Coherent.walkPlain_names links (h.child hd hc) hlt hcj
        (fun n hn => hnames n (mem_cons_of_mem _ hn)) (noLinks_congr hs (hlinks j hj).2)
      rw [hs.look] at ih
      rw [Names.follow, hj, Option.bind_some, walkPlain_cons hname hc hm hft]
      exact ih

theorem Coherent.follow_fs (h : v.Coherent) : ∀ {names : List Str} {i : ℕ}, i < v.nextInode →
    ∀ j, v.look.follow i names = some j → (v.inodes j).fs = (v.inodes i).fs
  | [], _, _, _, hj => by
    cases hj
    rfl
  | name :: rest, i, hi, j, hj => by
    rw [Names.follow] at hj
    obtain ⟨a, ha, hj⟩ := Option.bind_eq_some_iff.mp hj
    have halt := (h.wf.inode i hi).lookup_lt (look_eq_some.mp ha)
    exact (h.follow_fs halt j hj).trans (h.fs i hi name a ha)

/-- **The cache cannot be seen**: from a dentry that stands for an inode, a walk along names that
passes no link succeeds exactly when the directories' own lookups do, with the same inode, which is
of the same file system. -/
def Transparent (v : Vfs) : Prop :=
  ∀ d i names, d < v.nextDentry → (v.dentries d).inode = some i → (∀ n ∈ names, IsName n) →
    NoLinks v i names →
      (v.walkInner symlinkMax d names).toOption.map (fun r => (r.2.dentries r.1).inode)
        = (v.look.follow i names).map some ∧
      ∀ j, v.look.follow i names = some j → (v.inodes j).fs = (v.inodes i).fs

theorem Coherent.transparent (h : v.Coherent) : v.Transparent := by
  intro d i names hd hi hnames hlinks
  refine ⟨?_, h.follow_fs ((h.wf.dentry d hd).inode_lt i hi)⟩
  obtain ⟨hsome, hnone⟩ := h.walkPlain_names symlinkMax hd hi hnames hlinks
  cases hf : v.look.follow i names with
  | none =>
    obtain ⟨e, he⟩ := hnone hf
    rw [Vfs.walkInner, he]
    rfl
  | some j =>
    obtain ⟨c, v', hw, hcj⟩ := hsome j hf
    rw [Vfs.walkInner, hw]
    simp only [Except.toOption, Option.map_some, hcj]

/-! ## Directories -/

theorem look_of_entries (hc : v.entries i = some children) (n : Str) :
    v.look i n = children.lookup n := by
  unfold look Inode.lookup
  rw [entries_eq_some.mp hc]
  simp only
  cases children.lookup n <;> rfl

theorem look_setEntries (v : Vfs) (i : ℕ) (children : List (Str × ℕ)) (a : ℕ) (n : Str) :
    (v.setEntries i children).look a n = if a = i then children.lookup n else v.look a n := by
  by_cases ha : a = i
  · rw [if_pos ha, ha]
    refine look_of_entries (entries_eq_some.mpr ?_) n
    simp only [setEntries, update_self]
  · rw [if_neg ha, look, look]
    simp only [setEntries, update_of_ne ha]

theorem sameInodes_setEntries (v : Vfs) (i : ℕ) (children : List (Str × ℕ)) :
    SameInodes v (v.setEntries i children) := by
  refine ⟨rfl, rfl, fun a => ?_, fun a => ?_⟩ <;>
  · by_cases ha : a = i
    · simp only [setEntries, ha, update_self]
    · simp only [setEntries, update_of_ne ha]

theorem SameInodes.trans {v1 v2 v3 : Vfs} (h : SameInodes v1 v2) (h' : SameInodes v2 v3) :
    SameInodes v1 v3 :=
  ⟨h'.nextInode.trans h.nextInode, h'.nextIno.trans h.nextIno, fun a => (h'.ino a).trans (h.ino a),
    fun a => (h'.fs a).trans (h.fs a)⟩

/-- Directories change, and no dentry does. -/
structure Relisted (v v' : Vfs) : Prop extends SameInodes v v' where
  dentries : v'.dentries = v.dentries
  nextDentry : v'.nextDentry = v.nextDentry
  dcache : v'.dcache = v.dcache

theorem Relisted.cached (h : Relisted v v') (a : ℕ) (n : Str) (b : ℕ) :
    v'.Cached a n b ↔ v.Cached a n b := by
  unfold Cached Kid
  rw [h.dentries, h.nextDentry, h.dcache, h.nextInode, h.ino]

theorem relisted_setEntries (v : Vfs) (i : ℕ) (children : List (Str × ℕ)) :
    Relisted v (v.setEntries i children) :=
  ⟨sameInodes_setEntries v i children, rfl, rfl, rfl⟩

theorem Coherent.relisted (h : v.Coherent) (hr : Relisted v v') (hwf : v'.Wf)
    (hkept : ∀ a n b, v.Cached a n b → v'.look a n = v.look a n)
    (hlook : ∀ a < v.nextInode, ∀ n j, v'.look a n = some j →
      (v.inodes j).fs = (v.inodes a).fs) : v'.Coherent := by
  refine h.assemble hr.toSameInodes hwf ?_ (by rw [hr.dcache]; exact h.key) hlook
  refine h.faithful.shrink fun a n b hb => ?_
  have hb' := (hr.cached a n b).mp hb
  exact ⟨hb', by rw [holds, holds, hr.dentries], hkept a n b hb'⟩

/-- No dentry is remembered for the name. -/
def Uncached (v : Vfs) (i : ℕ) (name : Str) : Prop :=
  (∀ d < v.nextDentry, (v.dentries d).inode = some i → ∀ x ∈ (v.dentries d).children, x.1 ≠ name) ∧
    ∀ x ∈ v.dcache, x.1 ≠ ((v.inodes i).ino, name)

theorem Uncached.not_cached (h : v.Uncached i name) (c : ℕ) : ¬ v.Cached i name c := by
  rintro ⟨-, ⟨d, hd, hdi, hmem⟩ | hmem⟩
  · exact h.1 d hd hdi _ hmem rfl
  · exact h.2 _ hmem rfl

/-- The name `old` of `i` becomes the name `new` of `i'`. -/
structure Moved (v v' : Vfs) (i : ℕ) (old : Str) (i' : ℕ) (new : Str) (j : ℕ) : Prop
    extends Relisted v v' where
  source : v.look i old = some j
  look : ∀ a n, v'.look a n =
    if a = i' ∧ n = new then some j else if a = i ∧ n = old then none else v.look a n

theorem rename_moved (h : v.rename i old new = .ok v') : ∃ j, Moved v v' i old i new j := by
  obtain ⟨children, j, hc, hj, rfl⟩ := rename_ok h
  refine ⟨j, relisted_setEntries v i _, (look_of_entries hc old).trans hj, fun a n => ?_⟩
  have hfilter : (children.filter fun e => e.1 ≠ old ∧ e.1 ≠ new)
      = (children.filter fun e => e.1 ≠ new).filter fun e => e.1 ≠ old := by
    rw [filter_filter]
    simp only [Bool.decide_and]
  rw [look_setEntries, lookup_cons_ite, hfilter, lookup_filter_ne, lookup_filter_ne]
  obtain rfl | ha := eq_or_ne a i
  · rw [look_of_entries hc]
    by_cases hn : n = new <;> by_cases ho : n = old <;> simp [hn, ho]
  · simp [ha]

theorem Coherent.renameAcross_moved (h : v.Coherent) (hi : i < v.nextInode) (hi' : i' < v.nextInode)
    (hr : v.renameAcross i i' old new = .ok v') :
    (v.inodes i).fs = (v.inodes i').fs ∧ ∃ j, Moved v v' i old i' new j := by
  obtain ⟨hfs, ⟨hino, hsame⟩ | ⟨hino, source, target, j, hs, ht, hj, rfl⟩⟩ := renameAcross_ok hr
  · obtain rfl := h.ino_inj i hi i' hi' hino
    exact ⟨hfs, rename_moved hsame⟩
  · have hne : i ≠ i' := fun heq => hino (by rw [heq])
    refine ⟨hfs, j, ⟨(sameInodes_setEntries v i _).trans (sameInodes_setEntries _ i' _), rfl, rfl,
      rfl⟩, (look_of_entries hs old).trans hj, fun a n => ?_⟩
    rw [look_setEntries, look_setEntries, lookup_cons_ite, lookup_filter_ne, lookup_filter_ne]
    obtain rfl | ha' := eq_or_ne a i'
    · rw [look_of_entries ht]
      by_cases hn : n = new <;> simp [hn, hne.symm]
    · obtain rfl | ha := eq_or_ne a i
      · rw [look_of_entries hs]
        by_cases ho : n = old <;> simp [ho, ha']
      · simp [ha, ha']

/-- A name of `i` is gone. -/
structure Unlisted (v v' : Vfs) (i : ℕ) (name : Str) : Prop extends Relisted v v' where
  look : ∀ a n, v'.look a n = if a = i ∧ n = name then none else v.look a n

theorem unlisted_setEntries (hc : v.entries i = some children) (name : Str) :
    Unlisted v (v.setEntries i (children.filter fun e => e.1 ≠ name)) i name := by
  refine ⟨relisted_setEntries v i _, fun a n => ?_⟩
  rw [look_setEntries, lookup_filter_ne]
  obtain rfl | ha := eq_or_ne a i
  · rw [look_of_entries hc]
    by_cases hn : n = name <;> simp [hn]
  · simp [ha]

theorem unlinkAt_unlisted (h : v.unlinkAt i name = .ok v') : Unlisted v v' i name := by
  obtain ⟨children, hc, -, rfl⟩ := unlinkAt_ok h
  exact unlisted_setEntries hc name

theorem Unlisted.look_fs (h : v.Coherent) (hu : Unlisted v v' i name) :
    ∀ a < v.nextInode, ∀ n j, v'.look a n = some j → (v.inodes j).fs = (v.inodes a).fs := by
  intro a ha n j hj
  rw [hu.look] at hj
  split_ifs at hj
  exact h.fs a ha n j hj

theorem Moved.look_fs (h : v.Coherent) (hi : i < v.nextInode)
    (hfs : (v.inodes i).fs = (v.inodes i').fs) (hm : Moved v v' i old i' new j) :
    ∀ a < v.nextInode, ∀ n b, v'.look a n = some b → (v.inodes b).fs = (v.inodes a).fs := by
  intro a ha n b hb
  rw [hm.look] at hb
  split_ifs at hb with hnew
  · cases hb
    rw [hnew.1, ← hfs]
    exact h.fs i hi old j hm.source
  · exact h.fs a ha n b hb

theorem Coherent.unlisted (h : v.Coherent) (hu : Unlisted v v' i name) (hwf : v'.Wf)
    (hc : v.Uncached i name) : v'.Coherent := by
  refine h.relisted hu.toRelisted hwf (fun a n b hb => ?_) (hu.look_fs h)
  rw [hu.look, if_neg]
  rintro ⟨rfl, rfl⟩
  exact hc.not_cached b hb

/-- Moving a name that nothing remembers to one that nothing remembers. -/
theorem Coherent.moved (h : v.Coherent) (hi : i < v.nextInode) (hm : Moved v v' i old i new j)
    (hwf : v'.Wf) (hold : v.Uncached i old) (hnew : v.Uncached i new) : v'.Coherent := by
  refine h.relisted hm.toRelisted hwf (fun a n b hb => ?_) (hm.look_fs h hi rfl)
  rw [hm.look, if_neg, if_neg]
  · rintro ⟨rfl, rfl⟩
    exact hold.not_cached b hb
  · rintro ⟨rfl, rfl⟩
    exact hnew.not_cached b hb

/-! ## New names -/

/-- A name more in a directory that has not got it, for an inode of the same file system. -/
theorem Coherent.list (h : v.Coherent)
    (hc : v.entries i = some children) (hnone : children.lookup name = none)
    (hfs : (v.inodes j).fs = (v.inodes i).fs) (hwf : (v.setEntries i ((name, j) :: children)).Wf) :
    (v.setEntries i ((name, j) :: children)).Coherent := by
  have hlook : ∀ a n, (v.setEntries i ((name, j) :: children)).look a n =
      if a = i ∧ n = name then some j else v.look a n := by
    intro a n
    rw [look_setEntries, lookup_cons_ite]
    obtain rfl | ha := eq_or_ne a i
    · rw [look_of_entries hc]
      by_cases hn : n = name <;> simp [hn]
    · simp [ha]
  refine h.relisted (relisted_setEntries v i _) hwf (fun a n b hb => ?_) fun a ha n b hb => ?_
  · rw [hlook, if_neg]
    rintro ⟨rfl, rfl⟩
    exact h.faithful.not_cached ((look_of_entries hc n).trans hnone) b hb
  · rw [hlook] at hb
    split_ifs at hb with hnew
    · cases hb
      rw [hnew.1, hfs]
    · exact h.fs a ha n b hb

/-- An inode more, with a number of its own and no names. -/
theorem Coherent.newInode (h : v.Coherent) {x : Inode} {nextIno : ℕ} {used : ℕ → ℕ}
    (hle : v.nextIno ≤ nextIno) (hlt : x.ino < nextIno)
    (hfresh : ∀ a < v.nextInode, (v.inodes a).ino ≠ x.ino)
    (hx : ∀ children, x.entry = .dir children → children = []) (hv : v' = { v with
      inodes := update v.inodes v.nextInode x
      nextInode := v.nextInode + 1
      nextIno := nextIno
      used := used })
    (hwf : v'.Wf) : v'.Coherent := by
  subst hv
  have hself : update v.inodes v.nextInode x v.nextInode = x := update_self _ _ _
  have hat : ∀ a < v.nextInode, update v.inodes v.nextInode x a = v.inodes a :=
    fun a ha => update_of_ne ha.ne _ _
  have hempty : ∀ n, (x.lookup n).toOption = none := by
    intro n
    unfold Inode.lookup
    cases hentry : x.entry with
    | dir children =>
      rw [hx children hentry]
      rfl
    | file | symlink target | fifo => rfl
  refine ⟨hwf, h.faithful.shrink fun a n b hb => ?_, fun a ha b hb hab => ?_, fun a ha => ?_,
    h.one_lt.trans_le hle, fun y hy => ?_, fun a ha n b hb => ?_⟩
  · obtain ⟨ha, hb⟩ := hb
    obtain hlt | rfl := Nat.lt_succ_iff_lt_or_eq.mp ha
    · simp only [hat a hlt] at hb
      exact ⟨⟨hlt, hb⟩, rfl, by simp only [look, hat a hlt]⟩
    · exfalso
      obtain ⟨d, hd, hdi, -⟩ | hmem := hb
      · exact lt_irrefl _ ((h.wf.dentry d hd).inode_lt _ hdi)
      · obtain ⟨a, halt, hkey⟩ := h.key _ hmem
        simp only [hself] at hkey
        exact hfresh a halt hkey
  · rcases Nat.lt_succ_iff_lt_or_eq.mp ha with hlt | rfl <;>
      obtain hlt' | rfl := Nat.lt_succ_iff_lt_or_eq.mp hb
    · simp only [hat a hlt, hat b hlt'] at hab
      exact h.ino_inj a hlt b hlt' hab
    · simp only [hat a hlt, hself] at hab
      exact absurd hab (hfresh a hlt)
    · simp only [hat b hlt', hself] at hab
      exact absurd hab.symm (hfresh b hlt')
    · rfl
  · obtain hlt | rfl := Nat.lt_succ_iff_lt_or_eq.mp ha
    · simp only [hat a hlt]
      exact (h.ino_lt a hlt).trans_le hle
    · simpa only [hself] using hlt
  · obtain ⟨a, halt, hkey⟩ := h.key y hy
    exact ⟨a, halt.trans (Nat.lt_succ_self _), by simp only [hat a halt, hkey]⟩
  · obtain hlt | rfl := Nat.lt_succ_iff_lt_or_eq.mp ha
    · simp only [look, hat a hlt] at hb
      have hblt := (h.wf.inode a hlt).lookup_lt (look_eq_some.mp hb)
      simp only [hat a hlt, hat b hblt]
      exact h.fs a hlt n b hb
    · simp only [look, hself, hempty] at hb
      cases hb

theorem Coherent.pushInode (h : v.Coherent) {x : Inode} (hino : x.ino = v.nextIno)
    (hx : ∀ children, x.entry = .dir children → children = []) : (v.pushInode x).Coherent :=
  h.newInode (Nat.le_succ _) (hino.trans_lt (Nat.lt_succ_self _))
    (fun a ha => ((h.ino_lt a ha).trans_eq hino.symm).ne) hx rfl (h.wf.pushInode hx)

theorem Coherent.addNew {fileType : FileType} {entry : TmpfsEntry} (h : v.Coherent)
    (hi : i < v.nextInode) (hn : v.addNew i name fileType entry = .ok v')
    (hx : ∀ children, entry = .dir children → children = []) : v'.Coherent := by
  have hwf := h.wf.addNew hi hn hx
  obtain ⟨children, hc, hnone, rfl⟩ := addNew_ok hn
  refine (h.pushInode rfl hx).list ?_ hnone ?_ hwf
  · refine entries_eq_some.mpr ?_
    exact (congrArg Inode.entry (update_of_ne hi.ne _ _)).trans (entries_eq_some.mp hc)
  · simp only [Vfs.pushInode, update_self, update_of_ne hi.ne]

theorem Coherent.setUsed (h : v.Coherent) (used : ℕ → ℕ) : Coherent { v with used := used } :=
  ⟨h.wf.setUsed used, h.faithful, h.ino_inj, h.ino_lt, h.one_lt, h.key, h.fs⟩

/-- What a method of a directory's object must not touch. -/
def invokeSafe (v : Vfs) (i : ℕ) : NameOp → Prop
  | .rename old new => v.Uncached i old ∧ v.Uncached i new
  | _ => True

/-- **The methods that make a name keep the cache coherent**, a rename if nothing remembers its
names. -/
theorem Coherent.invoke (h : v.Coherent) (hi : i < v.nextInode) {op : NameOp}
    (hop : v.invokeSafe i op) (hn : v.invoke i op = .ok v') : v'.Coherent := by
  have hwf := h.wf.invoke hi hn
  cases op with
  | create name
  | mkfifo name mode | mknod name mode dev => exact h.addNew hi hn fun _ hc => nomatch hc
  | mkdir name => exact h.addNew hi hn fun _ hc => (TmpfsEntry.dir.inj hc).symm
  | rename old new =>
    obtain ⟨j, hm⟩ := rename_moved hn
    exact h.moved hi hm hwf hop.1 hop.2
  | symlink name target =>
    obtain ⟨used, hn⟩ := symlink_ok hn
    exact (h.setUsed used).addNew hi hn fun _ hc => nomatch hc
  | link old new =>
    obtain ⟨children, j, hc, hj, hnone, rfl⟩ := link_ok hn
    exact h.list hc hnone (h.fs i hi old j ((look_of_entries hc old).trans hj)) hwf

end Bedrock.Vfs
