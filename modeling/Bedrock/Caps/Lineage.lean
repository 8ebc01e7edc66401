import Mathlib.Logic.Relation
import Bedrock.Lib.Run
import Bedrock.Caps.Grant

/-!
# Caps/Lineage — do ancestors keep covering their descendants?

A process hands its child a subset of its capabilities, a fork shares them, and what a creation
grants goes to the creator and up the durable lineage:

    root --spawn--▸ A --spawn--▸ T        caps(T) ⊆ caps(A) ⊆ caps(root)
                    ▴            |
                    └-autoGrants-┘        …still, if every set accepts all seventeen grants

`covering_of_clean` proves the inclusion for every state of a run in which the sets along the
lineage have room; an ancestor with a full set is overtaken by its child (`fullAncestor_overtaken`).
-/

namespace Bedrock

open Function List

/-- The tasks the scans reach, the durable map from processes to parents, and the last process
number handed out. -/
structure CapState where
  tasks : ℕ → Option CapTask
  lineage : ℕ → Option ℕ
  lastId : ℕ

namespace CapState

/-- Before the first task. -/
def init : CapState := ⟨fun _ => none, fun _ => none, 0⟩

/-! ## The lineage -/

/-- The loop of `lineage_chain`; the set of processes seen guards against cycles. -/
def lineageWalk (lineage : ℕ → Option ℕ) : ℕ → List ℕ → ℕ → List ℕ
  | 0, _, _ => []
  | fuel + 1, seen, pid =>
    if pid ∈ seen then []
    else
      match lineage pid with
      | none => []
      | some ppid =>
        if ppid = 0 then [] else ppid :: lineageWalk lineage fuel (pid :: seen) ppid

/-- `lineage_chain`: the ancestors, nearest first.  No process number exceeds the last one handed
out, so the walk ends within as many steps. -/
def lineageChain (s : CapState) (pid : ℕ) : List ℕ := lineageWalk s.lineage (s.lastId + 1) [] pid

/-- `lineage_gc`: entries stay for processes that still have a task, or wait for reclamation, and
for the ancestors of such. -/
def lineageGc (s : CapState) (reclaim : List ℕ) : CapState :=
  let live := (List.range (s.lastId + 1)).filter fun p => (s.tasks p).isSome || p ∈ reclaim
  let kept := fun k => k ∈ live || live.any fun p => k ∈ s.lineageChain p
  { s with lineage := fun k => if kept k then s.lineage k else none }

/-! ## Steps -/

/-- A new task under the next process number. -/
def enrol (s : CapState) (parent : ℕ) (t : CapTask) : CapState where
  tasks := update s.tasks (s.lastId + 1) (some t)
  lineage := update s.lineage (s.lastId + 1) (some parent)
  lastId := s.lastId + 1

/-- Apply a change to one task, if it is there. -/
def modify (tasks : ℕ → Option CapTask) (pid : ℕ) (f : CapTask → CapTask) : ℕ → Option CapTask :=
  update tasks pid ((tasks pid).map f)

/-- `propagate_cap_to_parents`: the running task first, then its ancestors.  `pageOk` says whether
a page can be had for the first capability of a task. -/
def propagateCapToParents (pid : ℕ) (pageOk : Cap → ℕ → Bool) (s : CapState) (cap : Cap) :
    CapState :=
  let own := modify s.tasks pid (ignoreError (grantToCurrent (pageOk cap pid) cap))
  { s with
    tasks := (s.lineageChain pid).foldl
      (fun tasks p => modify tasks p (ignoreError (grantCapToPid (pageOk cap p) cap))) own }

end CapState

/-- What changes the tasks or their capabilities. -/
inductive CapAction
  /-- A task without a parent: a kernel thread, or the first process with its initial set. -/
  | launch (vm : ℕ) (caps : Option (List Cap))
  | spawn (parent : ℕ) (provided : List Cap) (vm : ℕ)
  | fork (parent : ℕ) (o : Oracle)
  /-- A successful creation-like invocation by the running task. -/
  | create (pid : ℕ) (dir : List Str) (method name : Str) (o : Oracle) (pageOk : Cap → ℕ → Bool)
  /-- The task is consumed. -/
  | reap (pid : ℕ)
  | gc (reclaim : List ℕ)

/-- A set a process may start with. -/
def admissible (caps : List Cap) : Bool :=
  caps.all (fun c => validateCap c = .ok ()) && caps.length ≤ maxCapsPerTask

/-- One operation; a request that is refused leaves no trace and is no step. -/
def capStep (s : CapState) : CapAction → Option CapState
  | .launch vm caps => if caps.all admissible then some (s.enrol 0 ⟨vm, caps⟩) else none
  | .spawn parent provided vm =>
    match s.tasks parent with
    | none => none
    | some p =>
      if admissible provided ∧ p.current.all (isSubset · provided) then
        some (s.enrol parent ⟨vm, if provided = [] then none else some provided⟩)
      else none
  | .fork parent o =>
    match s.tasks parent with
    | none => none
    | some p =>
      -- the child's address-space index is never stored
      if p.vm ≠ 0 ∧ checkPathOn o p.current [procName, selfName] (some "fork".toList) .rw = .ok ()
      then some (s.enrol parent ⟨0, p.caps⟩)
      else none
  | .create pid dir method name o pageOk =>
    match s.tasks pid with
    | none => none
    | some t =>
      if method ∈ createLike ∧ checkPathOn o t.current dir (some method) .rw = .ok () then
        some ((autoGrants dir name).foldl (CapState.propagateCapToParents pid pageOk) s)
      else none
  | .reap pid => some { s with tasks := update s.tasks pid none }
  | .gc reclaim => some (s.lineageGc reclaim)

/-! ## The property -/

/-- Covering of what the checks see: the bypass covers everything, and only it covers a bypass. -/
def Covers : Option (List Cap) → Option (List Cap) → Prop
  | none, _ => True
  | some _, none => False
  | some a, some b => isSubset a b = true

/-- Every live ancestor's capabilities cover the descendant's. -/
def Covering (s : CapState) : Prop :=
  ∀ pid ancestor t u, s.tasks pid = some t → s.tasks ancestor = some u →
    ancestor ∈ s.lineageChain pid → Covers u.current t.current

/-- The condition on a step.  A spawn is checked against a set, and does not get the index that
marks a kernel task together with an empty set; a creation finds every live ancestor's set ready to
take all its grants. -/
def CleanGrant (s : CapState) : CapAction → Prop
  | .spawn parent provided vm =>
    (∀ p, s.tasks parent = some p → p.current ≠ none) ∧ (provided = [] → vm ≠ 0)
  | .create pid dir _ name _ _ =>
    ∀ p ∈ s.lineageChain pid, ∀ t l, s.tasks p = some t → t.caps = some l →
      Accepts (autoGrants dir name) l
  | _ => True

/-! ## Ancestors

Process numbers grow along the lineage, so the walk never meets a process twice and its fuel is
enough: it lists exactly the ancestors. -/

namespace CapState

/-- One link of the lineage; process number zero stands for no parent. -/
def Parent (lineage : ℕ → Option ℕ) (pid ppid : ℕ) : Prop := lineage pid = some ppid ∧ ppid ≠ 0

/-- `Anc lineage pid p`: going up from `pid` one comes to `p`. -/
def Anc (lineage : ℕ → Option ℕ) : ℕ → ℕ → Prop := Relation.TransGen (Parent lineage)

/-- Parents come before their children. -/
def Decreasing (lineage : ℕ → Option ℕ) : Prop := ∀ pid ppid, lineage pid = some ppid → ppid < pid

variable {lineage : ℕ → Option ℕ} {fuel pid p : ℕ} {seen : List ℕ}

theorem Anc.lt (hdec : Decreasing lineage) (h : Anc lineage pid p) : p < pid := by
  induction h with
  | single hlink => exact hdec _ _ hlink.1
  | tail _ hlink ih => exact (hdec _ _ hlink.1).trans ih

theorem anc_of_mem_lineageWalk (h : p ∈ lineageWalk lineage fuel seen pid) : Anc lineage pid p := by
  induction fuel generalizing seen pid with
  | zero => cases h
  | succ fuel ih =>
    rw [lineageWalk] at h
    split_ifs at h with hseen
    · cases h
    cases hp : lineage pid with
    | none => simp [hp] at h
    | some ppid =>
      simp only [hp] at h
      split_ifs at h with hzero
      · cases h
      obtain rfl | h := mem_cons.mp h
      · exact .single ⟨hp, hzero⟩
      · exact .head ⟨hp, hzero⟩ (ih h)

/-- From a process that has not been passed, with fuel left, the walk reaches every ancestor. -/
theorem mem_lineageWalk_of_anc (hdec : Decreasing lineage) (h : Anc lineage pid p)
    (hfuel : pid < fuel) (hseen : ∀ q ∈ seen, pid < q) : p ∈ lineageWalk lineage fuel seen pid := by
  induction h using Relation.TransGen.head_induction_on generalizing fuel seen with
    obtain ⟨fuel, rfl⟩ := Nat.exists_eq_succ_of_ne_zero (Nat.ne_zero_of_lt hfuel)
  | @single pid hlink =>
    have hfresh : pid ∉ seen := fun hmem => (hseen pid hmem).false
    simp [lineageWalk, hfresh, hlink.1, hlink.2]
  | @head pid ppid hlink _ ih =>
    have hfresh : pid ∉ seen := fun hmem => (hseen pid hmem).false
    have hlt := hdec _ _ hlink.1
    have hseen' : ∀ q ∈ pid :: seen, ppid < q := by
      intro q hq
      obtain rfl | hq := mem_cons.mp hq
      · exact hlt
      · exact hlt.trans (hseen q hq)
    simp only [lineageWalk, hfresh, hlink.1, hlink.2]
    exact mem_cons_of_mem _ (ih (by omega) hseen')

/-- The walk goes down in process numbers. -/
theorem nodup_lineageWalk (hdec : Decreasing lineage) :
    (lineageWalk lineage fuel seen pid).Nodup := by
  induction fuel generalizing seen pid with
  | zero => exact nodup_nil
  | succ fuel ih =>
    rw [lineageWalk]
    split_ifs
    · exact nodup_nil
    cases hp : lineage pid with
    | none => exact nodup_nil
    | some ppid =>
      dsimp only
      split_ifs
      · exact nodup_nil
      · refine nodup_cons.mpr ⟨fun hmem => ?_, ih⟩
        exact ((anc_of_mem_lineageWalk hmem).lt hdec).false

variable {s : CapState}

/-- **The chain lists exactly the ancestors.** -/
theorem mem_lineageChain (hdec : Decreasing s.lineage) (hpid : pid ≤ s.lastId) :
    p ∈ s.lineageChain pid ↔ Anc s.lineage pid p :=
  ⟨anc_of_mem_lineageWalk, fun h => mem_lineageWalk_of_anc hdec h (by omega) (by simp)⟩

/-! ## What the grants of a creation do -/

theorem modify_apply (tasks : ℕ → Option CapTask) (f : CapTask → CapTask) (x : ℕ) :
    modify tasks p f x = if x = p then (tasks x).map f else tasks x := by
  obtain rfl | hx := eq_or_ne x p
  · simp [modify]
  · simp [modify, hx]

/-- Changing each task of a list without repetitions. -/
theorem foldl_modify_apply (f : ℕ → CapTask → CapTask) {chain : List ℕ} (hnd : chain.Nodup)
    (tasks : ℕ → Option CapTask) (x : ℕ) :
    chain.foldl (fun tasks p => modify tasks p (f p)) tasks x =
      if x ∈ chain then (tasks x).map (f x) else tasks x := by
  induction chain generalizing tasks with
  | nil => rfl
  | cons p chain ih =>
    obtain ⟨hp, hnd⟩ := nodup_cons.mp hnd
    rw [foldl_cons, ih hnd, modify_apply]
    obtain rfl | hx := eq_or_ne x p
    · simp [hp]
    · simp [hx]

/-- A task takes part in the grants of a creation: it is the creator or one of its ancestors. -/
def Granted (s : CapState) (pid x : ℕ) : Prop := x = pid ∨ x ∈ s.lineageChain pid

theorem propagate_tasks (hdec : Decreasing s.lineage) (pageOk : Cap → ℕ → Bool) (cap : Cap)
    (x : ℕ) : (propagateCapToParents pid pageOk s cap).tasks x =
      if x = pid then (s.tasks x).map (ignoreError (grantToCurrent (pageOk cap pid) cap))
      else if x ∈ s.lineageChain pid then
        (s.tasks x).map (ignoreError (grantCapToPid (pageOk cap x) cap))
      else s.tasks x := by
  have hself : pid ∉ s.lineageChain pid := fun hmem => ((anc_of_mem_lineageWalk hmem).lt hdec).false
  have hnd : (s.lineageChain pid).Nodup := nodup_lineageWalk hdec
  simp only [propagateCapToParents]
  rw [foldl_modify_apply (fun p => ignoreError (grantCapToPid (pageOk cap p) cap)) hnd,
    modify_apply]
  obtain rfl | hx := eq_or_ne x pid
  · simp [hself]
  · simp [hx]

section

variable (hdec : Decreasing s.lineage) (pageOk : Cap → ℕ → Bool) (g : List Cap)

include hdec

theorem grants_of_not_granted {x : ℕ} (hx : ¬Granted s pid x) :
    (g.foldl (propagateCapToParents pid pageOk) s).tasks x = s.tasks x := by
  induction g generalizing s with
  | nil => rfl
  | cons cap g ih =>
    have hstep : (propagateCapToParents pid pageOk s cap).tasks x = s.tasks x := by
      rw [Granted, not_or] at hx
      simp [propagate_tasks hdec, hx.1, hx.2]
    rw [foldl_cons, ih (s := propagateCapToParents pid pageOk s cap) hdec hx, hstep]

theorem grants_of_none {x : ℕ} (hx : s.tasks x = none) :
    (g.foldl (propagateCapToParents pid pageOk) s).tasks x = none := by
  induction g generalizing s with
  | nil => exact hx
  | cons cap g ih =>
    exact ih (s := propagateCapToParents pid pageOk s cap) hdec (by simp [propagate_tasks hdec, hx])

/-- A task on the chain that has a set of validated capabilities gets the grants in order. -/
theorem grants_of_set {x : ℕ} {t : CapTask} {l : List Cap} (hx : Granted s pid x)
    (ht : s.tasks x = some t) (hl : t.caps = some l) (hv : AllValid l) :
    (g.foldl (propagateCapToParents pid pageOk) s).tasks x =
      some { t with caps := some (grantSets g l) } := by
  induction g generalizing s t l with
  | nil => simp [ht, grantSets, ← hl]
  | cons cap g ih =>
    have hstep : (propagateCapToParents pid pageOk s cap).tasks x =
        some { t with caps := some (grantSet l cap) } := by
      rw [propagate_tasks hdec, ht]
      by_cases hself : x = pid
      · simp [hself, grantToCurrent_eq hl hv]
      · have hmem := hx.resolve_left hself
        simp [hself, hmem, grantCapToPid_eq hl]
    exact ih (s := propagateCapToParents pid pageOk s cap)
      (t := { t with caps := some (grantSet l cap) }) hdec hx hstep rfl (hv.grantSet cap)

theorem grants_valid (hv : ∀ x t, s.tasks x = some t → t.Valid) {x : ℕ} {t : CapTask}
    (ht : (g.foldl (propagateCapToParents pid pageOk) s).tasks x = some t) : t.Valid := by
  induction g generalizing s with
  | nil => exact hv x t ht
  | cons cap g ih =>
    refine ih (s := propagateCapToParents pid pageOk s cap) hdec (fun y u hu => ?_) ht
    rw [propagate_tasks hdec] at hu
    split_ifs at hu
    · obtain ⟨v, hy, rfl⟩ := Option.map_eq_some_iff.mp hu
      exact (hv y v hy).grantToCurrent _ cap
    · obtain ⟨v, hy, rfl⟩ := Option.map_eq_some_iff.mp hu
      exact (hv y v hy).grantCapToPid _ cap
    · exact hv y u hu

theorem grants_lineage (pid : ℕ) :
    (g.foldl (propagateCapToParents pid pageOk) s).lineage = s.lineage ∧
      (g.foldl (propagateCapToParents pid pageOk) s).lastId = s.lastId := by
  induction g generalizing s with
  | nil => exact ⟨rfl, rfl⟩
  | cons cap g ih => exact ih (s := propagateCapToParents pid pageOk s cap) hdec

theorem grants_lineageChain (pid x : ℕ) :
    (g.foldl (propagateCapToParents pid pageOk) s).lineageChain x = s.lineageChain x := by
  obtain ⟨hlineage, hid⟩ := grants_lineage hdec pageOk g pid
  rw [lineageChain, hlineage, hid, lineageChain]

end

/-! ## The invariant -/

/-- The lineage goes down in process numbers, sets are validated, and the live ancestors of a live
task have sets that cover what it has: nobody on a lineage bypasses the checks. -/
structure Lineal (s : CapState) : Prop where
  decreasing : Decreasing s.lineage
  live_le : ∀ p t, s.tasks p = some t → p ≤ s.lastId
  valid : ∀ p t, s.tasks p = some t → t.Valid
  covered : ∀ pid p t u, Anc s.lineage pid p → s.tasks pid = some t → s.tasks p = some u →
    ∃ a b, u.current = some a ∧ t.current = some b ∧ isSubset a b = true

theorem lineal_init : Lineal init where
  decreasing := by simp [Decreasing, init]
  live_le := by simp [init]
  valid := by simp [init]
  covered := by simp [init]

theorem Lineal.covering (h : Lineal s) : Covering s := by
  intro pid p t u ht hu hmem
  obtain ⟨a, b, ha, hb, hsub⟩ := h.covered pid p t u (anc_of_mem_lineageWalk hmem) ht hu
  rw [ha, hb]
  exact hsub

/-- A link of a process below the new one is an old link. -/
theorem anc_of_enrol (hdec : Decreasing lineage) {n : ℕ} {v : Option ℕ} (hlt : pid < n)
    (h : Anc (update lineage n v) pid p) : Anc lineage pid p := by
  induction h using Relation.TransGen.head_induction_on with
  | @single pid hlink =>
    rw [Parent, update_of_ne hlt.ne] at hlink
    exact .single hlink
  | @head pid ppid hlink _ ih =>
    rw [Parent, update_of_ne hlt.ne] at hlink
    exact .head hlink (ih ((hdec _ _ hlink.1).trans hlt))

/-- The ancestors of the new process are its parent and the parent's ancestors. -/
theorem anc_new (hdec : Decreasing lineage) {n parent : ℕ} (hlt : parent < n)
    (h : Anc (update lineage n (some parent)) n p) :
    parent ≠ 0 ∧ (p = parent ∨ Anc lineage parent p) := by
  obtain ⟨q, hlink, hrest⟩ := Relation.TransGen.head'_iff.mp h
  obtain ⟨hq, hzero⟩ := hlink
  rw [update_self, Option.some.injEq] at hq
  subst hq
  refine ⟨hzero, ?_⟩
  obtain rfl | hrest := Relation.reflTransGen_iff_eq_or_transGen.mp hrest
  · exact .inl rfl
  · exact .inr (anc_of_enrol hdec hlt hrest)

/-- **A new task keeps the invariant** when it has no parent or its parent's set covers its own. -/
theorem Lineal.enrol (h : Lineal s) {parent : ℕ} {t : CapTask} (ht : t.Valid)
    (hparent : parent = 0 ∨ ∃ p a b, s.tasks parent = some p ∧ p.current = some a ∧
      t.current = some b ∧ isSubset a b = true) : Lineal (s.enrol parent t) := by
  have hle : parent ≤ s.lastId := by
    obtain rfl | ⟨p, _, _, hp, -⟩ := hparent
    · exact Nat.zero_le _
    · exact h.live_le parent p hp
  refine ⟨?_, ?_, ?_, ?_⟩
  · intro pid ppid hlink
    simp only [CapState.enrol, update_apply] at hlink
    split_ifs at hlink with hpid
    · cases hlink
      omega
    · exact h.decreasing pid ppid hlink
  · intro p u hu
    simp only [CapState.enrol, update_apply] at hu ⊢
    split_ifs at hu with hp
    · omega
    · exact (h.live_le p u hu).trans (Nat.le_succ _)
  · intro p u hu
    simp only [CapState.enrol, update_apply] at hu
    split_ifs at hu with hp
    · exact Option.some.inj hu ▸ ht
    · exact h.valid p u hu
  · intro pid p u v hanc hu hv
    simp only [CapState.enrol, update_apply] at hu hv
    by_cases hpid : pid = s.lastId + 1
    · subst hpid
      rw [if_pos rfl, Option.some.injEq] at hu
      subst hu
      obtain ⟨hzero, hp⟩ := anc_new h.decreasing (Nat.lt_succ_of_le hle) hanc
      obtain ⟨w, a, b, hw, ha, hb, hsub⟩ := hparent.resolve_left hzero
      obtain rfl | hp := hp
      · rw [if_neg (by omega), hw, Option.some.injEq] at hv
        exact ⟨a, b, hv ▸ ha, hb, hsub⟩
      · have hlt := hp.lt h.decreasing
        rw [if_neg (by omega)] at hv
        obtain ⟨a', a'', ha', ha'', hsub'⟩ := h.covered parent p w v hp hw hv
        obtain rfl : a = a'' := Option.some.inj (ha.symm.trans ha'')
        exact ⟨a', b, ha', hb, isSubset_trans hsub' hsub⟩
    · rw [if_neg hpid] at hu
      have hle' := h.live_le pid u hu
      have hold := anc_of_enrol h.decreasing (Nat.lt_succ_of_le hle') hanc
      have hlt := hold.lt h.decreasing
      rw [if_neg (by omega)] at hv
      exact h.covered pid p u v hold hu hv

theorem Lineal.mono (h : Lineal s) {s' : CapState}
    (htasks : ∀ p t, s'.tasks p = some t → s.tasks p = some t)
    (hlinks : ∀ p q, s'.lineage p = some q → s.lineage p = some q) (hid : s'.lastId = s.lastId) :
    Lineal s' where
  decreasing p q hlink := h.decreasing p q (hlinks p q hlink)
  live_le p t ht := hid ▸ h.live_le p t (htasks p t ht)
  valid p t ht := h.valid p t (htasks p t ht)
  covered pid p t u hanc ht hu :=
    h.covered pid p t u
      (Relation.TransGen.mono (fun _ _ hlink => ⟨hlinks _ _ hlink.1, hlink.2⟩) _ _ hanc)
      (htasks pid t ht) (htasks p u hu)

theorem caps_of_current {t : CapTask} {a : List Cap} (h : t.current = some a) (hne : a ≠ []) :
    t.caps = some a := by
  unfold CapTask.current at h
  split at h
  · rename_i l hl
    rw [hl, h]
  · split_ifs at h
    exact absurd (Option.some.inj h).symm hne

theorem ne_nil_of_checkPathOn {o : Oracle} {a : List Cap} {dir : List Str} {method : Option Str}
    {want : Perm} (h : checkPathOn o (some a) dir method want = .ok ()) : a ≠ [] := by
  obtain ⟨_, -, -, -, hw⟩ := checkPathOn_eq_ok.mp h
  obtain ⟨c, hc, -⟩ := hasPermOn_iff.mp hw
  exact ne_nil_of_mem hc

theorem ne_nil_of_isSubset {a b : List Cap} (h : isSubset a b = true) (hb : b ≠ []) : a ≠ [] := by
  obtain ⟨c, hc⟩ := exists_mem_of_ne_nil b hb
  obtain ⟨d, hd, -⟩ := isSubset_iff.mp h c hc
  exact ne_nil_of_mem hd

section

variable {t : CapTask} {o : Oracle} {dir : List Str} {method : Option Str} {want : Perm}

/-- Whoever takes part in the grants of a creation and is subject to checks has a set: the creator
passed one, and its ancestors cover it. -/
theorem Lineal.caps_of_granted (h : Lineal s) (ht : s.tasks pid = some t)
    (hok : checkPathOn o t.current dir method want = .ok ()) {x : ℕ} {u : CapTask} {a : List Cap}
    (hx : Granted s pid x) (hu : s.tasks x = some u) (ha : u.current = some a) :
    u.caps = some a := by
  refine caps_of_current ha ?_
  obtain rfl | hx := hx
  · obtain rfl : t = u := Option.some.inj (ht.symm.trans hu)
    rw [ha] at hok
    exact ne_nil_of_checkPathOn hok
  · obtain ⟨a', b, ha', hb, hsub⟩ := h.covered pid x t u (anc_of_mem_lineageWalk hx) ht hu
    obtain rfl : a = a' := Option.some.inj (ha.symm.trans ha')
    rw [hb] at hok
    exact ne_nil_of_isSubset hsub (ne_nil_of_checkPathOn hok)

/-- **The grants of a creation keep the invariant** when the set of every live ancestor of the
creator accepts them. -/
theorem Lineal.grants (h : Lineal s) (ht : s.tasks pid = some t)
    (hok : checkPathOn o t.current dir method want = .ok ()) (pageOk : Cap → ℕ → Bool)
    (g : List Cap) (hacc : ∀ p ∈ s.lineageChain pid, ∀ u l, s.tasks p = some u →
      u.caps = some l → Accepts g l) : Lineal (g.foldl (propagateCapToParents pid pageOk) s) := by
  obtain ⟨hlineage, hid⟩ := grants_lineage h.decreasing pageOk g pid
  have hold : ∀ x u', (g.foldl (propagateCapToParents pid pageOk) s).tasks x = some u' →
      ∃ u, s.tasks x = some u := fun x u' hu' =>
    Option.ne_none_iff_exists'.mp fun hnone => by
      rw [grants_of_none h.decreasing pageOk g hnone] at hu'
      cases hu'
  -- the set of a task on the lineage after the grants, and what it covers
  have hset : ∀ x u u' a, s.tasks x = some u → u.current = some a →
      (g.foldl (propagateCapToParents pid pageOk) s).tasks x = some u' →
      (Granted s pid x → u'.current = some (grantSets g a)) ∧
        (¬Granted s pid x → u'.current = some a) := by
    intro x u u' a hu ha hu'
    refine ⟨fun hx => ?_, fun hx => ?_⟩
    · have hcaps := h.caps_of_granted ht hok hx hu ha
      rw [grants_of_set h.decreasing pageOk g hx hu hcaps (h.valid x u hu a hcaps)] at hu'
      exact Option.some.inj hu' ▸ rfl
    · rw [grants_of_not_granted h.decreasing pageOk g hx, hu] at hu'
      exact Option.some.inj hu' ▸ ha
  refine ⟨hlineage ▸ h.decreasing, fun x u' hu' => ?_, fun x u' => ?_, ?_⟩
  · obtain ⟨u, hu⟩ := hold x u' hu'
    exact hid ▸ h.live_le x u hu
  · exact grants_valid h.decreasing pageOk g h.valid
  · intro x y u' v' hanc hu' hv'
    rw [hlineage] at hanc
    obtain ⟨u, hu⟩ := hold x u' hu'
    obtain ⟨v, hv⟩ := hold y v' hv'
    obtain ⟨a, b, ha, hb, hsub⟩ := h.covered x y u v hanc hu hv
    obtain ⟨hx1, hx2⟩ := hset x u u' b hu hb hu'
    obtain ⟨hy1, hy2⟩ := hset y v v' a hv ha hv'
    have hchain : Granted s pid x → y ∈ s.lineageChain pid := by
      rw [mem_lineageChain h.decreasing (h.live_le pid t ht)]
      rintro (rfl | hx)
      · exact hanc
      · exact (anc_of_mem_lineageWalk hx).trans hanc
    by_cases hx : Granted s pid x
    · have hy := hchain hx
      have hcaps := h.caps_of_granted ht hok (.inr hy) hv ha
      exact ⟨_, _, hy1 (.inr hy), hx1 hx, isSubset_grantSets (hacc y hy v a hv hcaps) hsub⟩
    · by_cases hy : Granted s pid y
      · exact ⟨_, _, hy1 hy, hx2 hx, isSubset_trans (isSubset_grantSets_old g a) hsub⟩
      · exact ⟨_, _, hy2 hy, hx2 hx, hsub⟩

end

end CapState

open CapState

theorem allValid_of_admissible {l : List Cap} (h : admissible l = true) : AllValid l := by
  simp only [admissible, Bool.and_eq_true, all_eq_true, decide_eq_true_eq] at h
  exact h.1

section

variable {s s' : CapState}

theorem lineal_launch (h : Lineal s) {vm : ℕ} {caps : Option (List Cap)}
    (hs : capStep s (.launch vm caps) = some s') : Lineal s' := by
  obtain ⟨hcaps, ⟨⟩⟩ := Option.ite_none_right_eq_some.mp hs
  refine h.enrol (fun l hl => ?_) (.inl rfl)
  obtain rfl : caps = some l := hl
  exact allValid_of_admissible hcaps

theorem lineal_spawn (h : Lineal s) {parent vm : ℕ} {provided : List Cap}
    (hclean : CleanGrant s (.spawn parent provided vm))
    (hs : capStep s (.spawn parent provided vm) = some s') : Lineal s' := by
  simp only [capStep] at hs
  cases hp : s.tasks parent with
  | none => simp [hp] at hs
  | some p =>
    simp only [hp] at hs
    obtain ⟨⟨hadm, hsub⟩, ⟨⟩⟩ := Option.ite_none_right_eq_some.mp hs
    obtain ⟨a, ha⟩ := Option.ne_none_iff_exists'.mp (hclean.1 p hp)
    rw [ha] at hsub
    refine h.enrol (fun l hl => ?_) (.inr ⟨p, a, provided, hp, ha, ?_, hsub⟩)
    · split_ifs at hl
      exact Option.some.inj hl ▸ allValid_of_admissible hadm
    · by_cases hnil : provided = []
      · simp [CapTask.current, hnil, hclean.2 hnil]
      · simp [CapTask.current, hnil]

theorem lineal_fork (h : Lineal s) {parent : ℕ} {o : Oracle}
    (hs : capStep s (.fork parent o) = some s') : Lineal s' := by
  simp only [capStep] at hs
  cases hp : s.tasks parent with
  | none => simp [hp] at hs
  | some p =>
    simp only [hp] at hs
    obtain ⟨⟨hvm, hok⟩, ⟨⟩⟩ := Option.ite_none_right_eq_some.mp hs
    obtain ⟨a, ha⟩ : ∃ a, p.current = some a := by
      cases hcaps : p.caps <;> simp [CapTask.current, hcaps, hvm]
    rw [ha] at hok
    have hcaps := caps_of_current ha (ne_nil_of_checkPathOn hok)
    refine h.enrol (h.valid parent p hp) (.inr ⟨p, a, a, hp, ha, ?_, isSubset_refl a⟩)
    simp [CapTask.current, hcaps]

theorem lineal_create (h : Lineal s) {pid : ℕ} {dir : List Str} {method name : Str} {o : Oracle}
    {pageOk : Cap → ℕ → Bool} (hclean : CleanGrant s (.create pid dir method name o pageOk))
    (hs : capStep s (.create pid dir method name o pageOk) = some s') : Lineal s' := by
  simp only [capStep] at hs
  cases ht : s.tasks pid with
  | none => simp [ht] at hs
  | some t =>
    simp only [ht] at hs
    obtain ⟨hguard, ⟨⟩⟩ := Option.ite_none_right_eq_some.mp hs
    exact h.grants ht hguard.2 pageOk (autoGrants dir name) hclean

/-- **Every clean step keeps the invariant.** -/
theorem lineal_step (h : Lineal s) (a : CapAction) (hclean : CleanGrant s a)
    (hs : capStep s a = some s') : Lineal s' := by
  cases a with
  | launch vm caps => exact lineal_launch h hs
  | spawn parent provided vm => exact lineal_spawn h hclean hs
  | fork parent o => exact lineal_fork h hs
  | create pid dir method name o pageOk => exact lineal_create h hclean hs
  | reap pid =>
    cases hs
    refine h.mono (fun p t ht => ?_) (fun _ _ hlink => hlink) rfl
    simp only [update_apply] at ht
    split_ifs at ht
    exact ht
  | gc reclaim =>
    cases hs
    refine h.mono (fun _ _ ht => ht) (fun p q hlink => ?_) rfl
    simp only [lineageGc] at hlink
    split_ifs at hlink
    exact hlink

/-- **Ancestors keep covering their descendants** in every run whose steps are clean: any sequence
of launches, checked spawns, forks, creations with their grants, reaping and lineage collection. -/
theorem covering_of_clean (as : List CapAction) (s : CapState)
    (hrun : run capStep CapState.init as = some s)
    (hclean : RunMeets capStep CleanGrant CapState.init as) : Covering s :=
  (run_invariant Lineal (fun _ _ _ h hok hs => lineal_step h _ hok hs) as lineal_init
    hclean hrun).covering

end

/-! ## A full ancestor -/

def dirA : List Str := ["a".toList]

def createName : Str := "create".toList

def nameX : Str := "x".toList

/-- Authority over the directory `a` and its `create` method. -/
def dirSet : List Cap := [⟨joinPath dirA, none, .rw⟩, ⟨joinPath dirA, some createName, .rw⟩]

/-- The same authority, spelled with as many entries as a set may have. -/
def fullDirSet : List Cap :=
  List.replicate (maxCapsPerTask - 2) ⟨joinPath dirA, none, .rw⟩ ++ dirSet

theorem length_fullDirSet : fullDirSet.length = maxCapsPerTask := by
  rw [fullDirSet, length_append, length_replicate]
  exact Nat.sub_add_cancel (by decide)

theorem mem_fullDirSet {c : Cap} : c ∈ fullDirSet ↔ c ∈ dirSet := by
  rw [fullDirSet, mem_append, or_iff_right_of_imp]
  intro hc
  rw [eq_of_mem_replicate hc]
  exact mem_cons_self

theorem allValid_dirSet : AllValid dirSet := by
  unfold AllValid
  decide

theorem admissible_fullDirSet : admissible fullDirSet = true := by
  have hvalid : fullDirSet.all (fun c => validateCap c = .ok ()) = true := by
    rw [all_eq_true]
    intro c hc
    exact decide_eq_true (allValid_dirSet c (mem_fullDirSet.mp hc))
  simp [admissible, hvalid, length_fullDirSet]

theorem isSubset_of_subset {a b : List Cap} (h : ∀ c ∈ b, c ∈ a) : isSubset a b = true :=
  isSubset_iff.mpr fun c hc => ⟨c, h c hc, rfl, rfl, c.perm.covers_self⟩

theorem isSubset_dirSet_full : isSubset dirSet fullDirSet = true :=
  isSubset_of_subset fun _ => mem_fullDirSet.mp

theorem isSubset_full_dirSet : isSubset fullDirSet dirSet = true :=
  isSubset_of_subset fun _ => mem_fullDirSet.mpr

/-- The first process spawns one with the full set, which spawns one with the plain set; that one
creates `a/x`. -/
def fullAncestorRun : List CapAction :=
  [.launch 1 (some dirSet), .spawn 1 fullDirSet 2, .spawn 2 dirSet 3,
    .create 3 dirA createName nameX none fun _ _ => true]

/-- The state before the creation. -/
def fullAncestorState : CapState :=
  ((CapState.init.enrol 0 ⟨1, some dirSet⟩).enrol 1 ⟨2, some fullDirSet⟩).enrol 2 ⟨3, some dirSet⟩

theorem lineal_fullAncestorState : Lineal fullAncestorState := by
  have hdir : ∀ vm, (⟨vm, some dirSet⟩ : CapTask).Valid := by
    rintro vm l ⟨⟩
    exact allValid_dirSet
  have hfull : (⟨2, some fullDirSet⟩ : CapTask).Valid := by
    rintro l ⟨⟩
    exact allValid_of_admissible admissible_fullDirSet
  refine ((lineal_init.enrol (hdir 1) (.inl rfl)).enrol hfull ?_).enrol (hdir 3) ?_
  · exact .inr ⟨⟨1, some dirSet⟩, dirSet, fullDirSet, rfl, rfl, rfl, isSubset_dirSet_full⟩
  · exact .inr ⟨⟨2, some fullDirSet⟩, fullDirSet, dirSet, rfl, rfl, rfl, isSubset_full_dirSet⟩

theorem capStep_spawn {s : CapState} {parent vm : ℕ} {p : CapTask} {a provided : List Cap}
    (hp : s.tasks parent = some p) (ha : p.current = some a) (hadm : admissible provided = true)
    (hsub : isSubset a provided = true) (hne : provided ≠ []) :
    capStep s (.spawn parent provided vm) = some (s.enrol parent ⟨vm, some provided⟩) := by
  simp [capStep, hp, ha, hadm, hsub, hne]

theorem capStep_create {s : CapState} {pid : ℕ} {t : CapTask} {dir : List Str} {method name : Str}
    {o : Oracle} {pageOk : Cap → ℕ → Bool} (ht : s.tasks pid = some t) (hm : method ∈ createLike)
    (hok : checkPathOn o t.current dir (some method) .rw = .ok ()) :
    capStep s (.create pid dir method name o pageOk) =
      some ((autoGrants dir name).foldl (propagateCapToParents pid pageOk) s) := by
  simp [capStep, ht, hm, hok]

theorem run_fullAncestorRun : run capStep CapState.init fullAncestorRun =
      some ((autoGrants dirA nameX).foldl (propagateCapToParents 3 fun _ _ => true)
        fullAncestorState) := by
  have hroot : capStep CapState.init (.launch 1 (some dirSet)) =
      some (CapState.init.enrol 0 ⟨1, some dirSet⟩) := by
    rw [capStep, if_pos (by decide)]
  have hfull : capStep (CapState.init.enrol 0 ⟨1, some dirSet⟩) (.spawn 1 fullDirSet 2) = some _ :=
    capStep_spawn rfl rfl admissible_fullDirSet isSubset_dirSet_full
      (ne_nil_of_mem (mem_fullDirSet.mpr mem_cons_self))
  have hdir : capStep ((CapState.init.enrol 0 ⟨1, some dirSet⟩).enrol 1 ⟨2, some fullDirSet⟩)
      (.spawn 2 dirSet 3) = some fullAncestorState :=
    capStep_spawn rfl rfl (by decide) isSubset_full_dirSet (cons_ne_nil _ _)
  have hcreate : capStep fullAncestorState
      (.create 3 dirA createName nameX none fun _ _ => true) = some _ :=
    capStep_create (t := ⟨3, some dirSet⟩) rfl (by decide) (by decide)
  simp only [fullAncestorRun, run, hroot, hfull, hdir, hcreate, Option.bind_some]

/-- **A full ancestor is overtaken by its child**: the grant fails on its set and not on the
child's. -/
theorem fullAncestor_overtaken :
    ∃ s, run capStep CapState.init fullAncestorRun = some s ∧ ¬Covering s := by
  refine ⟨_, run_fullAncestorRun, fun hcov => ?_⟩
  have hdec := lineal_fullAncestorState.decreasing
  have hchain : 2 ∈ fullAncestorState.lineageChain 3 := by decide
  have hparent := grants_of_set hdec (fun _ _ => true) (autoGrants dirA nameX) (x := 2)
    (t := ⟨2, some fullDirSet⟩) (.inr hchain) rfl rfl
    (allValid_of_admissible admissible_fullDirSet)
  have hchild := grants_of_set hdec (fun _ _ => true) (autoGrants dirA nameX) (x := 3)
    (t := ⟨3, some dirSet⟩) (.inl rfl) rfl rfl allValid_dirSet
  rw [grantSets_of_full length_fullDirSet.ge] at hparent
  have hkept := grants_lineageChain hdec (fun _ _ => true) (autoGrants dirA nameX) 3 3
  have hsub : isSubset fullDirSet (grantSets (autoGrants dirA nameX) dirSet) = true :=
    hcov 3 2 _ _ hchild hparent (hkept ▸ hchain)
  -- the child has the new path, and no entry of the full set is for it
  obtain ⟨c, hc, hpath, -⟩ := hasPerm_iff.mp
    (hasPerm_grantSets (l := dirSet) (c := ⟨childPath dirA nameX, none, .rw⟩) (.inl (by decide))
      (mem_cons_self (l := (autoGrants dirA nameX).tail)) (by decide))
  obtain ⟨d, hd, hpath', -⟩ := isSubset_iff.mp hsub c hc
  have hno : ∀ d ∈ dirSet, d.path ≠ childPath dirA nameX := by decide
  exact hno d (mem_fullDirSet.mp hd) (hpath'.trans hpath)

/-- The same creation below a parent with room. -/
def plainRun : List CapAction :=
  [.launch 1 (some dirSet), .spawn 1 dirSet 2,
    .create 2 dirA createName nameX none fun _ _ => true]

theorem plainRun_covering : ∃ s, run capStep CapState.init plainRun = some s ∧ Covering s := by
  have hroot : capStep CapState.init (.launch 1 (some dirSet)) =
      some (CapState.init.enrol 0 ⟨1, some dirSet⟩) := by
    rw [capStep, if_pos (by decide)]
  have hspawn : capStep (CapState.init.enrol 0 ⟨1, some dirSet⟩) (.spawn 1 dirSet 2) =
      some ((CapState.init.enrol 0 ⟨1, some dirSet⟩).enrol 1 ⟨2, some dirSet⟩) :=
    capStep_spawn rfl rfl (by decide) (isSubset_refl dirSet) (cons_ne_nil _ _)
  have hcreate : capStep ((CapState.init.enrol 0 ⟨1, some dirSet⟩).enrol 1 ⟨2, some dirSet⟩)
      (.create 2 dirA createName nameX none fun _ _ => true) = some _ :=
    capStep_create (t := ⟨2, some dirSet⟩) rfl (by decide) (by decide)
  have hrun : run capStep CapState.init plainRun =
      some ((autoGrants dirA nameX).foldl (propagateCapToParents 2 fun _ _ => true)
        ((CapState.init.enrol 0 ⟨1, some dirSet⟩).enrol 1 ⟨2, some dirSet⟩)) := by
    simp only [plainRun, run, hroot, hspawn, hcreate, Option.bind_some]
  refine ⟨_, hrun, covering_of_clean plainRun _ hrun ?_⟩
  simp only [plainRun, RunMeets, hroot, hspawn, hcreate, CleanGrant, true_and, and_true]
  refine ⟨⟨fun p hp => ?_, by decide⟩, fun p hp t l ht hl => .inl ?_⟩
  · obtain rfl : ⟨1, some dirSet⟩ = p := Option.some.inj hp
    simp [CapTask.current]
  · have hchain : ∀ p ∈ CapState.lineageChain
        ((CapState.init.enrol 0 ⟨1, some dirSet⟩).enrol 1 ⟨2, some dirSet⟩) 2, p = 1 := by decide
    obtain rfl := hchain p hp
    obtain rfl : ⟨1, some dirSet⟩ = t := Option.some.inj ht
    obtain rfl : dirSet = l := Option.some.inj hl
    decide

end Bedrock
