import Bedrock.Lib.Run
import Bedrock.Lib.Slots
import Bedrock.Mm.Regions

/-!
# Task/Bind — tasks and their address spaces

A user task carries the root of its page tables and an index into the table of address spaces;
index zero marks a kernel task.  The index is stored by two of the three ways to create a process,
read by the memory calls, the fault handler, `fork` and the capability default, and handed back
when the task is reaped:

    create_process --register--▸ index --▸ task.vm --reap_one--▸ unregister
    fork_current   --register--▸ index --▸ (dropped)

`bound_of_clean` says that tasks and spaces stay bound as long as no task is started with index
zero and no fork succeeds; the first process and every forked child break it
(`firstProcess_unbound`).
-/

namespace Bedrock

open Function Option

/-- What binds a task to its address space. -/
structure BindTask where
  root : ℕ
  vm : ℕ
  dead : Bool
  deriving DecidableEq, Repr

/-- The live tasks and the registered address spaces.  `reaped` is the task the last step freed, if
it was a reaping. -/
structure BindState where
  kernelRoot : ℕ
  tasks : ℕ → Option BindTask
  spaces : SlotTable AddressSpace
  lastId : ℕ
  reaped : Option BindTask

/-- How a process creation ends once its address space is registered. -/
inductive CreateOutcome
  | noStack | refused | noCapsPage | started
  deriving DecidableEq, Repr

inductive BindAction
  /-- A kernel thread. -/
  | kernelTask
  /-- `load_init_from_esp` with the address space the loader built. -/
  | launchInit (asp : AddressSpace) (outcome : CreateOutcome)
  /-- `spawn_proc`, likewise. -/
  | spawnProc (asp : AddressSpace) (outcome : CreateOutcome)
  /-- `fork_current` of a task, with a fresh root for the child. -/
  | fork (parent childRoot : ℕ) (outcome : CreateOutcome)
  | exit (pid : ℕ)
  | reap (pid : ℕ)

namespace BindTask

/-- The task runs on page tables of its own. -/
def User (t : BindTask) (kernelRoot : ℕ) : Prop := t.root ≠ 0 ∧ t.root ≠ kernelRoot

/-- `current_vm`: the address space the memory calls of the task act on. -/
def currentVm (t : BindTask) : Option ℕ := if t.vm = 0 then none else some t.vm

end BindTask

namespace BindState

/-- After boot: no task and no address space. -/
def boot (kernelRoot : ℕ) : BindState := ⟨kernelRoot, fun _ => none, .empty, 0, none⟩

/-- The allocator hands out a root no live task runs on. -/
def freshRoot (s : BindState) (root : ℕ) : Bool :=
  root ≠ 0 && root ≠ s.kernelRoot &&
    (List.range (s.lastId + 1)).all fun pid => (s.tasks pid).all fun t => t.root ≠ root

/-- Publish a new task. -/
def enrol (s : BindState) (root vm : ℕ) : BindState :=
  { s with
    tasks := update s.tasks (s.lastId + 1) (some ⟨root, vm, false⟩)
    lastId := s.lastId + 1
    reaped := none }

/-- The state with another table of address spaces. -/
def withSpaces (s : BindState) (spaces : SlotTable AddressSpace) : BindState :=
  { s with spaces := spaces, reaped := none }

/-- `load_init_from_esp`: the slot is given back when the capability page cannot be had and when the
entry point or the root is refused before the handoff; without a kernel stack the boot stops. -/
def launchInit (s : BindState) (asp : AddressSpace) : CreateOutcome → Option BindState
  | .started => some ((s.withSpaces (s.spaces.insert asp)).enrol asp.root s.spaces.next)
  | .noCapsPage => some (s.withSpaces ((s.spaces.insert asp).remove s.spaces.next))
  | .refused => some (s.withSpaces ((s.spaces.insert asp).remove s.spaces.next))
  | .noStack => none

/-- `spawn_proc`: no failure after the registration gives the slot back. -/
def spawnProc (s : BindState) (asp : AddressSpace) : CreateOutcome → BindState
  | .started => (s.withSpaces (s.spaces.insert asp)).enrol asp.root s.spaces.next
  | .noStack => s.withSpaces (s.spaces.insert asp)
  | .refused => s.withSpaces (s.spaces.insert asp)
  | .noCapsPage => s.withSpaces (s.spaces.insert asp)

/-- `fork_current`, given the parent's address space: a failure gives the slot back, and the task
that is started never learns its index. -/
def forkFrom (s : BindState) (pasp : AddressSpace) (childRoot : ℕ) :
    CreateOutcome → Option BindState
  | .started => some ((s.withSpaces (s.spaces.insert { pasp with root := childRoot })).enrol
      childRoot 0)
  | .noStack => some (s.withSpaces
      ((s.spaces.insert { pasp with root := childRoot }).remove s.spaces.next))
  | .noCapsPage => some (s.withSpaces
      ((s.spaces.insert { pasp with root := childRoot }).remove s.spaces.next))
  | .refused => none

/-- `reap_one`: the slot is given back only under a nonzero index. -/
def reapOne (s : BindState) (pid : ℕ) (t : BindTask) : BindState :=
  { s with
    tasks := update s.tasks pid none
    spaces := if t.vm ≠ 0 then s.spaces.remove t.vm else s.spaces
    reaped := some t }

end BindState

/-- One life-cycle step. -/
def bindStep (s : BindState) : BindAction → Option BindState
  | .kernelTask => some (s.enrol s.kernelRoot 0)
  | .launchInit asp outcome => if s.freshRoot asp.root then s.launchInit asp outcome else none
  | .spawnProc asp outcome => if s.freshRoot asp.root then some (s.spawnProc asp outcome) else none
  | .fork parent childRoot outcome =>
    match s.tasks parent with
    | none => none
    | some p =>
      if p.vm ≠ 0 ∧ s.freshRoot childRoot then
        (s.spaces.get p.vm).bind fun pasp => s.forkFrom pasp childRoot outcome
      else none
  | .exit pid =>
    (s.tasks pid).map fun t =>
      { s with tasks := update s.tasks pid (some { t with dead := true }), reaped := none }
  | .reap pid =>
    match s.tasks pid with
    | none => none
    | some t => if t.dead then some (s.reapOne pid t) else none

/-- **Every user task is bound to its own address space**: its index is nonzero and leads to the
space of its root, no two user tasks share an index, and a user task that was reaped has left its
slot vacant. -/
structure Bound (s : BindState) : Prop where
  own : ∀ pid t, s.tasks pid = some t → t.User s.kernelRoot →
    ∃ i asp, t.currentVm = some i ∧ s.spaces.get i = some asp ∧ asp.root = t.root
  distinct : ∀ pid pid' t t', s.tasks pid = some t → s.tasks pid' = some t' →
    t.User s.kernelRoot → t'.User s.kernelRoot → t.vm = t'.vm → pid = pid'
  released : ∀ t, s.reaped = some t → t.User s.kernelRoot → s.spaces.get t.vm = none

/-- The condition on a step: a task is started only with a nonzero index, and never by a fork. -/
def CleanBind (s : BindState) : BindAction → Prop
  | .launchInit _ outcome => outcome = .started → s.spaces.next ≠ 0
  | .spawnProc _ outcome => outcome = .started → s.spaces.next ≠ 0
  | .fork _ _ outcome => outcome ≠ .started
  | _ => True

instance CleanBind.decidable (s : BindState) : ∀ a, Decidable (CleanBind s a)
  | .kernelTask => isTrue trivial
  | .launchInit _ outcome | .spawnProc _ outcome =>
    inferInstanceAs (Decidable (outcome = .started → s.spaces.next ≠ 0))
  | .fork _ _ outcome => inferInstanceAs (Decidable (outcome ≠ .started))
  | .exit _ | .reap _ => isTrue trivial

/-! ## The invariant -/

namespace BindState

variable {s : BindState} {t : BindTask} {pid : ℕ}

/-- The binding, and that kernel tasks have index zero. -/
structure Inv (s : BindState) : Prop extends Bound s where
  kernel : ∀ pid t, s.tasks pid = some t → ¬t.User s.kernelRoot → t.vm = 0

theorem inv_boot (kernelRoot : ℕ) : Inv (boot kernelRoot) where
  own := by simp [boot]
  distinct := by simp [boot]
  released := by simp [boot]
  kernel := by simp [boot]

variable (h : Inv s)
include h

theorem Inv.get_vm (ht : s.tasks pid = some t) (hu : t.User s.kernelRoot) :
    t.vm ≠ 0 ∧ ∃ asp, s.spaces.get t.vm = some asp ∧ asp.root = t.root := by
  obtain ⟨i, asp, hi, hget, hroot⟩ := h.own pid t ht hu
  unfold BindTask.currentVm at hi
  split_ifs at hi with hvm
  cases hi
  exact ⟨hvm, asp, hget, hroot⟩

/-- No bound task uses the index the next registration takes. -/
theorem Inv.vm_ne_next (ht : s.tasks pid = some t) (hu : t.User s.kernelRoot) :
    t.vm ≠ s.spaces.next := by
  obtain ⟨-, asp, hget, -⟩ := h.get_vm ht hu
  intro heq
  rw [heq, SlotTable.get_next] at hget
  cases hget

/-- The table may change wherever no bound task looks. -/
theorem Inv.withSpaces {spaces : SlotTable AddressSpace}
    (hkeep : ∀ i, i ≠ s.spaces.next → spaces.get i = s.spaces.get i) :
    Inv (s.withSpaces spaces) where
  own pid t ht hu := by
    obtain ⟨i, asp, hi, hget, hroot⟩ := h.own pid t ht hu
    have hvm : i = t.vm := by
      unfold BindTask.currentVm at hi
      split_ifs at hi
      exact (some.inj hi).symm
    exact ⟨i, asp, hi, (hkeep i (hvm ▸ h.vm_ne_next ht hu)).trans hget, hroot⟩
  distinct := h.distinct
  released := by simp [BindState.withSpaces]
  kernel := h.kernel

theorem Inv.insert (asp : AddressSpace) : Inv (s.withSpaces (s.spaces.insert asp)) :=
  h.withSpaces fun i hi => by rw [SlotTable.get_insert, if_neg hi]

theorem Inv.insert_remove (asp : AddressSpace) :
    Inv (s.withSpaces ((s.spaces.insert asp).remove s.spaces.next)) :=
  h.withSpaces fun i hi => by
    rw [SlotTable.get_remove, if_neg hi, SlotTable.get_insert, if_neg hi]

/-- **A new task keeps the binding** if it is a kernel task or its index leads to a space of its
root that no other task uses. -/
theorem Inv.enrol {root vm : ℕ} (hkernel : ¬(BindTask.mk root vm false).User s.kernelRoot → vm = 0)
    (hnew : (BindTask.mk root vm false).User s.kernelRoot →
      vm ≠ 0 ∧ (∃ asp, s.spaces.get vm = some asp ∧ asp.root = root) ∧
        ∀ pid t, s.tasks pid = some t → t.User s.kernelRoot → t.vm ≠ vm) :
    Inv (s.enrol root vm) where
  own pid t ht hu := by
    simp only [BindState.enrol, update_apply] at ht
    split_ifs at ht
    · cases ht
      obtain ⟨hvm, ⟨asp, hget, hroot⟩, -⟩ := hnew hu
      exact ⟨vm, asp, by simp [BindTask.currentVm, hvm], hget, hroot⟩
    · exact h.own pid t ht hu
  distinct pid pid' t t' ht ht' hu hu' hvm := by
    simp only [BindState.enrol, update_apply] at ht ht'
    split_ifs at ht ht' with hp hp'
    · exact hp.trans hp'.symm
    · cases ht
      exact absurd hvm.symm ((hnew hu).2.2 pid' t' ht' hu')
    · cases ht'
      exact absurd hvm ((hnew hu').2.2 pid t ht hu)
    · exact h.distinct pid pid' t t' ht ht' hu hu' hvm
  released := by simp [BindState.enrol]
  kernel pid t ht hu := by
    simp only [BindState.enrol, update_apply] at ht
    split_ifs at ht
    · cases ht
      exact hkernel hu
    · exact h.kernel pid t ht hu

omit h in
theorem user_of_freshRoot {root : ℕ} (h : s.freshRoot root = true) (vm : ℕ) (dead : Bool) :
    (BindTask.mk root vm dead).User s.kernelRoot := by
  simp only [freshRoot, Bool.and_eq_true, decide_eq_true_eq] at h
  exact h.1

theorem Inv.start {asp : AddressSpace} (hfresh : s.freshRoot asp.root = true)
    (hnext : s.spaces.next ≠ 0) :
    Inv ((s.withSpaces (s.spaces.insert asp)).enrol asp.root s.spaces.next) := by
  refine (h.insert asp).enrol (absurd (user_of_freshRoot hfresh _ _))
    fun _ => ⟨hnext, ⟨asp, ?_, rfl⟩, fun pid t ht hu => ?_⟩
  · change (s.spaces.insert asp).get s.spaces.next = some asp
    rw [SlotTable.get_insert, if_pos rfl]
  · exact h.vm_ne_next ht hu

theorem Inv.get_reapOne (ht : s.tasks pid = some t) {pid' : ℕ} {t' : BindTask}
    (hne : pid' ≠ pid) (ht' : s.tasks pid' = some t') (hu' : t'.User s.kernelRoot) :
    (s.reapOne pid t).spaces.get t'.vm = s.spaces.get t'.vm := by
  simp only [BindState.reapOne]
  split_ifs with hvm
  · have hu : t.User s.kernelRoot := by
      by_contra hno
      exact hvm (h.kernel pid t ht hno)
    rw [SlotTable.get_remove, if_neg fun heq => hne (h.distinct pid' pid t' t ht' ht hu' hu heq)]
  · rfl

/-- **A reaped task leaves its slot vacant** and the others bound. -/
theorem Inv.reapOne (ht : s.tasks pid = some t) : Inv (s.reapOne pid t) := by
  have hlive : ∀ pid' t', (s.reapOne pid t).tasks pid' = some t' →
      pid' ≠ pid ∧ s.tasks pid' = some t' := by
    intro pid' t' ht'
    simp only [BindState.reapOne, update_apply] at ht'
    split_ifs at ht' with hp
    exact ⟨hp, ht'⟩
  refine { own := ?_, distinct := ?_, released := ?_, kernel := ?_ }
  · intro pid' t' ht' hu'
    obtain ⟨hne, ht'⟩ := hlive pid' t' ht'
    obtain ⟨hvm, asp, hget, hroot⟩ := h.get_vm ht' hu'
    exact ⟨t'.vm, asp, by simp [BindTask.currentVm, hvm],
      (h.get_reapOne ht hne ht' hu').trans hget, hroot⟩
  · intro pid1 pid2 t1 t2 ht1 ht2
    exact h.distinct pid1 pid2 t1 t2 (hlive pid1 t1 ht1).2 (hlive pid2 t2 ht2).2
  · rintro _ ⟨⟩ hu
    simp only [BindState.reapOne]
    rw [if_pos (h.get_vm ht hu).1, SlotTable.get_remove, if_pos rfl]
  · intro pid' t' ht'
    exact h.kernel pid' t' (hlive pid' t' ht').2

theorem Inv.exit (ht : s.tasks pid = some t) : Inv { s with
      tasks := update s.tasks pid (some { t with dead := true }), reaped := none } := by
  -- marking a task dead changes neither its root nor its index
  have hold : ∀ pid' t', update s.tasks pid (some { t with dead := true }) pid' = some t' →
      ∃ t0, s.tasks pid' = some t0 ∧ t0.root = t'.root ∧ t0.vm = t'.vm := by
    intro pid' t' ht'
    rw [update_apply] at ht'
    split_ifs at ht' with hp
    · cases ht'
      exact ⟨t, hp ▸ ht, rfl, rfl⟩
    · exact ⟨t', ht', rfl, rfl⟩
  refine { own := ?_, distinct := ?_, released := by simp, kernel := ?_ }
  · intro pid' t' ht' hu'
    obtain ⟨t0, ht0, hroot, hvm⟩ := hold pid' t' ht'
    rw [BindTask.User, ← hroot] at hu'
    obtain ⟨hne, asp, hget, hr⟩ := h.get_vm ht0 hu'
    exact ⟨t'.vm, asp, by simp [BindTask.currentVm, ← hvm, hne], hvm ▸ hget, hr.trans hroot⟩
  · intro pid1 pid2 t1 t2 ht1 ht2 hu1 hu2 heq
    obtain ⟨u1, hu1', hroot1, hvm1⟩ := hold pid1 t1 ht1
    obtain ⟨u2, hu2', hroot2, hvm2⟩ := hold pid2 t2 ht2
    rw [BindTask.User, ← hroot1] at hu1
    rw [BindTask.User, ← hroot2] at hu2
    exact h.distinct pid1 pid2 u1 u2 hu1' hu2' hu1 hu2 (by rw [hvm1, hvm2, heq])
  · intro pid' t' ht' hu'
    obtain ⟨t0, ht0, hroot, hvm⟩ := hold pid' t' ht'
    rw [BindTask.User, ← hroot] at hu'
    exact hvm ▸ h.kernel pid' t0 ht0 hu'

/-- **Every clean step keeps the binding.** -/
theorem Inv.step {s' : BindState} (a : BindAction) (hclean : CleanBind s a)
    (hs : bindStep s a = some s') : Inv s' := by
  cases a with
  | kernelTask =>
    cases hs
    exact h.enrol (fun _ => rfl) fun hu => absurd rfl hu.2
  | launchInit asp outcome =>
    obtain ⟨hfresh, hs⟩ := ite_none_right_eq_some.mp hs
    cases outcome with
    | started =>
      cases hs
      exact h.start hfresh (hclean rfl)
    | noCapsPage | refused =>
      cases hs
      exact h.insert_remove asp
    | noStack => cases hs
  | spawnProc asp outcome =>
    obtain ⟨hfresh, ⟨⟩⟩ := ite_none_right_eq_some.mp hs
    cases outcome with
    | started => exact h.start hfresh (hclean rfl)
    | noStack | refused | noCapsPage => exact h.insert asp
  | fork parent childRoot outcome =>
    simp only [bindStep] at hs
    cases hp : s.tasks parent with
    | none => simp [hp] at hs
    | some p =>
      simp only [hp] at hs
      obtain ⟨-, hs⟩ := ite_none_right_eq_some.mp hs
      obtain ⟨pasp, -, hs⟩ := bind_eq_some_iff.mp hs
      cases outcome with
      | started => exact absurd rfl hclean
      | noStack | noCapsPage =>
        cases hs
        exact h.insert_remove _
      | refused => cases hs
  | exit pid =>
    obtain ⟨t, ht, rfl⟩ := map_eq_some_iff.mp hs
    exact h.exit ht
  | reap pid =>
    simp only [bindStep] at hs
    cases ht : s.tasks pid with
    | none => simp [ht] at hs
    | some t =>
      simp only [ht] at hs
      obtain ⟨-, ⟨⟩⟩ := ite_none_right_eq_some.mp hs
      exact h.reapOne ht

end BindState

/-- **Tasks stay bound to their address spaces** in every run of process creations (with all their
failures), forks, exits and reaping in which no task is started with index zero or by a fork. -/
theorem bound_of_clean (kernelRoot : ℕ) (as : List BindAction) (s : BindState)
    (hrun : run bindStep (BindState.boot kernelRoot) as = some s)
    (hclean : RunMeets bindStep CleanBind (BindState.boot kernelRoot) as) : Bound s :=
  (run_invariant BindState.Inv (fun _ a _ h hok hs => h.step a hok hs) as
    (BindState.inv_boot kernelRoot) hclean hrun).toBound

/-- An address space with the given root. -/
def plainSpace (root : ℕ) : AddressSpace :=
  register root 0x400000 0x401000 0x7FFF00000000 (.user ||| .read ||| .write) none

/-- **The first process is registered under the index that marks a kernel task**, and so is a forked
child whatever its parent's index. -/
theorem firstProcess_unbound :
    (∃ s, run bindStep (BindState.boot 1) [.launchInit (plainSpace 2) .started] = some s ∧
      ¬Bound s) ∧ ∃ s, run bindStep (BindState.boot 1) [.spawnProc (plainSpace 2) .noStack,
      .spawnProc (plainSpace 3) .started, .fork 1 4 .started] = some s ∧ ¬Bound s := by
  refine ⟨⟨_, rfl, fun h => ?_⟩, ⟨_, rfl, fun h => ?_⟩⟩
  · obtain ⟨i, asp, hi, -⟩ := h.own 1 ⟨2, 0, false⟩ rfl ⟨by decide, by decide⟩
    simp [BindTask.currentVm] at hi
  · obtain ⟨i, asp, hi, -⟩ := h.own 2 ⟨4, 0, false⟩ rfl ⟨by decide, by decide⟩
    simp [BindTask.currentVm] at hi

/-- With index zero lost to a failed creation, processes come and go bound. -/
theorem laterProcess_bound :
    ∃ s, run bindStep (BindState.boot 1) [.spawnProc (plainSpace 2) .noStack,
      .spawnProc (plainSpace 3) .started, .spawnProc (plainSpace 4) .started, .exit 1, .reap 1] =
        some s ∧ Bound s :=
  ⟨_, rfl, bound_of_clean 1 [.spawnProc (plainSpace 2) .noStack,
    .spawnProc (plainSpace 3) .started, .spawnProc (plainSpace 4) .started, .exit 1, .reap 1] _ rfl
    (by decide)⟩

end Bedrock
