import Bedrock.Task.Sched

/-!
# Task/SchedWeight — the weighted round robin

A CPU gives at most `WEIGHT_INTERACTIVE` turns to Interactive tasks while a Batch task waits: every
such turn is paid from its credit, which only a Batch turn restores.

    credit  3 --I--▸ 2 --I--▸ 1 --I--▸ 0 --B--▸ 3

Between two passes of a CPU everything may change but its credit (`passes_of_run`).
-/

namespace Bedrock

open List Option Function

/-- The pass is at its pick. -/
def Pc.picking : Pc → Bool
  | .sched (.dispatch _) => true
  | _ => false

namespace Sched

variable {s s' : Sched} {c n p k credit : ℕ} {prio : Priority} {ss : List Sched}

/-- A task of the class is queued, ready and nobody's. -/
def Eligible (s : Sched) (prio : Priority) : Prop := ∃ p ∈ s.queue, s.readyFor prio p = true

/-- The pass of the CPU dispatches a task of the class. -/
def picks (s : Sched) (c : ℕ) (prio : Priority) : Bool :=
  (s.pick c).any fun r => (s.task r.1).prio = prio

/-- The credit of the CPU after its pass. -/
def creditAfter (s : Sched) (c : ℕ) : ℕ := ((s.pick c).map Prod.snd).getD (s.credit c)

/-- The passes of a CPU, by the states they pick in: it has the credit the pass before has left. -/
def Passes (c : ℕ) : ℕ → List Sched → Prop
  | _, [] => True
  | k, s :: ss => s.credit c = k ∧ Passes c (s.creditAfter c) ss

/-- The section is the CPU's pick. -/
def picking (s : Sched) (c : ℕ) : SchedAction → Bool
  | .pass d _ => d = c && (s.pc d).picking
  | _ => false

/-- The states in which the CPU picks along a run. -/
def passesOf (c : ℕ) : Sched → List SchedAction → List Sched
  | _, [] => []
  | s, a :: as =>
    match schedStep s a with
    | none => []
    | some s' => (if s.picking c a then [s] else []) ++ passesOf c s' as

/-! ## The pick -/

theorem eligible_iff : s.Eligible prio ↔ ∃ n, s.queue.find? (s.readyFor prio) = some n := by
  rw [← isSome_iff_exists, find?_isSome]
  rfl

theorem prio_of_find? (h : s.queue.find? (s.readyFor prio) = some n) : (s.task n).prio = prio := by
  have := find?_some h
  simp only [readyFor, Bool.and_eq_true, decide_eq_true_eq] at this
  exact this.2

/-- **The pick is the first eligible task of its class**; an Interactive one is paid for, if a Batch
task waits. -/
theorem pick_eq (h : s.pick c = some (n, credit)) :
    s.queue.find? (s.readyFor (s.task n).prio) = some n ∧
    ((s.task n).prio = .batch ∧ credit = weightInteractive ∨
      credit = s.credit c - 1 ∧ (s.Eligible .batch → 0 < s.credit c)) := by
  unfold pick at h
  split at h
  case h_1 i b hi hb =>
    split_ifs at h with hc <;> cases h
    · exact ⟨by rwa [prio_of_find? hi], .inr ⟨rfl, fun _ => hc⟩⟩
    · exact ⟨by rwa [prio_of_find? hb], .inl ⟨prio_of_find? hb, rfl⟩⟩
  case h_2 i hi hb =>
    cases h
    exact ⟨by rwa [prio_of_find? hi], .inr ⟨rfl, fun he => by simp [eligible_iff, hb] at he⟩⟩
  case h_3 b hi hb =>
    cases h
    exact ⟨by rwa [prio_of_find? hb], .inl ⟨prio_of_find? hb, rfl⟩⟩
  case h_4 => cases h

theorem pick_of_eligible (h : s.Eligible prio) : (s.pick c).isSome := by
  obtain ⟨n, hn⟩ := eligible_iff.mp h
  unfold pick
  split
  · split_ifs <;> rfl
  · rfl
  · rfl
  · cases prio <;> simp_all

theorem dispatch_of_pick {prev : Option ℕ} (hp : s.pick c = some (n, credit))
    (hs : s.dispatch c prev = some s') :
    s'.credit = (s.claim c n credit).credit ∧ s'.current = (s.claim c n credit).current := by
  unfold dispatch at hs
  rw [hp] at hs
  cases prev with
  | none =>
    cases (ite_none_right_eq_some.mp hs).2
    exact ⟨rfl, rfl⟩
  | some p =>
    replace hs := (ite_none_right_eq_some.mp hs).2
    repeat' split at hs
    all_goals cases hs <;> exact ⟨rfl, rfl⟩

/-- The pick's credit is stored, and what is picked runs. -/
theorem dispatch_spec {prev : Option ℕ} (hs : s.dispatch c prev = some s') :
    s'.credit = update s.credit c (s.creditAfter c) ∧ ∀ r ∈ s.pick c, s'.current c = some r.1 := by
  cases hp : s.pick c with
  | none =>
    rw [creditAfter, hp, Option.map_none, getD_none, update_eq_self]
    refine ⟨?_, nofun⟩
    unfold dispatch at hs
    rw [hp] at hs
    cases prev <;> dsimp only at hs <;> (try split at hs) <;> cases hs <;> rfl
  | some r =>
    obtain ⟨hcredit, hcurrent⟩ := dispatch_of_pick hp hs
    refine ⟨by rw [hcredit, creditAfter, hp]; rfl, fun q hq => ?_⟩
    rw [hcurrent, ← some.inj hq]
    exact update_self ..

/-! ## Runs -/

theorem flush_credit {w : Waker} {f : Sched → Sched} (h : (s.flush w).map f = some s')
    (hf : ∀ t, (f t).credit = t.credit) : s'.credit = s.credit := by
  obtain ⟨t, ht, rfl⟩ := map_eq_some_iff.mp h
  rw [hf, ← some.inj (ite_none_right_eq_some.mp ht).2]
  rfl

theorem callStep_credit {cont : Cont} (hs : s.callStep c p cont = some s') :
    s'.credit = s.credit := by
  cases cont with
  | wakeFlush => exact flush_credit hs fun _ => rfl
  | _ =>
    simp only [callStep, recover] at hs
    (try split_ifs at hs) <;> cases hs <;> rfl

theorem beginCall_credit {call : Call} : (s.beginCall p call).credit = s.credit := by
  cases call <;> rfl

theorem idleStep_credit {call : IdleCall} (hs : s.idleStep c call = some s') :
    s'.credit = s.credit := by
  cases call <;> simp only [idleStep] at hs <;> (try split_ifs at hs) <;> cases hs <;> rfl

theorem passStep_credit {now : ℕ} {st : Stage} (hs : s.passStep c now st = some s')
    (hst : (Pc.sched st).picking = false) : s'.credit = s.credit := by
  cases st with
  | dispatch prev => exact nomatch hst
  | wakeFlush | drainFlush | parkFlush p => exact flush_credit hs fun _ => rfl
  | killCheck q | decide q | switch q =>
    cases q <;> simp only [passStep] at hs <;> (try split_ifs at hs) <;> cases hs <;> rfl
  | _ =>
    simp only [passStep] at hs
    (try split_ifs at hs) <;> cases hs <;> rfl

theorem reapStep_credit {st : ReapStage} (hs : s.reapStep c st = some s') :
    s'.credit = s.credit := by
  unfold reapStep at hs
  split at hs
  case h_8 =>
    obtain ⟨t, -, rfl⟩ := map_eq_some_iff.mp hs
    rfl
  all_goals (repeat' split at hs) <;> cases hs <;> rfl

/-- **The credit of a CPU changes only by its own picks.** -/
theorem schedStep_credit {a : SchedAction} (hs : schedStep s a = some s') :
    s'.credit c = if s.picking c a then s.creditAfter c else s.credit c := by
  replace hs := (ite_none_right_eq_some.mp hs).2
  cases a with
  | pass d now =>
    simp only [actStep] at hs
    split at hs
    case h_1 st hpc =>
      cases st with
      | dispatch prev =>
        rw [(dispatch_spec hs).1]
        by_cases hd : d = c
        · simp [picking, ← hd, hpc, Pc.picking]
        · simp [picking, hd, Ne.symm hd]
      | _ =>
        rw [passStep_credit hs rfl]
        simp [picking, hpc, Pc.picking]
    case h_2 => cases hs
  | _ =>
    refine congrFun ?_ c
    simp only [actStep] at hs
    split at hs
    case h_2 => cases hs
    first
    | exact callStep_credit hs
    | exact flush_credit hs fun _ => rfl
    | exact reapStep_credit hs
    | exact idleStep_credit hs
    | split_ifs at hs; cases hs; first | rfl | exact beginCall_credit

/-- **The picks of a CPU along a run** pass its credit on. -/
theorem passes_of_run (c : ℕ) : ∀ (s : Sched) (as : List SchedAction),
    Passes c (s.credit c) (passesOf c s as)
  | _, [] => trivial
  | s, a :: as => by
    rw [passesOf]
    cases hs : schedStep s a with
    | none => trivial
    | some s' =>
      have ih := passes_of_run c s' as
      rw [schedStep_credit hs] at ih
      split_ifs with hp
      · rw [if_pos hp] at ih
        exact ⟨rfl, ih⟩
      · rwa [if_neg hp] at ih

/-! ## The bound -/

theorem creditAfter_le (h : s.credit c ≤ weightInteractive) :
    s.creditAfter c ≤ weightInteractive := by
  cases hp : s.pick c with
  | none => simpa [creditAfter, hp]
  | some r =>
    have := (pick_eq hp).2
    simp only [creditAfter, hp, map_some, getD_some]
    omega

theorem Passes.infix : ∀ {pre : List Sched} {k : ℕ}, Passes c k (pre ++ ss) →
    k ≤ weightInteractive → ∃ k ≤ weightInteractive, Passes c k ss
  | [], k, h, hk => ⟨k, hk, h⟩
  | _ :: _, _, ⟨hs, h⟩, hk => h.infix (creditAfter_le (hs ▸ hk))

theorem Passes.left : ∀ {pre : List Sched} {k : ℕ}, Passes c k (pre ++ ss) → Passes c k pre
  | [], _, _ => trivial
  | _ :: _, _, ⟨hs, h⟩ => ⟨hs, h.left⟩

/-- While a Batch task waits and none is dispatched, every pass costs one credit. -/
theorem Passes.length_le : ∀ {ss : List Sched} {k : ℕ}, Passes c k ss →
    (∀ s ∈ ss, s.Eligible .batch ∧ s.picks c .batch = false) → ss.length ≤ k
  | [], _, _, _ => Nat.zero_le _
  | s :: ss, k, ⟨hk, h⟩, hall => by
    obtain ⟨he, hb⟩ := hall s mem_cons_self
    obtain ⟨⟨n, credit⟩, hp⟩ := isSome_iff_exists.mp (pick_of_eligible (c := c) he)
    have ih := h.length_le fun t ht => hall t (mem_cons_of_mem s ht)
    rw [picks, hp, any_some, decide_eq_false_iff_not] at hb
    obtain ⟨hcredit, hpos⟩ := (pick_eq hp).2.resolve_left fun h => hb h.1
    rw [creditAfter, hp, Option.map_some, getD_some] at ih
    have := hk ▸ hpos he
    rw [length_cons]
    omega

/-- **Weighted round robin.**  The picks of a CPU along any run pass on its credit.  In every such
sequence, whatever the queue in each, a stretch in which a Batch task is eligible and none is
dispatched has at most `WEIGHT_INTERACTIVE` Interactive dispatches.  If a task is eligible, the pass
dispatches the first one of some class. -/
theorem weighted_round_robin (c : ℕ) :
    (∀ s as, Passes c (s.credit c) (passesOf c s as)) ∧
    (∀ k ≤ weightInteractive, ∀ ss, Passes c k ss → ∀ seg, seg <:+: ss →
      (∀ s ∈ seg, s.Eligible .batch ∧ s.picks c .batch = false) →
      seg.countP (·.picks c .interactive) ≤ weightInteractive) ∧
    ∀ (s : Sched) prio, s.Eligible prio → ∃ n credit, s.pick c = some (n, credit) ∧
      s.queue.find? (s.readyFor (s.task n).prio) = some n ∧
      ∀ prev s', s.dispatch c prev = some s' → s'.current c = some n := by
  refine ⟨passes_of_run c, fun k hk ss h seg ⟨pre, post, hss⟩ hseg => ?_, fun s prio he => ?_⟩
  · obtain ⟨k', hk', h'⟩ := Passes.infix (append_assoc pre seg post ▸ hss ▸ h) hk
    exact Nat.le_trans countP_le_length (Nat.le_trans (h'.left.length_le hseg) hk')
  · obtain ⟨⟨n, credit⟩, hp⟩ := isSome_iff_exists.mp (pick_of_eligible (c := c) he)
    exact ⟨n, credit, hp, (pick_eq hp).1, fun prev s' hs => (dispatch_spec hs).2 _ hp⟩

instance (s : Sched) (prio : Priority) : Decidable (s.Eligible prio) :=
  inferInstanceAs (Decidable (∃ p ∈ s.queue, s.readyFor prio p = true))

open SchedAction in
/-- Two Interactive tasks and a Batch one, preempted four times on the only CPU. -/
def threeTasks : List SchedAction :=
  [idle 0 .launch, begin 0 (.spawn .interactive), begin 0 (.spawn .batch)] ++
    (List.replicate 4 (preempt 0 :: List.replicate 10 (pass 0 0))).flatten

/-- The bound is reached: the Batch task waits for three dispatches and gets the fourth. -/
theorem weighted_round_robin_threeTasks :
    ((passesOf 0 (boot 1) threeTasks).take 3).countP (·.picks 0 .interactive)
      = weightInteractive ∧
    ((passesOf 0 (boot 1) threeTasks).drop 3).map (·.picks 0 .batch) = [true] ∧
    ((passesOf 0 (boot 1) threeTasks).take 3).countP (·.picks 0 .interactive)
      ≤ weightInteractive := by
  have hpart : (passesOf 0 (boot 1) threeTasks).take 3 <:+: passesOf 0 (boot 1) threeTasks :=
    IsPrefix.isInfix <| take_prefix 3 _
  refine ⟨by decide +kernel, by decide +kernel, ?_⟩
  exact (weighted_round_robin 0).2.1 weightInteractive (Nat.le_refl _) _
    ((weighted_round_robin 0).1 (boot 1) threeTasks) _ hpart (by decide +kernel)

end Sched

end Bedrock
