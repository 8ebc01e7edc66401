import Bedrock.Task.SchedSection

/-!
# Task/SchedDead — a dead task is in no run or wait list

A task is doomed once `schedule` or `kill` has decided that it goes to `ZOMBIES`, until the reaper
has freed it.  What has to be kept is that a doomed task is in none of the lists and that the only
CPU which can still own it is the one that is leaving it:

    exit, kill --▸ park --▸ ZOMBIES --▸ RECLAIM --▸ reap_one
         not listed, owned at most by a CPU in `leaving`

`kill` breaks this in two windows.  A pending kill is delivered to a task that has put itself into
`SLEEPING` or `WAITERS` and not yet left its CPU; and `take_from_lists` takes such a task out of its
list.  In a run that avoids both, `Buried` holds throughout (`exclusive_of_clean`).
-/

namespace Bedrock

open List

/-- The tasks a program counter holds on their way to the grave. -/
def Pc.burying : Pc → List ℕ
  | .sched (.park p) => [p]
  | .reap (.free ps _) => ps
  | _ => []

/-- …and a task's own code. -/
def Cont.burying : Cont → List ℕ
  | .killPark p => [p]
  | .waitReclaim p => [p]
  | _ => []

namespace Sched

variable {R : Rules} {s s' : Sched} {c p : ℕ}

/-- The task is in `ZOMBIES` or `RECLAIM`, or on its way there or to `reap_one`. -/
def Doomed (s : Sched) (p : ℕ) : Prop :=
  p ∈ s.zombies ∨ p ∈ s.reclaim ∨ (∃ c, p ∈ (s.pc c).burying) ∨ ∃ t, p ∈ (s.cont t).burying

/-- A doomed task is in no list and runs nowhere; a parked task is alive. -/
structure Buried (s : Sched) : Prop where
  away : ∀ p, s.Doomed p → p ∉ s.places
  left : ∀ p c, s.Doomed p → (s.task p).owner = some c → s.seat c = .leaving (some p)
  asleep : ∀ p, p ∈ s.sleepers ∨ p ∈ s.waiting → (s.task p).state = .zzz
  parking : ∀ p, (s.cont p).Parking → (s.task p).state = .zzz
  known : ∀ p, s.Doomed p → p ≤ s.lastId

namespace Buried

variable (h : Buried s)
include h

theorem mono (hd : ∀ q, s'.Doomed q → s.Doomed q)
    (hp : ∀ q, s.Doomed q → q ∈ s'.places → q ∈ s.places)
    (hl : ∀ q d, s.Doomed q → (s'.task q).owner = some d →
      (s.task q).owner = some d ∧ (s.seat d = .leaving (some q) → s'.seat d = .leaving (some q)))
    (ha : ∀ q, q ∈ s'.sleepers ∨ q ∈ s'.waiting → (s'.task q).state = .zzz)
    (hk : ∀ q, (s'.cont q).Parking → (s'.task q).state = .zzz) (hid : s.lastId ≤ s'.lastId) :
    Buried s' where
  away := fun q hq hm => h.away q (hd q hq) (hp q (hd q hq) hm)
  left := fun q d hq ho =>
    have hl := hl q d (hd q hq) ho
    hl.2 (h.left q d (hd q hq) hl.1)
  asleep := ha
  parking := hk
  known := fun q hq => Nat.le_trans (h.known q (hd q hq)) hid

theorem not_doomed (hP : Placed s) (hh : s.Holds c p)
    (hc : s.seat c ≠ .leaving (some p)) : ¬ s.Doomed p := fun hd =>
  hc (h.left p c hd ((hP.owner p c).mpr hh))

theorem not_doomed_of_running (hP : Placed s) (hr : s.Running c p) : ¬ s.Doomed p :=
  h.not_doomed hP (.inl hr.2) (by rw [hr.1]; simp)

variable {pc : Pc} {k : Cont} {pid : ℕ}

omit h in
theorem doomed_goto {q : ℕ} (hd : (s.goto c pc).Doomed q) : s.Doomed q ∨ q ∈ pc.burying := by
  obtain hd | hd | ⟨d, hd⟩ | hd := hd
  · exact .inl (.inl hd)
  · exact .inl (.inr (.inl hd))
  · obtain rfl | hdc := eq_or_ne d c
    · exact .inr (by simpa [Sched.goto] using hd)
    · exact .inl (.inr (.inr (.inl ⟨d, by simpa [Sched.goto, hdc] using hd⟩)))
  · exact .inl (.inr (.inr (.inr hd)))

omit h in
theorem doomed_setCont {q : ℕ} (hd : (s.setCont p k).Doomed q) : s.Doomed q ∨ q ∈ k.burying := by
  obtain hd | hd | hd | ⟨t, hd⟩ := hd
  · exact .inl (.inl hd)
  · exact .inl (.inr (.inl hd))
  · exact .inl (.inr (.inr (.inl hd)))
  · obtain rfl | ht := eq_or_ne t p
    · exact .inr (by simpa [Sched.setCont] using hd)
    · exact .inl (.inr (.inr (.inr ⟨t, by simpa [Sched.setCont, ht] using hd⟩)))

/-- A CPU goes on; what it newly buries is in no list, and it does not drop its hold of a doomed
task. -/
theorem turn (pc : Pc) (hnew : ∀ q ∈ pc.burying, s.Doomed q ∨ q ∉ s.places ∧ q ≤ s.lastId ∧
      ∀ d, (s.task q).owner = some d → d = c ∧ pc.seat = .leaving (some q))
    (hseat : ∀ q, s.Doomed q → (s.task q).owner = some c → s.seat c = .leaving (some q) →
      pc.seat = .leaving (some q)) : Buried (s.goto c pc) where
  away := by
    intro q hq
    obtain hq | hq := doomed_goto hq
    · exact h.away q hq
    · obtain hq | hq := hnew q hq
      · exact h.away q hq
      · exact hq.1
  left := by
    intro q d hq ho
    have hold : s.Doomed q → (s.goto c pc).seat d = .leaving (some q) := by
      intro hdoom
      have hl := h.left q d hdoom ho
      obtain rfl | hd := eq_or_ne d c
      · simpa [seat, Sched.goto] using hseat q hdoom ho hl
      · simpa [seat, Sched.goto, hd] using hl
    obtain hq | hq := doomed_goto hq
    · exact hold hq
    · obtain hq | hq := hnew q hq
      · exact hold hq
      · obtain ⟨rfl, hs⟩ := hq.2.2 d ho
        simpa [seat, Sched.goto] using hs
  asleep := h.asleep
  parking := h.parking
  known := by
    intro q hq
    obtain hq | hq := doomed_goto hq
    · exact h.known q hq
    · exact (hnew q hq).elim (h.known q) fun hq => hq.2.1

theorem setCont (hpk : k.Parking → (s.task p).state = .zzz)
    (hnew : ∀ q ∈ k.burying, s.Doomed q ∨ q ∉ s.places ∧ q ≤ s.lastId ∧
      ∀ d, (s.task q).owner = some d → s.seat d = .leaving (some q)) : Buried (s.setCont p k) where
  away := by
    intro q hq
    obtain hq | hq := doomed_setCont hq
    · exact h.away q hq
    · exact (hnew q hq).elim (h.away q) fun hq => hq.1
  left := by
    intro q d hq ho
    obtain hq | hq := doomed_setCont hq
    · exact h.left q d hq ho
    · exact (hnew q hq).elim (fun hq => h.left q d hq ho) fun hq => hq.2.2 d ho
  asleep := h.asleep
  parking := by
    intro q hq
    obtain rfl | hqp := eq_or_ne q p
    · exact hpk (by simpa [Sched.setCont] using hq)
    · exact h.parking q (by simpa [Sched.setCont, hqp] using hq)
  known := by
    intro q hq
    obtain hq | hq := doomed_setCont hq
    · exact h.known q hq
    · exact (hnew q hq).elim (h.known q) fun hq => hq.2.1

/-- A task's record changes; only its owner and, while it parks, its state matter. -/
theorem modTask (p : ℕ) (f : SchedTask → SchedTask)
    (ho : (f (s.task p)).owner = (s.task p).owner ∨ (f (s.task p)).owner = none ∨ ¬ s.Doomed p)
    (hst : (f (s.task p)).state = (s.task p).state ∨
      p ∉ s.sleepers ∧ p ∉ s.waiting ∧ ¬ (s.cont p).Parking) : Buried (s.modTask p f) := by
  have hstate : ∀ q, (q ∈ s.sleepers ∨ q ∈ s.waiting ∨ (s.cont q).Parking) →
      (s.task q).state = .zzz → ((s.modTask p f).task q).state = .zzz := by
    intro q hq hz
    obtain rfl | hqp := eq_or_ne q p
    · obtain hst | hst := hst
      · simpa [Sched.modTask, hst] using hz
      · exact absurd hq (by simp [hst])
    · simpa [Sched.modTask, hqp] using hz
  refine h.mono (fun _ hd => hd) (fun _ _ hq => hq) (fun q d hdoom hq => ⟨?_, id⟩)
    (fun q hq => hstate q (hq.imp_right .inl) (h.asleep q hq))
    (fun q hq => hstate q (.inr (.inr hq)) (h.parking q hq)) (Nat.le_refl _)
  obtain rfl | hqp := eq_or_ne q p
  · simp only [Sched.modTask, Function.update_self] at hq
    obtain ho | ho | ho := ho
    · rwa [ho] at hq
    · simp [ho] at hq
    · exact absurd hdoom ho
  · simpa [Sched.modTask, hqp] using hq

theorem thin {queue : List ℕ} {sleeping waiters : List (ℕ × ℕ)}
    (hq : queue.Sublist s.queue) (hsl : sleeping.Sublist s.sleeping)
    (hwt : waiters.Sublist s.waiters) :
    Buried { s with queue := queue, sleeping := sleeping, waiters := waiters } := by
  have hsl' : (sleeping.map Prod.snd).Sublist s.sleepers := hsl.map _
  have hwt' : (waiters.map Prod.fst).Sublist s.waiting := hwt.map _
  have hplaces :
      (places { s with queue := queue, sleeping := sleeping, waiters := waiters }).Sublist
        s.places :=
    hq.append ((hsl'.append hwt').append (.refl _))
  exact h.mono (fun _ hd => hd) (fun q _ hm => hplaces.subset hm) (fun q d _ ho => ⟨ho, id⟩)
    (fun q hm => h.asleep q (hm.imp (hsl'.subset ·) (hwt'.subset ·))) h.parking (Nat.le_refl _)

theorem wake {sleeping waiters : List (ℕ × ℕ)} {waking : List (Waker × ℕ)}
    {task : ℕ → SchedTask} (hw : Wakes s sleeping waiters waking task) :
    Buried { s with sleeping := sleeping, waiters := waiters, waking := waking, task := task } := by
  have hsl : (sleeping.map Prod.snd).Sublist s.sleepers := hw.sleeping.map _
  have hwt : (waiters.map Prod.fst).Sublist s.waiting := hw.waiters.map _
  have hplaces : (s.queue ++ (sleeping.map Prod.snd ++ waiters.map Prod.fst ++
      waking.map Prod.snd)).Perm s.places := hw.perm.append_left _
  have howner : ∀ q, (task q).owner = (s.task q).owner := fun q => by
    rcases hw.task q with hq | hq <;> rw [hq]; rfl
  have hstate : ∀ q, (task q).state = (s.task q).state := fun q => by
    rcases hw.task q with hq | hq <;> rw [hq]; rfl
  exact h.mono (fun _ hd => hd) (fun q _ hm => hplaces.mem_iff.mp hm)
    (fun q d _ ho => ⟨(howner q).symm.trans ho, id⟩)
    (fun q hq => (hstate q).trans (h.asleep q (hq.imp (hsl.subset ·) (hwt.subset ·))))
    (fun q hq => (hstate q).trans (h.parking q hq)) (Nat.le_refl _)

theorem flushed (hP : Placed s) {w : Waker}
    (hdue : ∀ q ∈ s.due w, (s.task q).owner = none) : Buried (s.flushed w) := by
  refine h.mono (fun _ hd => hd) (fun q _ hm => (Placed.places_flushed_perm s w).mem_iff.mp hm)
    (fun q d _ ho => ⟨(Placed.flushed_owner w q).symm.trans ho, id⟩) (fun q hq => ?_)
    (fun q hq => ?_) (Nat.le_refl _)
  · rw [hP.flushed_parked hq]
    exact h.asleep q hq
  · rw [hP.flushed_parking hdue hq]
    exact h.parking q hq

theorem enlist (queue : List ℕ) (sleeping waiters : List (ℕ × ℕ)) (hp : ¬ s.Doomed p)
    (hq : ∀ q ∈ queue, q ∈ s.queue ∨ q = p)
    (hsl : ∀ q ∈ sleeping.map Prod.snd, q ∈ s.sleepers ∨ q = p ∧ (s.task p).state = .zzz)
    (hwt : ∀ q ∈ waiters.map Prod.fst, q ∈ s.waiting ∨ q = p ∧ (s.task p).state = .zzz) :
    Buried { s with queue := queue, sleeping := sleeping, waiters := waiters } := by
  refine h.mono (fun _ hd => hd) (fun q hd hm => ?_) (fun q d _ ho => ⟨ho, id⟩) (fun q hm => ?_)
    h.parking (Nat.le_refl _)
  · have hqp : q ≠ p := by rintro rfl; exact hp hd
    rw [Placed.mem_places] at hm ⊢
    obtain hm | hm | hm | hm := hm
    · exact .inl ((hq q hm).resolve_right hqp)
    · exact .inr (.inl ((hsl q hm).resolve_right fun hx => hqp hx.1))
    · exact .inr (.inr (.inl ((hwt q hm).resolve_right fun hx => hqp hx.1)))
    · exact .inr (.inr (.inr hm))
  · obtain hm | hm := hm
    · obtain hm | ⟨rfl, hz⟩ := hsl q hm
      · exact h.asleep q (.inl hm)
      · exact hz
    · obtain hm | ⟨rfl, hz⟩ := hwt q hm
      · exact h.asleep q (.inr hm)
      · exact hz

/-- The graveyard's lists change, and nobody new is in them. -/
theorem shuffle (zombies reclaim : List ℕ) (consumed : List (ℕ × ℕ))
    (hz : ∀ q ∈ zombies, s.Doomed q) (hr : ∀ q ∈ reclaim, s.Doomed q) :
    Buried { s with zombies := zombies, reclaim := reclaim, consumed := consumed } := by
  have hd : ∀ q, Doomed { s with zombies := zombies, reclaim := reclaim, consumed := consumed } q →
      s.Doomed q := by
    rintro q (hq | hq | hq | hq)
    · exact hz q hq
    · exact hr q hq
    · exact .inr (.inr (.inl hq))
    · exact .inr (.inr (.inr hq))
  exact h.mono hd (fun _ _ hm => hm) (fun q d _ ho => ⟨ho, id⟩) h.asleep h.parking (Nat.le_refl _)

/-- A parked task is not doomed, and so nobody's record but its own says it is dead. -/
theorem not_parked_of_dead (hst : (s.task p).state ≠ .zzz) : p ∉ s.sleepers ∧ p ∉ s.waiting :=
  ⟨fun hs => hst (h.asleep p (.inl hs)), fun hw => hst (h.asleep p (.inr hw))⟩

/-- The outgoing task of a pass, once dead, is in no list. -/
theorem not_placed_of_dead (hP : Placed s) (hst : (s.task p).state = .dead)
    (hown : (s.task p).owner = some c) (hpq : p ∉ s.queue) : p ∉ s.places := by
  have hpark := h.not_parked_of_dead (p := p) (by rw [hst]; simp)
  rw [Placed.mem_places]
  rintro (hm | hm | hm | hm)
  · exact hpq hm
  · exact hpark.1 hm
  · exact hpark.2 hm
  · exact absurd (hP.unowned p hm) (by simp [hown])

/-! ### The moves -/

/-- A turn that buries nobody and keeps the seat, or leaves no doomed task behind. -/
theorem quietTurn (pc : Pc) (hb : pc.burying = [])
    (hseat : pc.seat = s.seat c ∨ ∀ q, s.seat c ≠ .leaving (some q)) : Buried (s.goto c pc) :=
  h.turn pc (fun q hq => by simp [hb] at hq) fun q _ _ hl =>
    hseat.elim (fun he => he.trans hl) fun hn => absurd hl (hn q)

theorem pass (ht : PassTurn s c (s.pc c) pc) : Buried (s.goto c pc) := by
  refine h.quietTurn _ ?_ (.inl ht.seat_eq)
  generalize s.pc c = pc0 at ht
  cases ht with
  | early h1 h2 =>
    rename_i st st'
    cases st' <;> first | rfl | cases h2
  | _ => rfl

omit h in
theorem burying_of_plain (hk : k.Plain) : k.burying = [] := by
  cases k <;> first | rfl | exact hk.elim

theorem cont (ht : ContTurn s p (s.cont p) k) : Buried (s.setCont p k) := by
  have hk : ¬ k.Parking ∧ k.burying = [] := by
    generalize s.cont p = k0 at ht
    cases ht with
    | plain h1 h2 _ => exact ⟨h2.notParking, burying_of_plain h2⟩
    | _ => exact ⟨id, rfl⟩
  exact h.setCont (fun hn => absurd hn hk.1) fun q hq => by simp [hk.2] at hq

theorem plain (hk : k.Plain) : Buried (s.setCont p k) :=
  h.setCont (fun hn => absurd hn hk.notParking) fun q hq => by simp [burying_of_plain hk] at hq

variable (hP : Placed s)
include hP

theorem recovered {child : ℕ} (hr : s.Running c p)
    (hp : p ∉ s.sleepers ∧ p ∉ s.waiting) (hk : ¬ (s.cont p).Parking) :
    Buried (s.recovered c p child) :=
  (h.modTask p _ (.inl ((hP.owner p c).mpr (.inl hr.2)).symm) (.inr ⟨hp.1, hp.2, hk⟩)).plain trivial

theorem claim {n : ℕ} (credit : ℕ) {prev : Option ℕ}
    (hc : s.pc c = .sched (.dispatch prev)) (hn : n ∈ s.queue) (ho : (s.task n).owner = none)
    (hpc : pc = .sched (.switch prev) ∨
      ∃ p, prev = some p ∧ pc = .sched (.park p) ∧ (s.task p).state = .dead) :
    Buried ((s.claim c n credit).goto c pc) := by
  have hseat : s.seat c = .taken prev := by rw [seat, hc]; rfl
  have hnq := hP.notMem_of_queue hn
  have hnd : ¬ s.Doomed n := fun hd => h.away n hd (Placed.mem_places.mpr (.inl hn))
  have h0 := (h.modTask n (fun t => { t with queued := false, owner := some c, state := .running })
    (.inr (.inr hnd)) (.inr ⟨hnq.1, hnq.2.1, hP.notParking_of_unowned ho⟩)).thin
    (erase_sublist : (s.queue.erase n).Sublist _) (.refl _) (.refl _)
  have h1 : Buried (s.claim c n credit) := { h0 with }
  refine h1.turn _ (fun q hq => .inr ?_) fun q _ _ hl => ?_
  · obtain rfl | ⟨p, rfl, rfl, hst⟩ := hpc
    · simp [Pc.burying] at hq
    · obtain rfl : q = p := by simpa [Pc.burying] using hq
      obtain ⟨hown, hpq⟩ := hP.outgoing hc
      have hpn : q ≠ n := by rintro rfl; exact hpq hn
      have hpl := h.not_placed_of_dead hP hst hown hpq
      refine ⟨fun hm => hpl ?_, hP.le_lastId ((hP.owner q c).mp hown), fun d hd => ⟨?_, rfl⟩⟩
      · exact (erase_sublist.append (.refl _)).subset hm
      · have : (s.task q).owner = some d := by
          simpa [Sched.claim, Sched.modTask, publish, hpn] using hd
        exact Option.some.inj (this.symm.trans hown)
  · exact absurd (show s.seat c = _ from hl) (by simp [hseat])

theorem fresh (s' : Sched) (hid : s'.lastId = s.lastId + 1)
    (ht : ∀ q, q ≠ s.lastId + 1 → s'.task q = s.task q)
    (hc : ∀ q, s'.cont q = if q = s.lastId + 1 then .user else s.cont q)
    (hpc : s'.pc = s.pc) (hsl : s'.sleeping = s.sleeping) (hwt : s'.waiters = s.waiters)
    (hz : s'.zombies = s.zombies) (hr : s'.reclaim = s.reclaim)
    (hq : ∀ q ∈ s'.places, q ∈ s.places ∨ q = s.lastId + 1) : Buried s' := by
  have hn := (hP.fresh (s.lastId + 1) (Nat.lt_succ_self _)).1
  have hne : ∀ q, s.Doomed q → q ≠ s.lastId + 1 := by
    rintro q hd rfl
    exact absurd (h.known _ hd) (Nat.not_succ_le_self _)
  refine h.mono (fun q hd => ?_) (fun q hd hm => (hq q hm).resolve_right (hne q hd))
    (fun q d hd ho => ⟨?_, fun hl => ?_⟩) (fun q hm => ?_) (fun q hk => ?_) (by rw [hid]; omega)
  · obtain hd | hd | ⟨d, hd⟩ | ⟨t, hd⟩ := hd
    · exact .inl (hz ▸ hd)
    · exact .inr (.inl (hr ▸ hd))
    · exact .inr (.inr (.inl ⟨d, by rwa [hpc] at hd⟩))
    · rw [hc] at hd
      split_ifs at hd with htn
      · simp [Cont.burying] at hd
      · exact .inr (.inr (.inr ⟨t, hd⟩))
  · rwa [ht q (hne q hd)] at ho
  · rwa [seat, hpc]
  · rw [sleepers, hsl, waiting, hwt] at hm
    have hqn : q ≠ s.lastId + 1 := by
      rintro rfl
      exact hn (Placed.mem_places.mpr (.inr (hm.imp id .inl)))
    rw [ht q hqn]
    exact h.asleep q hm
  · rw [hc] at hk
    split_ifs at hk with hqn
    · exact hk.elim
    · rw [ht q hqn]
      exact h.parking q hk

theorem unpark {child : ℕ} (hr : s.Running c p) (hk : s.cont p = .waitUnpark child) :
    Buried ({ s with waiters := s.waiters.eraseP fun e => e.1 = p }.recovered c p child) := by
  have hPs : Placed { s with waiters := s.waiters.eraseP fun e => e.1 = p } :=
    hP.thin (.refl _) eraseP_sublist
  have hs : Buried { s with waiters := s.waiters.eraseP fun e => e.1 = p } :=
    { h.thin (.refl _) (.refl _) eraseP_sublist with }
  refine hs.recovered hPs hr ⟨hP.awake c p (.inl ⟨hr.2, .inl hr.1⟩), ?_⟩ (hk ▸ id)
  show p ∉ (s.waiters.eraseP fun e => e.1 = p).map Prod.fst
  rw [Placed.map_eraseP]
  exact hP.nodup_parked.2.not_mem_erase

theorem resume (hc : s.pc c = .sched (.resume p)) :
    Buried ((((s.clearWake p).setState p .running).publish c (some p)).goto c .exec) := by
  obtain ⟨hseat, hpark⟩ := hP.unparked hc
  have hs := ((h.modTask p (fun t => { t with wakePending := false }) (.inl rfl) (.inl rfl)).modTask
    p (fun t => { t with state := .running }) (.inl rfl) (.inr hpark)).quietTurn (c := c)
    .exec rfl (.inr (by show ∀ q, s.seat c ≠ _; rw [hseat]; simp))
  exact { hs with }

theorem swap {n credit : ℕ} (hc : s.pc c = .sched (.dispatch (some p))) (hn : n ∈ s.queue)
    (ho : (s.task n).owner = none) (hz : (s.task p).state ≠ .zzz) :
    Buried (((s.claim c n credit).goto c (.sched (.switch (some p)))).requeue p) := by
  obtain ⟨hown, hpq⟩ := hP.outgoing hc
  have hseat : s.seat c = .taken (some p) := by rw [seat, hc]; rfl
  have hpn : p ≠ n := by rintro rfl; exact hpq hn
  have hnd : ¬ s.Doomed p := h.not_doomed hP ((hP.owner p c).mp hown) (by rw [hseat]; simp)
  have hpark := h.not_parked_of_dead hz
  have h1 := h.claim hP credit hc hn ho (.inl rfl)
  have h2 := h1.modTask p (fun t => { t with state := .ready, queued := true }) (.inl rfl)
    (.inr ⟨hpark.1, hpark.2, fun hk => hz (h.parking p hk)⟩)
  have h3 := h2.enlist (p := p) (s.queue.erase n ++ [p]) s.sleeping s.waiters (fun hd => ?_)
    (fun q hq => ?_) (fun q hq => .inl hq) (fun q hq => .inl hq)
  · exact { h3 with }
  · obtain hd | hd := doomed_goto (s := s.claim c n credit) hd
    · exact hnd hd
    · simp [Pc.burying] at hd
  · exact (mem_append.mp hq).imp_right mem_singleton.mp

theorem vacate {prev : Option ℕ} (hc : s.pc c = .sched (.dispatch prev))
    (hpc : prev = none ∧ pc = .exec ∨ pc = .sched (.switch prev) ∨
      ∃ p, prev = some p ∧ pc = .sched (.park p) ∧ (s.task p).state = .dead) :
    Buried ((s.publish c none).goto c pc) := by
  have hseat : s.seat c = .taken prev := by rw [seat, hc]; rfl
  have hs : Buried (s.goto c pc) := by
    refine h.turn _ (fun q hq => .inr ?_) fun q _ _ hl => absurd hl (by simp [hseat])
    obtain ⟨rfl, rfl⟩ | rfl | ⟨p, rfl, rfl, hst⟩ := hpc
    · simp [Pc.burying] at hq
    · simp [Pc.burying] at hq
    · obtain rfl : q = p := by simpa [Pc.burying] using hq
      obtain ⟨hown, hpq⟩ := hP.outgoing hc
      exact ⟨h.not_placed_of_dead hP hst hown hpq, hP.le_lastId ((hP.owner q c).mp hown),
        fun d hd => ⟨Option.some.inj (hd.symm.trans hown), rfl⟩⟩
  exact { hs with }

omit hP in
theorem release (hc : s.pc c = .sched (.switch (some p))) :
    Buried ((s.modTask p fun t => { t with owner := none }).goto c .exec) := by
  have hseat : s.seat c = .leaving (some p) := by rw [seat, hc]; rfl
  refine (h.modTask p _ (.inr (.inl rfl)) (.inl rfl)).turn _
    (fun q hq => by simp [Pc.burying] at hq) fun q _ ho hl => ?_
  -- the only doomed task this CPU could own is the one it has just released
  obtain rfl : p = q := by simpa [hseat] using (show s.seat c = _ from hl)
  simp [Sched.modTask] at ho

omit hP in
/-- A task that `kill` has just taken out of its only list. -/
theorem killTaken (hn : pid ∉ s.places) (hid : pid ≤ s.lastId)
    (ho : ∀ d, (s.task pid).owner = some d → s.seat d = .leaving (some pid)) :
    Buried (s.setCont p (.killPark pid)) := by
  refine h.setCont (fun hk => hk.elim) fun q hq => .inr ?_
  obtain rfl : q = pid := by simpa [Cont.burying] using hq
  exact ⟨hn, hid, ho⟩

theorem killQueue (hp : pid ∈ s.queue) :
    Buried { (s.modTask pid fun t => { t with queued := false }).setCont p (.killPark pid) with
      queue := s.queue.erase pid } := by
  have hq := hP.notMem_of_queue hp
  have hnotin : pid ∉ s.queue.erase pid := (nodup_append.mp hP.nodup).1.not_mem_erase
  have h1 := (h.modTask pid (fun t => { t with queued := false }) (.inl rfl) (.inl rfl)).thin
    (erase_sublist : (s.queue.erase pid).Sublist _) (.refl _) (.refl _)
  refine { h1.killTaken (p := p) (fun hm => ?_) (hP.known (Placed.mem_places.mpr (.inl hp)))
    fun d hd => hP.leaving pid d hp (by simpa [Sched.modTask] using hd) with }
  obtain hm | hm | hm | hm := Placed.mem_places.mp hm
  · exact hnotin hm
  · exact hq.1 hm
  · exact hq.2.1 hm
  · exact hq.2.2 hm

theorem killSleeping (hp : pid ∈ s.sleepers) (ho : (s.task pid).owner = none) :
    Buried { (s.clearWake pid).setCont p (.killPark pid) with
      sleeping := s.sleeping.eraseP fun e => e.2 = pid } := by
  have hnotin : pid ∉ (s.sleeping.eraseP fun e => e.2 = pid).map Prod.snd := by
    rw [Placed.map_eraseP]
    exact hP.nodup_parked.1.not_mem_erase
  have h1 := (h.modTask pid (fun t => { t with wakePending := false }) (.inl rfl) (.inl rfl)).thin
    (.refl _) (eraseP_sublist : (s.sleeping.eraseP fun e => decide (e.2 = pid)).Sublist _)
    (.refl _)
  refine { h1.killTaken (p := p) (fun hm => ?_) (hP.known (Placed.mem_places.mpr (.inr (.inl hp))))
    fun d hd => by simp [Sched.modTask, ho] at hd with }
  obtain hm | hm | hm | hm := Placed.mem_places.mp hm
  · exact (hP.notMem_of_queue hm).1 hp
  · exact hnotin hm
  · exact hP.notMem_waiting_of_sleepers hp hm
  · exact (hP.notMem_of_inFlight hm).2.1 hp

theorem killWaiters (hp : pid ∈ s.waiting) (ho : (s.task pid).owner = none) :
    Buried { (s.clearWake pid).setCont p (.killPark pid) with
      waiters := s.waiters.eraseP fun e => e.1 = pid } := by
  have hnotin : pid ∉ (s.waiters.eraseP fun e => e.1 = pid).map Prod.fst := by
    rw [Placed.map_eraseP]
    exact hP.nodup_parked.2.not_mem_erase
  have h1 := (h.modTask pid (fun t => { t with wakePending := false }) (.inl rfl) (.inl rfl)).thin
    (.refl _) (.refl _)
    (eraseP_sublist : (s.waiters.eraseP fun e => decide (e.1 = pid)).Sublist _)
  refine { h1.killTaken (p := p) (fun hm => ?_)
    (hP.known (Placed.mem_places.mpr (.inr (.inr (.inl hp)))))
    fun d hd => by simp [Sched.modTask, ho] at hd with }
  obtain hm | hm | hm | hm := Placed.mem_places.mp hm
  · exact (hP.notMem_of_queue hm).2.1 hp
  · exact hP.notMem_waiting_of_sleepers hm hp
  · exact hnotin hm
  · exact (hP.notMem_of_inFlight hm).2.2 hp

theorem killPark (hk : s.cont p = .killPark pid) : Buried { (s.modTask pid fun t =>
        { t with state := .dead, exitCode := killedExitCode }).setCont p (.wakeWaiters pid) with
      zombies := s.zombies ++ [pid] } := by
  have hd : s.Doomed pid := .inr (.inr (.inr ⟨p, by rw [hk]; simp [Cont.burying]⟩))
  have hpl := h.away pid hd
  simp only [Placed.mem_places, not_or] at hpl
  have hpk : ¬ (s.cont pid).Parking := fun hk => by
    obtain ⟨-, d, hr⟩ := hP.parking pid hk
    exact h.not_doomed_of_running hP hr hd
  have h1 := h.modTask pid (fun t => { t with state := .dead, exitCode := killedExitCode })
    (.inl rfl) (.inr ⟨hpl.2.1, hpl.2.2.1, hpk⟩)
  have h2 := h1.shuffle (s.zombies ++ [pid]) s.reclaim s.consumed (fun q hq => ?_)
    fun q hq => .inr (.inl hq)
  · exact { h2.setCont (p := p) (k := .wakeWaiters pid) (fun hn => hn.elim)
      fun q hq => by simp [Cont.burying] at hq with }
  · obtain hq | hq := mem_append.mp hq
    · exact .inl hq
    · rw [mem_singleton.mp hq]
      exact hd

omit hP

omit h

/-- **Every move of a run that respects the two rules of `kill` keeps the dead buried.** -/
theorem move (hk1 : R.killAwake) (hk2 : R.killReleased) (h : Buried s) (hP : Placed s)
    (m : Move R s s') : Buried s' := by
  cases m with
  | pass c pc ht => exact h.pass ht
  | cont c p k hr ht => exact h.cont ht
  | enter c hc hp => exact h.quietTurn _ rfl (.inr fun _ e => by cases hc.symm.trans e)
  | commit c p child hr hk hz =>
    exact (h.quietTurn (.sched .wake) rfl (.inr (by rw [hr.1]; simp))).plain trivial
  | idle c pc hc hcur hpc =>
    exact h.quietTurn _ (by rcases hpc with rfl | ⟨rfl, -⟩ <;> rfl)
      (.inr fun _ e => by cases hc.symm.trans e)
  | idleDone c hc =>
    refine h.quietTurn _ rfl (.inr ?_)
    rw [seat]
    rcases hc with hc | hc <;> rw [hc] <;> simp [Pc.seat]
  | note p kp code => exact h.modTask p _ (.inl rfl) (.inl rfl)
  | exit c p hr hk =>
    have hp := hP.notMem_parked hr hk.notRechecking
    exact h.modTask p _ (.inl rfl) (.inr ⟨hp.1, hp.2, hk.notParking⟩)
  | killed c p hc hz =>
    have hst := hz hk1
    have hp := h.not_parked_of_dead hst
    exact h.modTask p _ (.inl rfl) (.inr ⟨hp.1, hp.2, fun hk => hst (h.parking p hk)⟩)
  | mark c p k hr hpl hk _ =>
    have hp := hP.notMem_parked hr hpl.notRechecking
    refine (h.modTask p _ (.inl rfl) (.inr ⟨hp.1, hp.2, hpl.notParking⟩)).setCont (fun _ => ?_)
      fun q hq => ?_
    · simp [Sched.modTask]
    · cases k <;> first | exact hk.elim | simp [Cont.burying] at hq
  | wake sleeping waiters waking task hw => exact h.wake hw
  | flush w hdue => exact h.flushed hP fun q hq => (hdue q hq).1
  | sleepInsert c p d hr hk =>
    have hz := h.parking p (hk ▸ trivial)
    have hnd := h.not_doomed_of_running hP hr
    have hs := (h.plain (p := p) (k := .user) trivial).quietTurn (c := c) (.sched .wake) rfl
      (.inr (by show ∀ q, s.seat c ≠ _; rw [hr.1]; simp))
    refine hs.enlist (p := p) s.queue _ s.waiters ?_ (fun q hq => .inl hq) (fun q hq => ?_)
      fun q hq => .inl hq
    · intro hd
      obtain hd | hd := doomed_goto hd
      · exact (doomed_setCont hd).elim hnd (by simp [Cont.burying])
      · simp [Pc.burying] at hd
    · have hperm := (Placed.insertSleeper_perm d p s.sleeping).map Prod.snd
      obtain rfl | hq := mem_cons.mp (hperm.mem_iff.mp hq)
      · exact .inr ⟨rfl, hz⟩
      · exact .inl hq
  | waitPush c p child hr hk =>
    have hz := h.parking p (hk ▸ trivial)
    have hnd := h.not_doomed_of_running hP hr
    have hs := h.setCont (p := p) (k := .waitRecheck child) (fun hn => hn.elim)
      fun q hq => by simp [Cont.burying] at hq
    refine hs.enlist (p := p) s.queue s.sleeping _ ?_ (fun q hq => .inl hq)
      (fun q hq => .inl hq) fun q hq => ?_
    · exact fun hd => (doomed_setCont hd).elim hnd (by simp [Cont.burying])
    · simp only [map_append, map_cons, map_nil, mem_append,
        mem_singleton] at hq
      exact hq.imp_right fun hqp => ⟨hqp, hz⟩
  | unpark c p child hr hk => exact h.unpark hP hr hk
  | recover c p child hr hk =>
    exact h.recovered hP hr (hP.notMem_parked hr (hk ▸ id)) (hk ▸ id)
  | take c hc =>
    exact { h.quietTurn (c := c) (.sched (.killCheck (s.current c))) rfl
      (.inr (by rw [seat, hc]; simp [Pc.seat, Stage.seat])) with }
  | unparkSleeping c p hc hp =>
    exact (h.thin (.refl _) eraseP_sublist (.refl _)).quietTurn _ rfl
      (.inr (by show ∀ q, s.seat c ≠ _; rw [seat, hc]; simp [Pc.seat, Stage.seat]))
  | unparkWaiters c p hc hp =>
    exact (h.thin (.refl _) (.refl _) eraseP_sublist).quietTurn _ rfl
      (.inr (by show ∀ q, s.seat c ≠ _; rw [seat, hc]; simp [Pc.seat, Stage.seat]))
  | resume c p hc => exact h.resume hP hc
  | keep c p hc hd hz =>
    exact { h.quietTurn (c := c) .exec rfl
      (.inr (by rw [seat, hc]; simp [Pc.seat, Stage.seat])) with }
  | claim c n credit prev pc hc hn ho hpc => exact h.claim hP credit hc hn ho hpc
  | swap c n credit p hc hn ho hd hz => exact h.swap hP hc hn ho hz
  | vacate c prev pc hc hpc => exact h.vacate hP hc hpc
  | release c p hc => exact h.release hc
  | switched c hc =>
    exact h.quietTurn _ rfl (.inr (by rw [seat, hc]; simp [Pc.seat, Stage.seat]))
  | parkZombie c p hc =>
    have hd : s.Doomed p := .inr (.inr (.inl ⟨c, by rw [hc]; simp [Pc.burying]⟩))
    have hs := h.shuffle (s.zombies ++ [p]) s.reclaim s.consumed (fun q hq => ?_)
      fun q hq => .inr (.inl hq)
    · exact hs.quietTurn _ rfl (.inl (by show _ = s.seat c; rw [seat, hc]; rfl))
    · obtain hq | hq := mem_append.mp hq
      · exact .inl hq
      · rwa [mem_singleton.mp hq]
  | killQueue c p pid hr hk hp => exact h.killQueue hP hp
  | killSleeping c p pid hr hk hp ho => exact h.killSleeping hP hp (ho hk2)
  | killWaiters c p pid hr hk hp ho => exact h.killWaiters hP hp (ho hk2)
  | killPark c p pid hr hk => exact h.killPark hP hk
  | consume c p child hr hk hz _ _ =>
    have hs := h.setCont (p := p) (k := .waitReclaim child) (fun hn => hn.elim) fun q hq =>
      .inl (by rw [show q = child by simpa [Cont.burying] using hq]; exact .inl hz)
    exact hs.shuffle _ _ _ (fun q hq => .inl (mem_of_mem_erase hq)) fun q hq => .inr (.inl hq)
  | reclaim c p child hr hk =>
    have hd : s.Doomed child := .inr (.inr (.inr ⟨p, by rw [hk]; simp [Cont.burying]⟩))
    have hs := h.shuffle s.zombies (s.reclaim ++ [child]) s.consumed (fun q hq => .inl hq)
      fun q hq => ?_
    · exact { hs.plain (p := p) (k := .user) trivial with }
    · obtain hq | hq := mem_append.mp hq
      · exact .inr (.inl hq)
      · rwa [mem_singleton.mp hq]
  | drain c hc =>
    have hs := h.turn (c := c) (.reap (.free s.reclaim false)) (fun q hq => .inl (.inr (.inl hq)))
      fun q _ _ hl => absurd hl (by rw [seat, hc]; simp [Pc.seat])
    exact { hs.shuffle s.zombies [] s.consumed (fun q hq => .inl hq)
      fun q hq => by simp at hq with }
  | verdict c st st' hc hv =>
    refine h.turn _ (fun q hq => .inl (.inr (.inr (.inl ⟨c, ?_⟩)))) fun q _ _ hl =>
      absurd hl (by rw [seat, hc]; simp [Pc.seat])
    rw [hc]
    cases hv with
    | freed p ps orphans => exact mem_cons_of_mem _ hq
    | _ => simp [Pc.burying] at hq
  | remove c idx zombies freed hc hrm =>
    have hsub := removeAll_subset hrm
    have hs := h.turn (c := c) (.reap (.free freed true))
      (fun q hq => .inl (.inl (hsub.2 q hq))) fun q _ _ hl =>
        absurd hl (by rw [seat, hc]; simp [Pc.seat])
    exact { hs.shuffle zombies s.reclaim s.consumed (fun q hq => .inl (hsub.1 q hq))
      (fun q hq => .inr (.inl hq)) with }
  | spawn prio parent _ =>
    refine h.fresh hP (s.spawn prio parent) rfl (fun q hq => by simp [Sched.spawn, hq])
      (fun q => Function.update_apply ..) rfl rfl rfl rfl rfl fun q hq => ?_
    obtain hq | hq := mem_append.mp hq
    · obtain hq | hq := mem_append.mp hq
      · exact .inl (mem_append_left _ hq)
      · exact .inr (mem_singleton.mp hq)
    · exact .inl (mem_append_right _ hq)
  | launch c hc hcur =>
    exact h.fresh hP (s.launch c) rfl (fun q hq => by simp [Sched.launch, hq])
      (fun q => Function.update_apply ..) rfl rfl rfl rfl rfl fun q hq => .inl hq

theorem boot (n : ℕ) : Buried (Sched.boot n) where
  away := fun p _ => by simp [Placed.mem_places, Sched.boot, sleepers, waiting, inFlight]
  left := fun p c _ ho => by simp [Sched.boot, SchedTask.new] at ho
  asleep := fun p hp => by simp [Sched.boot, sleepers, waiting] at hp
  parking := fun p hp => hp.elim
  known := fun p hp => by simp [Doomed, Sched.boot, Pc.burying, Cont.burying] at hp

end Buried

/-! ## The dead are in no list -/

/-- **A dead task is in no run or wait list**, no task is queued twice, and none is current on two
CPUs. -/
structure Exclusive (s : Sched) : Prop where
  dead : ∀ p, p ∈ s.zombies ∨ p ∈ s.reclaim → p ∉ s.queue ∧ p ∉ s.sleepers ∧ p ∉ s.waiting
  queue : s.queue.Nodup
  current : ∀ c d p, s.current c = some p → s.current d = some p → d = c

/-- The two rules of `kill`: a pending kill finds its task awake, and no task is killed out of a
parked list while a CPU owns it. -/
def CleanKill (s : Sched) (a : SchedAction) : Prop := s.KillAwake a ∧ s.KillReleased a

instance CleanKill.decidable (s : Sched) (a : SchedAction) : Decidable (s.CleanKill a) :=
  inferInstanceAs (Decidable ((∀ p ∈ s.delivers a, (s.task p).state ≠ .zzz) ∧
    ∀ p ∈ s.unlists a, (s.task p).owner = none))

/-- The rules of `kill`. -/
def killRules : Rules := ⟨True, True, False, False, False⟩

theorem CleanKill.respects {a : SchedAction} (h : s.CleanKill a) : Respects killRules s a :=
  ⟨fun _ => h.1, fun _ => h.2, False.elim, False.elim, False.elim⟩

theorem Buried.exclusive (h : Buried s) (hP : Placed s) : Exclusive s where
  dead := by
    intro p hp
    have := h.away p (hp.imp id .inl)
    simp only [Placed.mem_places, not_or] at this
    exact ⟨this.1, this.2.1, this.2.2.1⟩
  queue := (nodup_append.mp hP.nodup).1
  current := fun c d p hc hd => hP.holds_unique (.inl hc) (.inl hd)

/-- In every run whose kills are clean, dead tasks are in no list, no task is queued twice and none
is current on two CPUs. -/
theorem exclusive_of_clean (n : ℕ) (as : List SchedAction) (s : Sched)
    (hclean : RunMeets schedStep CleanKill (boot n) as)
    (hrun : run schedStep (boot n) as = some s) : Exclusive s := by
  obtain ⟨hP, hB⟩ := run_of_moves (R := killRules) Buried n
    (fun s s' hP hB m => hB.move trivial trivial hP m) (Buried.boot n)
    (hclean.mono fun _ _ => CleanKill.respects) hrun
  exact hB.exclusive hP

open SchedAction in
/-- The second process runs on the second CPU. -/
def twoRunning : List SchedAction :=
  [idle 0 .launch, begin 0 (.spawn .interactive), idle 1 .schedule] ++
    List.replicate 10 (pass 1 0)

open SchedAction in
/-- It begins to sleep; the first process kills it between its mark and its entry in `SLEEPING`. -/
def killedWhileParking : List SchedAction :=
  twoRunning ++ [begin 1 (.sleepUntil 100), begin 0 (.kill 2), call 0, call 0, call 0,
    call 1] ++ List.replicate 10 (pass 1 0)

/-- It ends as a zombie that is still in `SLEEPING`. -/
theorem killedWhileParking_not_exclusive :
    ∃ s, run schedStep (boot 2) killedWhileParking = some s ∧ ¬ s.Exclusive := by
  exact exists_of_any (fun s => 2 ∈ s.zombies ∧ 2 ∈ s.sleepers) (by decide +kernel)
    fun s _ hlists h => (h.dead 2 (.inl hlists.1)).2.1 hlists.2

open SchedAction in
/-- It is killed while it runs, and dies at its next pass. -/
def killedWhileRunning : List SchedAction :=
  twoRunning ++ [begin 0 (.kill 2), call 0, call 0, call 0, preempt 1] ++
    List.replicate 10 (pass 1 0)

/-- That run is clean, and ends with the task in `ZOMBIES` only. -/
theorem killedWhileRunning_exclusive : RunMeets schedStep CleanKill (boot 2) killedWhileRunning ∧
    ∃ s, run schedStep (boot 2) killedWhileRunning = some s ∧ 2 ∈ s.zombies ∧ s.Exclusive := by
  have hclean : RunMeets schedStep CleanKill (boot 2) killedWhileRunning := by decide +kernel
  refine ⟨hclean, exists_of_any (fun s => 2 ∈ s.zombies) (by decide +kernel) fun s hs hz => ?_⟩
  exact ⟨hz, exclusive_of_clean 2 killedWhileRunning s hclean hs⟩

end Sched

end Bedrock
