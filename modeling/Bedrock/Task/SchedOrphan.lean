import Bedrock.Task.SchedReap
import Bedrock.Task.SchedScan

/-!
# Task/SchedOrphan — the orphan pass frees only orphans

The pass records the unowned zombies with their positions, lets go of the lock to look for each
one's parent, and comes back to remove by position those whose parent is zero or was not found:

    ZOMBIES  [z₀, z₁, z₂]  --scan--▸  (0, z₀), (2, z₂)  --judge--▸  2  --remove--▸  z₂

The positions are good only as long as `wait` takes no zombie in between, and a parent that changes
place during the scan may be passed over.  `orphansOnly_of_clean` says that this is all: in a run
whose sections are steady and whose scans are quiet, what is removed is what was judged, its parent
is zero or gone for good, and every zombie of a living parent is freed only after that parent has
taken it.
-/

namespace Bedrock

open List Option Function

/-- The candidates found to be orphans. -/
def Pc.judged : Pc → List Candidate
  | .reap (.judge _ _ idx) => idx
  | .reap (.remove idx) => idx
  | _ => []

namespace Sched

variable {R : Rules} {s s' : Sched} {c p : ℕ}

/-! ## Nobody comes back -/

section Live

variable {q : ℕ}

theorem live_goto {pc : Pc} (h : (s.goto c pc).Live q) : s.Live q ∨ pc.seat.prev = some q := by
  obtain h | h | ⟨d, h⟩ | h := h
  · exact .inl (.inl h)
  · exact .inl (.inr (.inl h))
  · obtain rfl | hd := eq_or_ne d c
    · obtain h | h := h
      · exact .inl (.inr (.inr (.inl ⟨d, .inl h⟩)))
      · exact .inr (by simpa [seat, goto] using h)
    · exact .inl (.inr (.inr (.inl ⟨d, by simpa [Holds, seat, goto, hd] using h⟩)))
  · exact .inl (.inr (.inr (.inr h)))

theorem live_of_goto {pc : Pc} (hpc : pc.seat.prev = none) (h : (s.goto c pc).Live q) : s.Live q :=
  (live_goto h).resolve_right (by simp [hpc])

theorem live_of_goto_prev {pc : Pc} (hpc : pc.seat.prev = (s.seat c).prev)
    (h : (s.goto c pc).Live q) : s.Live q :=
  (live_goto h).elim id fun hp => .inr (.inr (.inl ⟨c, .inr (hpc ▸ hp)⟩))

theorem live_setCont {k : Cont} (h : (s.setCont p k).Live q) : s.Live q ∨ k = .killPark q := by
  obtain h | h | h | ⟨t, h⟩ := h
  · exact .inl (.inl h)
  · exact .inl (.inr (.inl h))
  · exact .inl (.inr (.inr (.inl h)))
  · obtain rfl | ht := eq_or_ne t p
    · exact .inr (by simpa [setCont] using h)
    · exact .inl (.inr (.inr (.inr ⟨t, by simpa [setCont, ht] using h⟩)))

theorem live_publish {n : Option ℕ} (h : (s.publish c n).Live q) : s.Live q ∨ n = some q := by
  obtain h | h | ⟨d, h⟩ | h := h
  · exact .inl (.inl h)
  · exact .inl (.inr (.inl h))
  · obtain h | h := h
    · obtain rfl | hd := eq_or_ne d c
      · exact .inr (by simpa [publish] using h)
      · exact .inl (.inr (.inr (.inl ⟨d, .inl (by simpa [publish, hd] using h)⟩)))
    · exact .inl (.inr (.inr (.inl ⟨d, .inr h⟩)))
  · exact .inl (.inr (.inr (.inr h)))

theorem live_lists {queue zombies : List ℕ} {sleeping waiters : List (ℕ × ℕ)}
    {waking : List (Waker × ℕ)}
    (hp : ∀ q ∈ queue ++ (sleeping.map Prod.snd ++ waiters.map Prod.fst ++ waking.map Prod.snd),
      s.Live q) (hz : ∀ q ∈ zombies, s.Live q) (h : Live { s with
      queue := queue, sleeping := sleeping, waiters := waiters, waking := waking
      zombies := zombies } q) : s.Live q := by
  obtain h | h | h | h := h
  · exact hp q h
  · exact hz q h
  · exact .inr (.inr (.inl h))
  · exact .inr (.inr (.inr h))

theorem live_of_running (hr : s.Running c p) : s.Live p := .inr (.inr (.inl ⟨c, .inl hr.2⟩))

theorem live_of_prev (hc : (s.seat c).prev = some p) : s.Live p := .inr (.inr (.inl ⟨c, .inr hc⟩))

/-- Tasks leave the lists, except that one that is alive may enter. -/
theorem live_relist {queue : List ℕ} {sleeping waiters : List (ℕ × ℕ)} (hp : s.Live p)
    (hq : ∀ q ∈ queue, q ∈ s.queue ∨ q = p)
    (hsl : ∀ q ∈ sleeping.map Prod.snd, q ∈ s.sleepers ∨ q = p)
    (hwt : ∀ q ∈ waiters.map Prod.fst, q ∈ s.waiting ∨ q = p)
    (h : Live { s with queue := queue, sleeping := sleeping, waiters := waiters } q) :
    s.Live q := by
  refine live_lists (fun q hm => ?_) (fun q hz => .inr (.inl hz)) h
  have hkeep : q ∈ s.places ∨ q = p := by
    simp only [mem_append] at hm
    rw [Placed.mem_places]
    obtain hm | (hm | hm) | hm := hm
    · exact (hq q hm).imp_left .inl
    · exact (hsl q hm).imp_left fun hm => .inr (.inl hm)
    · exact (hwt q hm).imp_left fun hm => .inr (.inr (.inl hm))
    · exact .inl (.inr (.inr (.inr hm)))
  obtain hm | rfl := hkeep
  · exact .inl hm
  · exact hp

theorem live_claim {n credit : ℕ} {prev : Option ℕ} {pc : Pc}
    (hc : s.pc c = .sched (.dispatch prev)) (hn : n ∈ s.queue) (hpc : pc.seat.prev = prev)
    (h : ((s.claim c n credit).goto c pc).Live q) : s.Live q := by
  have hlive : s.Live n := .inl (Placed.mem_places.mpr (.inl hn))
  obtain h | h := live_goto h
  · have h := live_relist (s := s.publish c (some n)) (p := n)
      (.inl (Placed.mem_places.mpr (.inl hn))) (fun q hq => .inl (mem_of_mem_erase hq))
      (fun _ => .inl) (fun _ => .inl) h
    exact (live_publish h).elim id fun hq => some.inj hq ▸ hlive
  · exact live_of_prev (c := c) (by rw [seat, hc]; exact hpc ▸ h)

/-- **A process that is nowhere stays so**; only a new one appears. -/
theorem Move.live (m : Move R s s') (h : s'.Live q) :
    s.Live q ∨ q = s.lastId + 1 ∧ s'.lastId = s.lastId + 1 := by
  have hkeep : ∀ q, q ∈ s.zombies → s.Live q := fun q hz => .inr (.inl hz)
  refine or_iff_not_imp_right.mpr fun hnew => ?_
  cases m with
  | pass c pc ht => exact live_of_goto_prev (by rw [ht.seat_eq]; rfl) h
  | cont c p k hr ht =>
    refine (live_setCont h).resolve_right ?_
    rintro rfl
    generalize s.cont p = k0 at ht
    cases ht with
    | plain h1 h2 _ => exact h2
  | enter c hc hp | idleDone c hc => exact live_of_goto rfl h
  | commit c p child hr hk hz =>
    exact live_of_goto rfl ((live_setCont h).resolve_right (by simp))
  | idle c pc hc hcur hpc => exact live_of_goto (by rcases hpc with rfl | ⟨rfl, -⟩ <;> rfl) h
  | mark c p k hr hpl hk _ =>
    refine (live_setCont h).resolve_right ?_
    rintro rfl
    exact hk
  | wake sleeping waiters waking task hw =>
    refine live_lists (fun q hq => .inl ?_) hkeep h
    exact (hw.perm.append_left _).mem_iff.mp hq
  | flush w hdue =>
    refine live_lists (fun q hq => .inl ?_) hkeep h
    exact (Placed.places_flushed_perm s w).mem_iff.mp hq
  | sleepInsert c p d hr hk =>
    have hins := (Placed.insertSleeper_perm d p s.sleeping).map Prod.snd
    have h := live_relist (s := (s.setCont p .user).goto c (.sched .wake)) (p := p)
      (.inr (.inr (.inl ⟨c, .inl hr.2⟩))) (fun _ => .inl)
      (fun q hq => (mem_cons.mp (hins.mem_iff.mp hq)).symm) (fun _ => .inl) h
    exact (live_setCont (live_of_goto rfl h)).resolve_right (by simp)
  | waitPush c p child hr hk =>
    have hp : (s.setCont p (.waitRecheck child)).Live p := live_of_running hr
    have h := live_relist hp (fun _ => .inl) (fun _ => .inl)
      (fun q hq => by simpa [waiting, setCont] using hq) h
    exact (live_setCont h).resolve_right (by simp)
  | unpark c p child hr hk =>
    have h := (live_setCont h).resolve_right (by simp)
    exact live_relist (live_of_running hr) (fun _ => .inl) (fun _ => .inl)
      (fun q hq => .inl ((eraseP_sublist.map _).subset hq)) h
  | recover c p child hr hk => exact (live_setCont h).resolve_right (by simp)
  | take c hc =>
    have h : ((s.publish c none).goto c (.sched (.killCheck (s.current c)))).Live q := h
    obtain h | h := live_goto h
    · exact (live_publish h).resolve_right (by simp)
    · exact .inr (.inr (.inl ⟨c, .inl h⟩))
  | unparkSleeping c p hc hp =>
    have hp : s.Live p := live_of_prev (c := c) (by rw [seat, hc]; rfl)
    obtain h | h := live_goto h
    · exact live_relist hp (fun _ => .inl)
        (fun q hq => .inl ((eraseP_sublist.map _).subset hq)) (fun _ => .inl) h
    · exact some.inj h ▸ hp
  | unparkWaiters c p hc hp =>
    have hp : s.Live p := live_of_prev (c := c) (by rw [seat, hc]; rfl)
    obtain h | h := live_goto h
    · exact live_relist hp (fun _ => .inl) (fun _ => .inl)
        (fun q hq => .inl ((eraseP_sublist.map _).subset hq)) h
    · exact some.inj h ▸ hp
  | resume c p hc | keep c p hc hd hz =>
    have hp : s.Live p := live_of_prev (c := c) (by rw [seat, hc]; rfl)
    exact (live_publish (live_of_goto rfl h)).elim id
      fun hq => some.inj hq ▸ hp
  | claim c n credit prev pc hc hn ho hpc => exact live_claim hc hn (by
      rcases hpc with rfl | ⟨p, rfl, rfl, -⟩ <;> rfl) h
  | swap c n credit p hc hn ho hd hz =>
    have hp : ((s.claim c n credit).goto c (.sched (.switch (some p)))).Live p :=
      live_of_prev (c := c) (by simp [seat, goto, Pc.seat, Stage.seat, Seat.prev])
    have h := live_relist (s := (s.claim c n credit).goto c (.sched (.switch (some p)))) hp
      (fun q hq => (mem_append.mp hq).imp_right mem_singleton.mp) (fun _ => .inl)
      (fun _ => .inl) h
    exact live_claim hc hn rfl h
  | vacate c prev pc hc hpc =>
    obtain h | h := live_goto h
    · exact (live_publish h).resolve_right (by simp)
    · refine live_of_prev (c := c) ?_
      rw [seat, hc]
      obtain ⟨rfl, rfl⟩ | rfl | ⟨p, rfl, rfl, -⟩ := hpc
      · cases h
      · exact h
      · exact h
  | release c p hc | switched c hc
  | drain c hc | verdict c st st' hc hv => exact live_of_goto rfl h
  | parkZombie c p hc =>
    have hp : s.Live p := live_of_prev (c := c) (by rw [seat, hc]; rfl)
    obtain h | h := live_goto h
    · refine live_lists (fun _ => .inl) (fun q hz => ?_) h
      obtain hz | hz := mem_append.mp hz
      · exact hkeep q hz
      · exact mem_singleton.mp hz ▸ hp
    · exact some.inj h ▸ hp
  | killQueue c p pid hr hk hp =>
    have hpid : pid ∈ s.places := Placed.mem_places.mpr (.inl hp)
    have h := live_relist (s := s.setCont p (.killPark pid)) (.inl hpid)
      (fun q hq => .inl (mem_of_mem_erase hq)) (fun _ => .inl) (fun _ => .inl) h
    exact (live_setCont h).elim id fun h => Cont.killPark.inj h ▸ .inl hpid
  | killSleeping c p pid hr hk hp ho =>
    have hpid : pid ∈ s.places := Placed.mem_places.mpr (.inr (.inl hp))
    have h := live_relist (s := s.setCont p (.killPark pid)) (.inl hpid) (fun _ => .inl)
      (fun q hq => .inl ((eraseP_sublist.map _).subset hq)) (fun _ => .inl) h
    exact (live_setCont h).elim id fun h => Cont.killPark.inj h ▸ .inl hpid
  | killWaiters c p pid hr hk hp ho =>
    have hpid : pid ∈ s.places := Placed.mem_places.mpr (.inr (.inr (.inl hp)))
    have h := live_relist (s := s.setCont p (.killPark pid)) (.inl hpid) (fun _ => .inl)
      (fun _ => .inl) (fun q hq => .inl ((eraseP_sublist.map _).subset hq)) h
    exact (live_setCont h).elim id fun h => Cont.killPark.inj h ▸ .inl hpid
  | killPark c p pid hr hk =>
    have hpid : s.Live pid := .inr (.inr (.inr ⟨p, hk⟩))
    have h : ({ s with zombies := s.zombies ++ [pid] }.setCont p (.wakeWaiters pid)).Live q := h
    refine live_lists (fun _ => .inl) (fun q hz => ?_)
      ((live_setCont h).resolve_right (by simp))
    obtain hz | hz := mem_append.mp hz
    · exact hkeep q hz
    · exact mem_singleton.mp hz ▸ hpid
  | consume c p child hr hk hz _ _ =>
    have h : ({ s with zombies := s.zombies.erase child }.setCont p (.waitReclaim child)).Live q :=
      h
    exact live_lists (fun _ => .inl) (fun q hz => hkeep q (mem_of_mem_erase hz))
      ((live_setCont h).resolve_right (by simp))
  | reclaim c p child hr hk =>
    exact (live_setCont h).resolve_right (by simp)
  | remove c idx zombies freed hc hrm =>
    have h := live_of_goto rfl h
    exact live_lists (fun _ => .inl)
      (fun q hz => hkeep q ((removeAll_subset hrm).1 q hz)) h
  | spawn prio parent hpar =>
    have h : ({ s with queue := s.queue ++ [s.lastId + 1] }.setCont (s.lastId + 1) .user).Live q :=
      h
    obtain h | h := (live_setCont h).resolve_right (by simp)
    · refine .inl ?_
      rw [Placed.mem_places] at h ⊢
      refine h.imp_left fun h => ?_
      exact (mem_append.mp h).resolve_right fun h => hnew ⟨mem_singleton.mp h, rfl⟩
    · exact .inr h
  | launch c hc hcur =>
    obtain h | h := live_publish ((live_setCont h).resolve_right (by simp))
    · exact h
    · exact absurd ⟨(some.inj h).symm, rfl⟩ hnew
  | _ => exact h

end Live

/-! ## What is settled stays settled -/

/-- What is known of the processes created so far does not change. -/
structure Keeps (s s' : Sched) : Prop where
  lastId : s.lastId ≤ s'.lastId
  parent : ∀ p ≤ s.lastId, (s'.task p).parent = (s.task p).parent
  live : ∀ p ≤ s.lastId, s'.Live p → s.Live p
  consumed : ∀ e ∈ s.consumed, e ∈ s'.consumed

theorem Move.parent (m : Move R s s') (p : ℕ) : (s'.task p).parent = (s.task p).parent ∨
    p = s.lastId + 1 ∧ (s'.task p).parent ≤ s.lastId := by
  have hmod : ∀ {n : ℕ} {t : SchedTask}, t.parent = (s.task n).parent →
      (update s.task n t p).parent = (s.task p).parent := by
    intro n t ht
    obtain rfl | hpn := eq_or_ne p n
    · rw [update_self, ht]
    · simp [hpn]
  have hnew : ∀ {t : SchedTask}, t.parent ≤ s.lastId →
      (update s.task (s.lastId + 1) t p).parent = (s.task p).parent ∨
      p = s.lastId + 1 ∧ (update s.task (s.lastId + 1) t p).parent ≤ s.lastId := by
    intro t ht
    by_cases hp : p = s.lastId + 1
    · exact .inr ⟨hp, by simpa [hp] using ht⟩
    · exact .inl (by simp [hp])
  cases m with
  | wake sleeping waiters waking task hw =>
    refine .inl (show (task p).parent = _ from ?_)
    rcases hw.task p with hp | hp <;> rw [hp]
    rfl
  | flush w hdue =>
    refine .inl (show (if p ∈ s.due w then (s.task p).woken else s.task p).parent = _ from ?_)
    split_ifs <;> rfl
  | swap c n credit q hc hn hown hdead hz =>
    have hcl : (((s.claim c n credit).goto c (.sched (.switch (some q)))).task p).parent
        = (s.task p).parent := hmod rfl
    obtain rfl | hpq := eq_or_ne p q
    · exact .inl (by simpa [requeue, modTask] using hcl)
    · exact .inl (by simpa [requeue, modTask, hpq] using hcl)
  | resume c q hc =>
    have hcl : ((s.clearWake q).task p).parent = (s.task p).parent := hmod rfl
    obtain rfl | hpq := eq_or_ne p q
    · exact .inl (by simpa [modTask, goto, publish, setState] using hcl)
    · exact .inl (by simpa [modTask, goto, publish, setState, hpq] using hcl)
  | spawn prio parent hpar => exact hnew hpar
  | launch c hc hcur => exact hnew (Nat.zero_le _)
  | _ => first | exact .inl rfl | exact .inl (hmod rfl)

theorem Move.lastId_le (m : Move R s s') : s.lastId ≤ s'.lastId := by
  cases m with
  | spawn prio parent hpar | launch c hc hcur => exact Nat.le_succ _
  | _ => exact Nat.le_refl _

theorem Move.keeps (m : Move R s s') : Keeps s s' where
  lastId := m.lastId_le
  parent := fun p hp => (m.parent p).resolve_right fun h => by omega
  live := fun p hp hl => (m.live hl).resolve_right fun h => by omega
  consumed := by
    intro e he
    cases m with
    | consume c p child hr hk hz ho hpass => exact mem_cons_of_mem _ he
    | _ => exact he

/-- The process's parent is zero or nowhere. -/
def Orphan (s : Sched) (p : ℕ) : Prop := (s.task p).parent = 0 ∨ ¬ s.Live (s.task p).parent

/-- The process has been taken by its own parent. -/
def Consumed (s : Sched) (p : ℕ) : Prop := ((s.task p).parent, p) ∈ s.consumed

namespace Keeps

theorem refl (s : Sched) : Keeps s s :=
  ⟨Nat.le_refl _, fun _ _ => rfl, fun _ _ hl => hl, fun _ he => he⟩

theorem trans {s1 : Sched} (h : Keeps s s1) (h' : Keeps s1 s') : Keeps s s' where
  lastId := Nat.le_trans h.lastId h'.lastId
  parent := fun p hp => (h'.parent p (Nat.le_trans hp h.lastId)).trans (h.parent p hp)
  live := fun p hp hl => h.live p hp (h'.live p (Nat.le_trans hp h.lastId) hl)
  consumed := fun e he => h'.consumed e (h.consumed e he)

theorem orphan (h : Keeps s s') (hp : p ≤ s.lastId) (hpar : (s.task p).parent ≤ s.lastId)
    (ho : s.Orphan p) : s'.Orphan p := by
  rw [Orphan, h.parent p hp]
  exact ho.imp_right fun hn hl => hn (h.live _ hpar hl)

theorem consumed' (h : Keeps s s') (hp : p ≤ s.lastId) (hc : s.Consumed p) : s'.Consumed p := by
  rw [Consumed, h.parent p hp]
  exact h.consumed _ hc

end Keeps

/-! ## Families -/

/-- A waiter is the parent of the process it waits for, and takes it for itself. -/
structure Family (s : Sched) : Prop where
  known : ∀ p, s.Live p → p ≤ s.lastId
  parents : ∀ p, (s.task p).parent ≤ s.lastId
  waits : ∀ p child, (s.cont p).awaits = some child →
    child ≤ s.lastId ∧ (s.task child).parent = p
  reclaim : ∀ p, p ∈ s.reclaim ∨ (∃ t, s.cont t = .waitReclaim p) → p ≤ s.lastId ∧ s.Consumed p

/-- A task waits for what it waited for, or has just found to be its child. -/
theorem Move.awaits (m : Move R s s') {t q : ℕ} (hq : (s'.cont t).awaits = some q) :
    (s.cont t).awaits = some q ∨ (s.task q).parent = t ∧ s.Live q := by
  have hset : ∀ {p : ℕ} {k : Cont}, (∀ q, k.awaits = some q → (s.cont p).awaits = some q ∨
      (s.task q).parent = p ∧ s.Live q) → (update s.cont p k t).awaits = some q →
      (s.cont t).awaits = some q ∨ (s.task q).parent = t ∧ s.Live q := by
    intro p k hk hq
    obtain rfl | ht := eq_or_ne t p
    · exact hk q (by simpa using hq)
    · exact .inl (by simpa [ht] using hq)
  cases m with
  | cont c p k hr ht =>
    refine hset (k := k) (fun q hk => ?_) hq
    generalize s.cont p = k0 at ht
    cases ht with
    | plain h1 h2 h3 => exact h3 q hk
    | recheck child | unqueue child _ => exact .inl hk
    | heard pid _ => cases hk
  | mark c p k hr hpl hk haw => exact hset (k := k) (fun q hkq => .inl (haw q hkq)) hq
  | commit c p child hr hk hz | waitPush c p child hr hk | unpark c p child hr hk
  | recover c p child hr hk => exact hset (fun q hq => .inl (hk ▸ hq)) hq
  | _ => first | exact .inl hq | exact hset (by simp [Cont.awaits]) hq

namespace Family

theorem move (h : Family s) (m : Move R s s') : Family s' where
  known := by
    intro p hl
    obtain hl | ⟨rfl, hid⟩ := m.live hl
    · exact Nat.le_trans (h.known p hl) m.lastId_le
    · exact Nat.le_of_eq hid.symm
  parents := by
    intro p
    obtain hp | ⟨-, hp⟩ := m.parent p
    · rw [hp]
      exact Nat.le_trans (h.parents p) m.lastId_le
    · exact Nat.le_trans hp m.lastId_le
  waits := by
    intro p child hk
    obtain ⟨hid, hpar⟩ : child ≤ s.lastId ∧ (s.task child).parent = p := by
      obtain hk | ⟨hpar, hl⟩ := m.awaits hk
      · exact h.waits p child hk
      · exact ⟨h.known child hl, hpar⟩
    exact ⟨Nat.le_trans hid m.lastId_le, (m.keeps.parent child hid).trans hpar⟩
  reclaim := by
    intro p hp
    have hold : p ≤ s.lastId ∧ s.Consumed p → p ≤ s'.lastId ∧ s'.Consumed p := fun hp =>
      ⟨Nat.le_trans hp.1 m.lastId_le, m.keeps.consumed' hp.1 hp.2⟩
    obtain hp | ⟨t, hp⟩ := hp
    · exact hold (h.reclaim p (m.reclaimed hp))
    · obtain hp | ⟨hz, hk, -, hcons⟩ := m.waitReclaim hp
      · exact hold (h.reclaim p (.inr ⟨t, hp⟩))
      · obtain ⟨hid, hpar⟩ := h.waits t p (hk ▸ rfl)
        refine ⟨Nat.le_trans hid m.lastId_le, ?_⟩
        rw [Consumed, m.keeps.parent p hid, hpar]
        exact hcons

theorem boot (n : ℕ) : Family (Sched.boot n) where
  known := fun p hl => by
    simp [Live, places, Holds, seat, Sched.boot, sleepers, waiting, inFlight, Pc.seat,
      Seat.prev] at hl
  parents := fun p => Nat.le_refl _
  waits := fun p child hk => by simp [Sched.boot, Cont.awaits] at hk
  reclaim := fun p hp => by simp [Sched.boot] at hp

theorem orphan (h : Family s) (m : Move R s s') (hp : p ≤ s.lastId) (ho : s.Orphan p) :
    s'.Orphan p :=
  m.keeps.orphan hp (h.parents p) ho

end Family

/-! ## Verdicts -/

/-- The candidates are as they were found, and those judged are orphans. -/
structure Judged (s : Sched) : Prop where
  found : ∀ k ∈ (s.pc 0).recorded,
    k.task.parent = (s.task k.pid).parent ∧ k.task.owner = none ∧ k.task.queued = false
  judged : ∀ k ∈ (s.pc 0).judged, s.Orphan k.pid
  freed : ∀ c, ∀ p ∈ (s.pc c).freeing, p ≤ s.lastId ∧ (s.Consumed p ∨ s.Orphan p)

namespace Judged

theorem judged_of_ne_reap {pc : Pc} (h : ∀ st, pc ≠ .reap st) : pc.judged = [] := by
  cases pc with
  | reap st => exact absurd rfl (h st)
  | _ => rfl

theorem judged_subset {pc : Pc} {k : Candidate} (hk : k ∈ pc.judged) : k ∈ pc.recorded := by
  match pc with
  | .reap (.judge _ _ _) => exact mem_append_right _ hk
  | .reap (.remove _) => exact hk
  | .reap .drain | .reap (.free _ _) | .reap .scan | .exec | .sched _ | .idleFlush =>
    simp [Pc.judged] at hk

theorem known (hf : Family s) (hr : Recorded s) {k : Candidate} (hk : k ∈ (s.pc 0).recorded) :
    k.pid ≤ s.lastId :=
  hf.known _ (.inr (.inl (hr.mem_zombies hk)))

/-- The judgements hold of the state before; only what the CPUs look at changes. -/
theorem transfer (hf : Family s) (m : Move R s s')
    (hfound : ∀ k ∈ (s'.pc 0).recorded, k.pid ≤ s.lastId ∧
      k.task.parent = (s.task k.pid).parent ∧ k.task.owner = none ∧ k.task.queued = false)
    (hjudged : ∀ k ∈ (s'.pc 0).judged, s.Orphan k.pid)
    (hfreed : ∀ c, ∀ p ∈ (s'.pc c).freeing, p ≤ s.lastId ∧ (s.Consumed p ∨ s.Orphan p)) :
    Judged s' where
  found := by
    intro k hk
    obtain ⟨hid, hpar, hrest⟩ := hfound k hk
    exact ⟨hpar.trans (m.keeps.parent _ hid).symm, hrest⟩
  judged := fun k hk => hf.orphan m (hfound k (judged_subset hk)).1 (hjudged k hk)
  freed := by
    intro c p hp
    obtain ⟨hid, hp⟩ := hfreed c p hp
    exact ⟨Nat.le_trans hid m.lastId_le, hp.imp (m.keeps.consumed' hid) (hf.orphan m hid)⟩

theorem reaps (hR : R.exactScan) (h : Judged s) (hf : Family s) (hr : Recorded s)
    (m : Move R s s') (mr : Reaps R s s') : Judged s' := by
  have hfound := fun k hk => And.intro (known hf hr hk) (h.found k hk)
  cases mr with
  | start =>
    refine transfer hf m (by simp [goto, Pc.recorded]) (by simp [goto, Pc.judged]) fun d p hp => ?_
    exact (mem_freeing_goto hp).elim (by simp [Pc.freeing]) (h.freed d p)
  | drain c hc =>
    obtain rfl := hr.reaper c _ hc
    refine transfer hf m (by simp [goto, Pc.recorded]) (by simp [goto, Pc.judged]) fun d p hp => ?_
    obtain hp | hp := mem_freeing_goto hp
    · exact (hf.reclaim p (.inl hp)).imp_right .inl
    · exact h.freed d p hp
  | verdict c st st' hc hv =>
    obtain rfl := hr.reaper c _ hc
    refine transfer hf m (fun k hk => ?_) (fun k hk => ?_) fun d p hp => ?_
    · simp only [goto, update_self] at hk
      obtain hsub | heq := Recorded.recorded_verdict hv
      · exact hfound k (by rw [hc]; exact hsub.subset hk)
      · rw [heq] at hk
        obtain ⟨-, hz, htask, hfree⟩ := mem_candidatesFrom (mem_reverse.mp hk)
        refine ⟨hf.known _ (.inr (.inl (mem_of_getElem? hz))), ?_⟩
        rw [htask]
        exact ⟨rfl, hfree⟩
    · simp only [goto] at hk
      have hjudged := h.judged
      rw [hc] at hjudged hfound
      cases hv with
      | orphan k0 ks idx pos ho =>
        obtain rfl | hk := mem_cons.mp hk
        · obtain ⟨-, hpar, -⟩ := hfound k (by simp [Pc.recorded])
          rw [Orphan, ← hpar]
          exact ho.imp_right fun ho => ho hR
        · exact hjudged k hk
      | keep k0 ks idx pos | next k0 ks idx pos pos' | done idx pos => exact hjudged k hk
      | _ => simp [Pc.judged] at hk
    · obtain hp | hp := mem_freeing_goto hp
      · have hfreed := h.freed 0
        rw [hc] at hfreed
        cases hv with
        | freed p0 ps orphans => exact hfreed p (mem_cons_of_mem _ hp)
        | _ => simp [Pc.freeing] at hp
      · exact h.freed d p hp
  | remove c idx zombies freed hc hrm =>
    have heq := hr.freed_eq hc hrm
    obtain rfl := hr.reaper c _ hc
    refine transfer hf m (by simp [goto, Pc.recorded]) (by simp [goto, Pc.judged]) fun d p hp => ?_
    obtain hp | hp := mem_freeing_goto hp
    · obtain ⟨k, hk, rfl⟩ := mem_map.mp (heq ▸ (show p ∈ freed from hp))
      have hk : k ∈ (s.pc 0).judged := by rw [hc]; exact hk
      exact ⟨known hf hr (judged_subset hk), .inr (h.judged k hk)⟩
    · exact h.freed d p hp

theorem move (hR : R.exactScan) (h : Judged s) (hf : Family s) (hr : Recorded s)
    (m : Move R s s') : Judged s' := by
  obtain mr | ma := m.reaps_or_aside
  · exact h.reaps hR hf hr m mr
  · refine transfer hf m (fun k hk => ?_) (fun k hk => ?_) fun d p hp => ?_
    · obtain hpc | hpc := ma.pc 0
      · rw [hpc] at hk
        exact ⟨known hf hr hk, h.found k hk⟩
      · simp [Recorded.recorded_of_ne_reap hpc] at hk
    · obtain hpc | hpc := ma.pc 0
      · exact h.judged k (hpc ▸ hk)
      · simp [judged_of_ne_reap hpc] at hk
    · obtain hpc | hpc := ma.pc d
      · exact h.freed d p (hpc ▸ hp)
      · simp [freeing_of_ne_reap hpc] at hp

theorem boot (n : ℕ) : Judged (Sched.boot n) where
  found := fun k hk => by simp [Sched.boot, Pc.recorded] at hk
  judged := fun k hk => by simp [Sched.boot, Pc.judged] at hk
  freed := fun c p hp => by simp [Sched.boot, Pc.freeing] at hp

end Judged

/-! ## The orphan pass -/

/-- **The pass removes, in bounds, the very tasks it has judged**: each was unowned and not queued
when it was recorded, and its parent is zero or nowhere.  And what is reaped, on either route, is an
orphan or has been taken by its parent. -/
structure OrphansOnly (s : Sched) : Prop where
  removed : ∀ c idx, s.pc c = .reap (.remove idx) →
    (∃ zombies, removeAll s.zombies (idx.map Candidate.index)
      = some (zombies, idx.map Candidate.pid)) ∧
    ∀ k ∈ idx, k.task.owner = none ∧ k.task.queued = false ∧ s.Orphan k.pid
  reaped : ∀ c p ps orphans, s.pc c = .reap (.free (p :: ps) orphans) →
    s.Consumed p ∨ s.Orphan p

theorem Judged.orphansOnly (h : Judged s) (hr : Recorded s) : OrphansOnly s where
  removed := by
    intro c idx hc
    obtain rfl := hr.reaper c _ hc
    have hrec := hr.record
    have hfound := h.found
    have hjudged := h.judged
    rw [hc] at hrec hfound hjudged
    exact ⟨Record.removeAll hrec, fun k hk => ⟨(hfound k hk).2.1, (hfound k hk).2.2, hjudged k hk⟩⟩
  reaped := by
    intro c p ps orphans hc
    have hfreed := h.freed c
    rw [hc] at hfreed
    exact (hfreed p mem_cons_self).2

/-- `wait` takes no zombie between the two halves of the pass, and nothing disturbs the scan for a
parent that is present. -/
def CleanPass (s : Sched) (a : SchedAction) : Prop := s.SteadyPass a ∧ s.QuietScan a

instance (s : Sched) (a : SchedAction) : Decidable (s.CleanPass a) :=
  inferInstanceAs (Decidable ((∀ _p ∈ s.consumes a, ¬ MidPass (s.pc 0)) ∧ s.QuietScan a))

/-- The rules of the pass. -/
def passRules : Rules := ⟨False, False, False, True, True⟩

/-- What is known of the pass. -/
structure PassInv (s : Sched) : Prop where
  placed : Placed s
  family : Family s
  recorded : Recorded s
  judged : Judged s
  bounded : Bounded s
  scanned : Scanned s

namespace PassInv

theorem boot (n : ℕ) : PassInv (Sched.boot n) :=
  ⟨.boot n, .boot n, .boot n, .boot n, .boot n, .boot n⟩

theorem respects (h : PassInv s) {a : SchedAction} (ha : s.CleanPass a) :
    Respects passRules s a :=
  ⟨False.elim, False.elim, False.elim, fun _ => ha.1,
    fun _ => h.scanned.exactScan h.bounded h.placed h.recorded.reaper a⟩

theorem parent_le (h : PassInv s) {k : Candidate} (hk : k ∈ (s.pc 0).recorded) :
    k.task.parent ≤ s.lastId := by
  rw [(h.judged.found k hk).1]
  exact h.family.parents _

theorem step (h : PassInv s) {a : SchedAction} (ha : s.CleanPass a)
    (hs : schedStep s a = some s') : PassInv s' := by
  have hmoves := moves_of_schedStep h.placed (h.respects ha) hs
  have hafter : Placed s' ∧ Family s' ∧ Recorded s' ∧ Judged s' ∧ Keeps s s' := by
    clear hs ha
    induction hmoves with
    | refl => exact ⟨h.placed, h.family, h.recorded, h.judged, .refl s⟩
    | tail _ m ih =>
      obtain ⟨hp, hf, hr, hj, hk⟩ := ih
      exact ⟨hp.move m, hf.move m, hr.move trivial m, hj.move trivial hf hr m, hk.trans m.keeps⟩
  obtain ⟨hp, hf, hr, hj, hk⟩ := hafter
  refine ⟨hp, hf, hr, hj, h.bounded.step hs, h.scanned.step h.bounded h.placed ha.2 hs ?_⟩
  intro k ks pos idx hpc hl
  exact hk.live _ (h.parent_le (by simp [hpc, Pc.recorded])) hl

end PassInv

/-- In every run whose sections are clean, the orphan pass frees only orphans. -/
theorem orphansOnly_of_clean (n : ℕ) (as : List SchedAction) (s : Sched)
    (hclean : RunMeets schedStep CleanPass (boot n) as)
    (hrun : run schedStep (boot n) as = some s) : OrphansOnly s := by
  have h : PassInv s :=
    run_invariant PassInv (fun _ _ _ h ha hs => h.step ha hs) as (.boot n) hclean hrun
  exact h.judged.orphansOnly h.recorded

open SchedAction in
/-- The third process, a child of the second, exits on the third CPU; then the first process exits,
and its CPU records both zombies and judges them. -/
def twoZombies : List SchedAction :=
  twoRunning ++ [begin 1 (.spawn .interactive), idle 2 .schedule] ++
    List.replicate 10 (pass 2 0) ++ [begin 2 (.exit 7), call 2] ++
    List.replicate 13 (pass 2 0) ++ [begin 0 (.exit 0), call 0] ++
    List.replicate 13 (pass 0 0) ++ [idle 0 .reapDead] ++ List.replicate 6 (reap 0)

open SchedAction in
/-- The second process takes its child out of `ZOMBIES` before the pass comes back. -/
def shiftedWhileJudging : List SchedAction :=
  twoZombies ++ [begin 1 (.wait 3)] ++ List.replicate 8 (call 1) ++ [reap 0]

/-- The position kept for the first process is out of bounds. -/
theorem shiftedWhileJudging_not_orphansOnly :
    ∃ s, run schedStep (boot 3) shiftedWhileJudging = some s ∧ ¬ s.OrphansOnly := by
  refine exists_of_any (fun s => (s.pc 0).judged.map Candidate.index = [1] ∧
    s.pc 0 = .reap (.remove (s.pc 0).judged) ∧ s.zombies = [1]) (by decide +kernel)
    fun s _ hend h => ?_
  obtain ⟨hidx, hpc, hz⟩ := hend
  obtain ⟨zombies, hrm⟩ := (h.removed 0 _ hpc).1
  rw [hidx, hz] at hrm
  cases hrm

open SchedAction in
/-- The second process starts a third and exits, the third exits on the same CPU, and the first
takes the second.  Then the idle CPU frees the second and looks for it as the third's parent, and
the first process goes on meanwhile. -/
def childOfTheTaken : List SchedAction :=
  [idle 1 .launch, begin 1 (.spawn .interactive), idle 2 .schedule] ++
    List.replicate 10 (pass 2 0) ++ [begin 2 (.spawn .interactive), begin 2 (.exit 7), call 2] ++
    List.replicate 13 (pass 2 0) ++ [begin 2 (.exit 0), call 2] ++ List.replicate 13 (pass 2 0) ++
    [begin 1 (.wait 2)] ++ List.replicate 9 (call 1) ++ [idle 0 .reapDead] ++
    List.replicate 8 (reap 0) ++ [begin 1 (.spawn .interactive)] ++ List.replicate 5 (reap 0)

/-- That run is clean: one process is taken, the scan for it finds nothing, and the other is freed
as its orphan. -/
theorem childOfTheTaken_orphansOnly : RunMeets schedStep CleanPass (boot 3) childOfTheTaken ∧
    ∃ s, run schedStep (boot 3) childOfTheTaken = some s ∧ s.consumed = [(1, 2)] ∧
      s.pc 0 = .reap (.free [3] true) ∧ s.OrphansOnly := by
  have hclean : RunMeets schedStep CleanPass (boot 3) childOfTheTaken := by decide +kernel
  refine ⟨hclean, exists_of_any (fun s => s.consumed = [(1, 2)] ∧
    s.pc 0 = .reap (.free [3] true)) (by decide +kernel) fun s hs hend => ?_⟩
  exact ⟨hend.1, hend.2, orphansOnly_of_clean 3 childOfTheTaken s hclean hs⟩

end Sched

end Bedrock
