import Bedrock.Iommu.Domain
import Bedrock.Lib.Run

/-!
# Iommu/Windows — who owns a device address

Every address below the cursor belongs to a live window, to a reclaimed one, or to nobody:

    [-- live --)[- reclaimed -)[-- reserved --)[-- live --)       nextIova --▸
                                                                  nobody's yet

A call moves a window between the three, and its address count never goes above one.  The exception
is a roll-back of a window that the cursor has just handed out: the window goes to the list and is
ahead of the cursor again, so it is there twice (`rolledBack_overlaps`).
-/

namespace Bedrock.Iommu

open List Option

/-- A window in use, and the limit its request was under. -/
structure Live where
  window : Block
  limit : ℕ
  deriving DecidableEq

structure State where
  domain : Domain
  live : List Live
  deriving DecidableEq

/-- Calls with the page tables as they are at the time. -/
inductive Act (τ : Type)
  | map (t : τ) (phys size : ℕ) (limit : Option ℕ)
  | unmap (t : τ) (i : ℕ)

section Step

variable {τ : Type} (io : PageTables τ) (rmrrs : List Rmrr)

def init (agaw : Agaw) (mgaw haw : ℕ) : State := ⟨Domain.new agaw mgaw haw, []⟩

/-- One call; the `i`-th live window is unmapped as a whole. -/
def step (s : State) : Act τ → Option State
  | .map t phys size limit =>
    match mapPhysToIova io rmrrs s.domain t phys size limit with
    | (none, d, _) => some { s with domain := d }
    | (some addr, d, _) =>
      some ⟨d, ⟨⟨addr - phys % 4096, pageUp (size + phys % 4096)⟩, askedLimit s.domain limit⟩ ::
        s.live⟩
  | .unmap t i =>
    match s.live[i]? with
    | none => none
    | some v =>
      some ⟨(unmapIova io s.domain t v.window.addr v.window.size).1, s.live.eraseIdx i⟩

/-- No page of a window that the cursor hands out fails to be mapped. -/
def NoNewRollback (s : State) : Act τ → Prop
  | .map t phys size limit =>
    take s.domain.freeWindows (pageUp (size + phys % 4096)) (askedLimit s.domain limit) = none →
    ∀ r ∈ allocFor s.domain (size + phys % 4096) limit rmrrs,
      (mapPages io r.1 (pageDown phys) 0 (pageUp (size + phys % 4096) / 4096) t).isFailed = false
  | .unmap _ _ => True

instance : DecidableRel (NoNewRollback io rmrrs)
  | _, .map _ _ _ _ => inferInstanceAs (Decidable (_ → _))
  | _, .unmap _ _ => instDecidableTrue

end Step

/-- Two windows have no address in common. -/
def Separate (v w : Block) : Prop := ∀ x, v.contains x = true → w.contains x = false

/-- **No address is handed out twice**, and none that is handed out is available. -/
structure Exclusive (rmrrs : List Rmrr) (s : State) : Prop where
  live : (s.live.map Live.window).Pairwise Separate
  reserved : ∀ v ∈ s.live, ∀ r ∈ rmrrs, ∀ x, r.Contains x → v.window.contains x = false
  limit : ∀ v ∈ s.live, v.window.stop ≤ v.limit
  free : ∀ v ∈ s.live, ∀ w ∈ s.domain.freeWindows, Separate v.window w
  cursor : ∀ v ∈ s.live, ∀ x, s.domain.nextIova ≤ x → x < s.domain.iovaLimit →
    v.window.contains x = false

section Inv

variable {rmrrs : List Rmrr} {s s' : State}

/-- The windows that have an owner: in use or reclaimed. -/
def State.windows (s : State) : List Block := s.live.map Live.window ++ s.domain.freeWindows

/-- Every address has at most one owner, below the cursor and off the reserved ranges. -/
structure Inv (rmrrs : List Rmrr) (s : State) : Prop where
  one_owner : ∀ x, cover s.windows x ≤ 1
  cursor : ∀ x, s.domain.nextIova ≤ x → cover s.windows x = 0
  reserved : ∀ r ∈ rmrrs, ∀ x, r.Contains x → cover s.windows x = 0
  limit : ∀ v ∈ s.live, v.window.stop ≤ v.limit

theorem inv_init (agaw : Agaw) (mgaw haw : ℕ) : Inv rmrrs (init agaw mgaw haw) where
  one_owner _ := Nat.zero_le 1
  cursor _ _ := rfl
  reserved _ _ _ _ := rfl
  limit := nofun

theorem cover_windows (s : State) (x : ℕ) :
    cover s.windows x = cover (s.live.map Live.window) x + cover s.domain.freeWindows x :=
  cover_append

theorem pairwise_of_cover : ∀ {l : List Block}, (∀ x, cover l x ≤ 1) → l.Pairwise Separate
  | [], _ => List.Pairwise.nil
  | b :: l, h => by
    refine List.Pairwise.cons (fun c hc x hb => ?_) (pairwise_of_cover fun x => ?_)
    · cases hcx : c.contains x with
      | false => rfl
      | true => rw [not_contains_of_cover (h x) hc hcx] at hb; cases hb
    · exact (Nat.le_add_left _ _).trans (cover_cons.symm.le.trans (h x))

theorem Inv.exclusive (h : Inv rmrrs s) : Exclusive rmrrs s := by
  have hpair := pairwise_of_cover h.one_owner
  obtain ⟨hlive, -, hfree⟩ := pairwise_append.mp hpair
  have hmem : ∀ v ∈ s.live, v.window ∈ s.windows := fun v hv =>
    mem_append_left _ (mem_map_of_mem hv)
  exact
    { live := hlive
      reserved := fun v hv r hr x hx => cover_eq_zero.mp (h.reserved r hr x hx) _ (hmem v hv)
      limit := h.limit
      free := fun v hv w hw => hfree _ (mem_map_of_mem hv) w hw
      cursor := fun v hv x hx _ => cover_eq_zero.mp (h.cursor x hx) _ (hmem v hv) }

/-- Giving windows up and moving the cursor on keeps the invariant. -/
theorem Inv.of_le (h : Inv rmrrs s) (hcover : ∀ x, cover s'.windows x ≤ cover s.windows x)
    (hnext : s.domain.nextIova ≤ s'.domain.nextIova)
    (hlimit : ∀ v ∈ s'.live, v.window.stop ≤ v.limit) : Inv rmrrs s' where
  one_owner x := (hcover x).trans (h.one_owner x)
  cursor x hx := Nat.le_zero.mp ((hcover x).trans (h.cursor x (hnext.trans hx)).le)
  reserved r hr x hx := Nat.le_zero.mp ((hcover x).trans (h.reserved r hr x hx).le)
  limit := hlimit

theorem pageUp_pageUp (n : ℕ) : pageUp (pageUp n) = pageUp n := by
  unfold pageUp
  omega

theorem cover_freeIova_le (d : Domain) (iova size x : ℕ) :
    cover (d.freeIova iova size).freeWindows x ≤
      (Block.contains ⟨iova, pageUp size⟩ x).toNat + cover d.freeWindows x := by
  unfold Domain.freeIova
  split_ifs
  · exact Nat.le_add_left _ _
  · exact (cover_push_le _ _ _ _).trans cover_cons.le

theorem nextIova_freeIova (d : Domain) (iova size : ℕ) :
    (d.freeIova iova size).nextIova = d.nextIova := by
  unfold Domain.freeIova
  split_ifs <;> rfl

/-! ## Steps -/

variable {τ : Type} {io : PageTables τ}

/-- A window from the list is in use, is lost, or goes back to the list. -/
theorem Inv.reclaimed (h : Inv rmrrs s) {va size limit : ℕ} {free : List Block}
    (htake : take s.domain.freeWindows size limit = some (va, free)) :
    Inv rmrrs ⟨{ s.domain with freeWindows := free }, ⟨⟨va, size⟩, limit⟩ :: s.live⟩ := by
  obtain ⟨hend, hcover⟩ := take_some htake
  refine h.of_le (fun x => ?_) le_rfl ?_
  · have hx := hcover x
    rw [cover_cons] at hx
    rw [cover_windows, cover_windows, map_cons, cover_cons]
    dsimp only
    omega
  · exact forall_mem_cons.mpr ⟨hend, h.limit⟩

theorem Inv.fresh (h : Inv rmrrs s) {va size limit : ℕ} (hnext : s.domain.nextIova ≤ va)
    (hlimit : va + size ≤ limit) (hres : ∀ r ∈ rmrrs, r.stop ≤ va ∨ va + size ≤ r.start) :
    Inv rmrrs ⟨{ s.domain with nextIova := va + size }, ⟨⟨va, size⟩, limit⟩ :: s.live⟩ := by
  have hcover : ∀ x, cover
      (State.windows ⟨{ s.domain with nextIova := va + size }, ⟨⟨va, size⟩, limit⟩ :: s.live⟩) x =
        (Block.contains ⟨va, size⟩ x).toNat + cover s.windows x := fun x => by
    rw [cover_windows, cover_windows, map_cons, cover_cons, Nat.add_assoc]
  have hout : ∀ x, ¬ (va ≤ x ∧ x < va + size) → Block.contains ⟨va, size⟩ x = false := fun x hx =>
    Bool.eq_false_iff.mpr fun hc => hx (Block.contains_iff.mp hc)
  refine ⟨fun x => ?_, fun x hx => ?_, fun r hr x hx => ?_, ?_⟩
  · rw [hcover]
    by_cases hin : va ≤ x ∧ x < va + size
    · rw [h.cursor x (hnext.trans hin.1)]
      exact Bool.toNat_le _
    · rw [hout x hin, Bool.toNat_false, Nat.zero_add]
      exact h.one_owner x
  · dsimp only at hx
    rw [hcover, h.cursor x (by omega), hout x (by omega)]
    rfl
  · have hsep := hres r hr
    obtain ⟨hstart, hstop⟩ := hx
    rw [hcover, h.reserved r hr x ⟨hstart, hstop⟩, hout x (by omega)]
    rfl
  · exact forall_mem_cons.mpr ⟨hlimit, h.limit⟩

/-- Dropping the window in front keeps the invariant. -/
theorem Inv.drop {d : Domain} {v : Live} {l : List Live} (h : Inv rmrrs ⟨d, v :: l⟩) :
    Inv rmrrs ⟨d, l⟩ := by
  refine h.of_le (fun x => ?_) le_rfl fun w hw => h.limit w (mem_cons_of_mem _ hw)
  rw [cover_windows, cover_windows, map_cons, cover_cons]
  dsimp only
  omega

/-- …and so does giving it back. -/
theorem Inv.giveBack {d : Domain} {v : Live} {l : List Live} {n : ℕ}
    (h : Inv rmrrs ⟨d, v :: l⟩) (hn : pageUp n = v.window.size) :
    Inv rmrrs ⟨d.freeIova v.window.addr n, l⟩ := by
  refine h.of_le (fun x => ?_) (nextIova_freeIova _ _ _).ge fun w hw =>
    h.limit w (mem_cons_of_mem _ hw)
  have hfree := cover_freeIova_le d v.window.addr n x
  rw [hn, show (⟨v.window.addr, v.window.size⟩ : Block) = v.window from rfl] at hfree
  rw [cover_windows, cover_windows, map_cons, cover_cons]
  dsimp only
  omega

/-- **A call to `map_phys_to_iova` keeps the invariant**, if it does not roll a new window back. -/
theorem Inv.map (h : Inv rmrrs s) {t : τ} {phys size : ℕ} {limit : Option ℕ}
    (hok : NoNewRollback io rmrrs s (.map t phys size limit))
    (hs : step io rmrrs s (.map t phys size limit) = some s') : Inv rmrrs s' := by
  rw [step] at hs
  obtain heq | ⟨iova, d', halloc, hcase⟩ :=
    mapPhysToIova_cases io rmrrs s.domain t phys size limit
  · rw [heq] at hs
    cases hs
    exact h
  -- the window as a live one, whichever way the call ends
  have hlive : Inv rmrrs ⟨d', ⟨⟨iova, pageUp (size + phys % 4096)⟩, askedLimit s.domain limit⟩ ::
      s.live⟩ := by
    obtain ⟨free, htake, rfl⟩ | ⟨-, hnext, hlimit, hres, rfl⟩ :=
      Domain.allocIovaWithLimit_some (allocFor_some halloc)
    · exact h.reclaimed htake
    · exact h.fresh hnext hlimit hres
  obtain ⟨t', -, heq⟩ | ⟨t', -, heq⟩ | ⟨p, t', hfailed, heq⟩ := hcase
  · rw [heq] at hs
    cases hs
    rwa [Nat.add_sub_cancel]
  · rw [heq] at hs
    cases hs
    exact hlive.drop
  · rw [heq] at hs
    cases hs
    obtain ⟨free, -, rfl⟩ | ⟨hnone, -⟩ :=
      Domain.allocIovaWithLimit_some (allocFor_some halloc)
    · -- the cursor has not moved
      refine Inv.of_le (hlive.giveBack (pageUp_pageUp _)) (fun x => le_rfl) ?_ h.limit
      rw [nextIova_freeIova]
    · have hno := hok hnone (iova, d') halloc
      rw [hfailed] at hno
      cases hno

theorem Inv.perm {d : Domain} {l l' : List Live} (h : Inv rmrrs ⟨d, l⟩) (hp : l'.Perm l) :
    Inv rmrrs ⟨d, l'⟩ := by
  refine h.of_le (fun x => ?_) le_rfl fun v hv => h.limit v (hp.mem_iff.mp hv)
  rw [cover_windows, cover_windows, cover_perm (hp.map Live.window)]

/-- **Unmapping a live window keeps the invariant.** -/
theorem Inv.unmap (h : Inv rmrrs s) {t : τ} {i : ℕ} (hs : step io rmrrs s (.unmap t i) = some s') :
    Inv rmrrs s' := by
  rw [step] at hs
  split at hs
  · cases hs
  rename_i v hv
  cases hs
  obtain ⟨hi, rfl⟩ := List.getElem?_eq_some_iff.mp hv
  have hfront : Inv rmrrs ⟨s.domain, s.live[i] :: s.live.eraseIdx i⟩ :=
    Inv.perm (l := s.live) h (getElem_cons_eraseIdx_perm hi)
  unfold unmapIova
  split_ifs with hguard
  · exact hfront.drop
  · refine hfront.giveBack ?_
    unfold pageUp
    omega

theorem Inv.step (h : Inv rmrrs s) {a : Act τ} (hok : NoNewRollback io rmrrs s a)
    (hs : step io rmrrs s a = some s') : Inv rmrrs s' := by
  cases a with
  | map t phys size limit => exact h.map hok hs
  | unmap t i => exact h.unmap hs

/-- **In every run without a roll-back of a new window, windows are exclusive.** -/
theorem exclusive_of_noNewRollback (io : PageTables τ) (rmrrs : List Rmrr) (agaw : Agaw)
    (mgaw haw : ℕ) (acts : List (Act τ)) (s : State)
    (h : run (Iommu.step io rmrrs) (init agaw mgaw haw) acts = some s)
    (hmeets : RunMeets (Iommu.step io rmrrs) (NoNewRollback io rmrrs) (init agaw mgaw haw) acts) :
    Exclusive rmrrs s :=
  (run_invariant (Inv rmrrs) (fun _ _ _ hi hok hs => hi.step hok hs) acts
    (inv_init agaw mgaw haw) hmeets h).exclusive

end Inv

/-- Page tables that answer as they are told to. -/
def scripted : PageTables (List Bool) := ⟨fun t _ _ => (t.headD true, t.tail), fun t _ => t⟩

/-- Two requests of a page, the first of which finds no frame for a table. -/
def rolledBack : List (Act (List Bool)) :=
  [.map [false] 0x100000 4096 none, .map [] 0x100000 4096 none]

/-- **After the roll-back the window is live and still ahead of the cursor.** -/
theorem rolledBack_overlaps : ∃ s, run (step scripted []) (init .level3 39 39) rolledBack = some s ∧
      s.domain.nextIova = 0x1000 ∧ s.live = [⟨⟨0x1000, 4096⟩, 2 ^ 39⟩] ∧ ¬ Exclusive [] s := by
  refine ⟨⟨⟨0x1000, 2 ^ 39, []⟩, [⟨⟨0x1000, 4096⟩, 2 ^ 39⟩]⟩, by decide +kernel, rfl, rfl, ?_⟩
  intro h
  have := h.cursor _ (mem_singleton.mpr rfl) 0x1000 (by decide) (by decide)
  revert this
  decide

/-- A window goes back to the list, is taken and rolled back, and is cut for a request below a
limit. -/
def reused : List (Act (List Bool)) :=
  [.map [] 0x100000 8192 none, .unmap [] 0, .map [true, false] 0x100000 8192 none,
    .map [] 0x100000 4096 (some 0x100000)]

theorem exclusive_of_noNewRollback_reused :
    ∃ s, run (step scripted []) (init .level3 39 39) reused = some s ∧
      s.live = [⟨⟨0x1000, 4096⟩, 0x100000⟩] ∧ Exclusive [] s := by
  have hrun : run (step scripted []) (init .level3 39 39) reused =
      some ⟨⟨0x3000, 2 ^ 39, [⟨0x2000, 4096⟩]⟩, [⟨⟨0x1000, 4096⟩, 0x100000⟩]⟩ := by decide +kernel
  exact ⟨_, hrun, rfl,
    exclusive_of_noNewRollback scripted [] .level3 39 39 reused _ hrun (by decide +kernel)⟩

end Bedrock.Iommu
