import Bedrock.Iommu.DmaRemap
import Bedrock.Lib.Run
import Mathlib.Data.List.GetD

/-!
# Iommu/Reach — which frames a device can reach

Every device page outside the identity-mapped ranges leads to a frame in use, and the cache is the
inverse of the tables there:

    v --tables--▸ p        p in use,   cache p = v

A new mapping goes to a frame that had none, `free` takes a buffer's pages and its frames' cache
entries down together.  Nothing takes down what `virt_to_phys` made for another kernel page: once
such a page is released, the device still reaches it (`released_reachable`).
-/

namespace Bedrock.Iommu

open Function BitmapAllocator Slpt List

/-- The frame of `p` is managed and not in use. -/
def FreeFrame (a : BitmapAllocator) (p : ℕ) : Prop :=
  p / 4096 < a.totalFrames ∧ a.isUsed (p / 4096) = false

/-- Calls, and what else happens to frames and kernel pages: `remap` is a change of the kernel's own
page tables, `take` and `release` are those of ordinary frames. -/
inductive Call
  | allocPage (tables : ℕ) (released : List ℕ)
  | allocContiguous (count tables : ℕ) (released : List ℕ)
  | allocBelow4g (count tables : ℕ) (released : List ℕ)
  | virtToPhys (vaddr : ℕ)
  | free (i : ℕ) (released : List ℕ)
  | remap (va : ℕ) (leaf : Option Leaf)
  | take
  | release (frame : ℕ)

namespace Dma

/-- An allocation's buffer is in use from now on. -/
def keep (r : Option DmaBuffer × Dma) : Dma := { r.2 with buffers := r.1.toList ++ r.2.buffers }

/-- One call. -/
def step (c : Setup) (s : Dma) : Call → Option Dma
  | .allocPage tables released => (s.allocPage c tables released).map keep
  | .allocContiguous count tables released => (s.allocContiguous c count tables released).map keep
  | .allocBelow4g count tables released => (s.allocBelow4g c count tables released).map keep
  | .virtToPhys vaddr => some (s.virtToPhys c vaddr).2
  | .free i released =>
    match s.buffers[i]? with
    | none => none
    | some b => some { s.freeBuffer c b released with buffers := s.buffers.eraseIdx i }
  | .remap va leaf => some { s with cpu := update s.cpu va leaf }
  | .take => s.alloc.alloc.map fun r => { s with alloc := r.2 }
  | .release frame => some { s with alloc := s.alloc.free frame }

/-- No device page outside `ids` leads to one of these frames. -/
def Untargeted (ids : ℕ → Prop) (s : Dma) (frames : List ℕ) : Prop :=
  ∀ v p, ¬ ids v → s.slpt.leaf v = some p → ∀ f ∈ frames, f / 4096 ≠ p / 4096

/-- The condition on a call: the contiguous search finds free frames, `virt_to_phys` is asked about
a frame in use, and no frame is released that a device page leads to. -/
def Clean (ids : ℕ → Prop) (s : Dma) : Call → Prop
  | .allocPage _ released => s.Untargeted ids released
  | .allocContiguous count _ released =>
    ContigSafe s.alloc count 1 s.alloc.totalFrames ∧ s.Untargeted ids released
  | .allocBelow4g count _ released =>
    ContigSafe s.alloc count 1 (hiCap 0x100000000 s.alloc) ∧ s.Untargeted ids released
  | .virtToPhys vaddr => ∀ leaf, s.cpu (pageDown vaddr) = some leaf → ¬ FreeFrame s.alloc leaf.frame
  | .free _ released => s.Untargeted ids released
  | .release frame => s.Untargeted ids [frame]
  | .remap _ _ => True
  | .take => True

/-- The state after boot: the tables map the pages of `ids` to themselves, the cache is empty and
there are no buffers. -/
structure Boot (ids : ℕ → Prop) (s : Dma) : Prop where
  sound : s.alloc.Sound
  identity : ∀ v p, s.slpt.leaf v = some p ↔ ids v ∧ p = v
  cache : ∀ p, s.cache p = none
  buffers : s.buffers = []

end Dma

/-- The pages of a buffer, as the device sees them. -/
def DmaBuffer.Page (b : DmaBuffer) (v : ℕ) : Prop := InWindow b.phys (b.size / 4096) v

/-! ## Frames given back -/

/-- `a'` is `a` after frames with the property `P` were given back. -/
inductive Frees (P : ℕ → Prop) (a : BitmapAllocator) : BitmapAllocator → Prop
  | refl : Frees P a a
  | free {a' : BitmapAllocator} {f : ℕ} : Frees P a a' → P f → Frees P a (a'.free f)

section Frees

variable {P : ℕ → Prop} {a a' a'' : BitmapAllocator} {p f : ℕ}

theorem Frees.trans (h : Frees P a a') (h' : Frees P a' a'') : Frees P a a'' := by
  induction h' with
  | refl => exact h
  | free _ hf ih => exact ih.free hf

theorem Frees.mono {Q : ℕ → Prop} (hPQ : ∀ f, P f → Q f) (h : Frees P a a') : Frees Q a a' := by
  induction h with
  | refl => exact .refl
  | free _ hf ih => exact ih.free (hPQ _ hf)

theorem Frees.sound (h : Frees P a a') (hs : a.Sound) : a'.Sound := by
  induction h with
  | refl => exact hs
  | free _ _ ih => exact free_sound ih

theorem freeFrame_of_free (h : FreeFrame (a.free f) p) (hne : f / 4096 ≠ p / 4096) :
    FreeFrame a p := by
  obtain ⟨hlt, hused⟩ := h
  refine ⟨free_total a f ▸ hlt, ?_⟩
  unfold BitmapAllocator.free at hused
  dsimp only at hused
  split_ifs at hused
  · exact hused
  · exact hused
  all_goals
    have hbit : (a.setFree (f / 4096)).isUsed (p / 4096) = false := hused
    rw [isUsed_setFree, decide_eq_false (Ne.symm hne), Bool.not_false, Bool.true_and] at hbit
    exact hbit

theorem Frees.freeFrame (h : Frees P a a') (hp : FreeFrame a' p)
    (hne : ∀ f, P f → f / 4096 ≠ p / 4096) : FreeFrame a p := by
  induction h with
  | refl => exact hp
  | free _ hf ih => exact ih (freeFrame_of_free hp (hne _ hf))

theorem frees_releaseAll : ∀ (frames : List ℕ) (a : BitmapAllocator),
    Frees (· ∈ frames) a (Dma.releaseAll a frames)
  | [], _ => .refl
  | f :: frames, a =>
    Frees.trans (.free .refl mem_cons_self)
      ((frees_releaseAll frames (a.free f)).mono fun _ hf => mem_cons_of_mem _ hf)

/-- Frames drawn are no longer free, and no others become free. -/
theorem Draws.freeFrame (hs : a.Sound) (h : Draws a a') (hp : FreeFrame a' p) : FreeFrame a p := by
  obtain ⟨n, hn⟩ := h
  obtain ⟨-, htotal, hused, -⟩ := drawn_spec hs hn
  refine ⟨htotal ▸ hp.1, Bool.eq_false_iff.mpr fun hu => ?_⟩
  exact absurd (hused _ hu) (Bool.eq_false_iff.mp hp.2)

theorem Draws.sound (hs : a.Sound) (h : Draws a a') : a'.Sound := by
  obtain ⟨n, hn⟩ := h
  exact (drawn_spec hs hn).1

end Frees

/-! ## The invariant -/

namespace Dma

variable {c : Setup} {ids : ℕ → Prop} {s s' : Dma}

/-- Device pages outside `ids` lead to frames in use, the cache is their inverse, and each buffer
has pages of its own. -/
structure Inv (c : Setup) (ids : ℕ → Prop) (s : Dma) : Prop where
  sound : s.alloc.Sound
  identity : ∀ v, ids v → s.slpt.leaf v ≠ none
  used : ∀ v p, ¬ ids v → s.slpt.leaf v = some p → ¬ FreeFrame s.alloc p
  fits : ∀ v p, ¬ ids v → s.slpt.leaf v = some p → Fits c.agaw v p
  cached : ∀ v p, ¬ ids v → s.slpt.leaf v = some p → s.cache p = some v
  cache : ∀ p v, s.cache p = some v → ¬ ids v ∧ s.slpt.leaf v = some p
  buffers : ∀ b ∈ s.buffers, b.phys % 4096 = 0 ∧ b.size % 4096 = 0 ∧
    ∀ v, b.Page v → ¬ ids v ∧ s.slpt.leaf v ≠ none
  apart : s.buffers.Pairwise fun b b' => ∀ v, b.Page v → ¬ b'.Page v

theorem Boot.inv (h : Boot ids s) : Inv c ids s where
  sound := h.sound
  identity v hv := by rw [(h.identity v v).mpr ⟨hv, rfl⟩]; exact nofun
  used v p hv hleaf := absurd ((h.identity v p).mp hleaf).1 hv
  fits v p hv hleaf := absurd ((h.identity v p).mp hleaf).1 hv
  cached v p hv hleaf := absurd ((h.identity v p).mp hleaf).1 hv
  cache p v hc := by rw [h.cache p] at hc; cases hc
  buffers := by rw [h.buffers]; exact nofun
  apart := by rw [h.buffers]; exact List.Pairwise.nil

/-- What only moves frames that no device page leads to keeps the invariant. -/
theorem Inv.frames (h : Inv c ids s) (hslpt : s'.slpt.leaf = s.slpt.leaf)
    (hcache : s'.cache = s.cache) (hbuf : s'.buffers = s.buffers) (hsound : s'.alloc.Sound)
    (hfree : ∀ v p, ¬ ids v → s.slpt.leaf v = some p → FreeFrame s'.alloc p → FreeFrame s.alloc p) :
    Inv c ids s' where
  sound := hsound
  identity := hslpt ▸ h.identity
  used v p hv hleaf hf := h.used v p hv (hslpt ▸ hleaf) (hfree v p hv (hslpt ▸ hleaf) hf)
  fits := hslpt ▸ h.fits
  cached := by rw [hslpt, hcache]; exact h.cached
  cache := by rw [hslpt, hcache]; exact h.cache
  buffers := by rw [hslpt, hbuf]; exact h.buffers
  apart := hbuf ▸ h.apart

theorem Inv.draws (h : Inv c ids s) (hslpt : s'.slpt.leaf = s.slpt.leaf)
    (hcache : s'.cache = s.cache) (hbuf : s'.buffers = s.buffers) (hd : Draws s.alloc s'.alloc) :
    Inv c ids s' :=
  h.frames hslpt hcache hbuf (hd.sound h.sound) fun _ _ _ _ => hd.freeFrame h.sound

/-! ## New mappings -/

variable {n phys iova p size va v : ℕ} {slpt : Slpt} {limit : Option ℕ} {released : List ℕ}
  {b : DmaBuffer}

theorem pageDown_of_mod (h : n % 4096 = 0) : pageDown n = n := by
  unfold pageDown
  omega

/-- The cache after a run of frames was entered: it has the run's pages… -/
theorem cached_of_lt {cache : ℕ → Option ℕ} (hp : phys % 4096 = 0)
    (hi : iova % 4096 = 0) : ∀ {n i : ℕ}, i < n →
    Dma.cached cache phys iova n (phys + i * 4096) = some (iova + i * 4096)
  | n + 1, i, h => by
    rw [Dma.cached, pageDown_of_mod (by omega), pageDown_of_mod (by omega)]
    by_cases hin : i = n
    · rw [hin, update_self]
    · rw [update_of_ne (by omega), cached_of_lt hp hi (by omega)]

/-- …and is otherwise what it was. -/
theorem cached_of_not {cache : ℕ → Option ℕ} (hp : phys % 4096 = 0) :
    ∀ {n : ℕ}, ¬ InWindow phys n p → Dma.cached cache phys iova n p = cache p
  | 0, _ => rfl
  | n + 1, h => by
    have hne : p ≠ phys + n * 4096 := fun hv => h ⟨n, Nat.lt_succ_self n, hv⟩
    rw [Dma.cached, pageDown_of_mod (by omega), update_of_ne hne]
    exact cached_of_not hp fun ⟨i, hi, hv⟩ => h ⟨i, Nat.lt_succ_of_lt hi, hv⟩

/-- **A window of new pages to frames that had none keeps the invariant.** -/
theorem Inv.mapTo (h : Inv c ids s) {a : BitmapAllocator}
    (hto : MappedTo c.agaw iova phys n (s.slpt, s.alloc) (slpt, a))
    (hi : iova % 4096 = 0) (hp : phys % 4096 = 0)
    (hnone : ∀ i < n, ∀ v, ¬ ids v → s.slpt.leaf v ≠ some (phys + i * 4096))
    (hused : ∀ i < n, ¬ FreeFrame s.alloc (phys + i * 4096)) (d : Domain) :
    Inv c ids { s with
      domain := d, slpt := slpt, alloc := a, cache := Dma.cached s.cache phys iova n } := by
  have hleaf : slpt.leaf = window s.slpt.leaf iova phys n := hto.leaf
  -- a page outside the identity ranges is a new one, or leads where it did
  have hcases : ∀ v p, slpt.leaf v = some p →
      (∃ i < n, v = iova + i * 4096 ∧ p = phys + i * 4096) ∨
      ¬ InWindow iova n v ∧ s.slpt.leaf v = some p := by
    intro v p hv
    rw [hleaf] at hv
    by_cases hin : InWindow iova n v
    · obtain ⟨i, hin, rfl⟩ := hin
      rw [window_of_lt hin] at hv
      exact .inl ⟨i, hin, rfl, (Option.some.inj hv).symm⟩
    · rw [window_of_not hin] at hv
      exact .inr ⟨hin, hv⟩
  have hnew : ∀ v, InWindow iova n v → s.slpt.leaf v = none := by
    rintro v ⟨i, hin, rfl⟩
    exact hto.fresh i hin
  have hold : ∀ v, s.slpt.leaf v ≠ none → slpt.leaf v = s.slpt.leaf v := fun v hv => by
    rw [hleaf, window_of_not fun hin => hv (hnew v hin)]
  refine ⟨hto.draws.sound h.sound, fun v hv => ?_, ?_, ?_, ?_, ?_, fun b hb => ?_, h.apart⟩
  · rw [hold v (h.identity v hv)]
    exact h.identity v hv
  · intro v p hv hvp hf
    have hf := hto.draws.freeFrame h.sound hf
    obtain ⟨i, hin, -, rfl⟩ | ⟨-, hvp⟩ := hcases v p hvp
    · exact hused i hin hf
    · exact h.used v p hv hvp hf
  · intro v p hv hvp
    obtain ⟨i, hin, rfl, rfl⟩ | ⟨-, hvp⟩ := hcases v p hvp
    · exact hto.fits i hin
    · exact h.fits v p hv hvp
  · intro v p hv hvp
    obtain ⟨i, hin, rfl, rfl⟩ | ⟨-, hvp⟩ := hcases v p hvp
    · exact cached_of_lt hp hi hin
    · rw [← h.cached v p hv hvp]
      refine cached_of_not hp ?_
      rintro ⟨i, hin, rfl⟩
      exact hnone i hin v hv hvp
  · intro p v hc
    by_cases hin : InWindow phys n p
    · obtain ⟨i, hin, rfl⟩ := hin
      dsimp only at hc
      rw [cached_of_lt hp hi hin] at hc
      cases hc
      refine ⟨fun hv => h.identity _ hv (hto.fresh i hin), ?_⟩
      rw [hleaf, window_of_lt hin]
    · dsimp only at hc
      rw [cached_of_not hp hin] at hc
      obtain ⟨hv, hvp⟩ := h.cache p v hc
      refine ⟨hv, ?_⟩
      rw [hold v (hvp ▸ nofun), hvp]
  · obtain ⟨hbp, hbs, hpage⟩ := h.buffers b hb
    refine ⟨hbp, hbs, fun v hv => ⟨(hpage v hv).1, ?_⟩⟩
    rw [hold v (hpage v hv).2]
    exact (hpage v hv).2

/-! ## The CPU's view -/

theorem reserveWindow_some (h : s.reserveWindow c size = some (va, s')) :
    ∃ next windows, s' = { s with nextVaddr := next, vaWindows := windows } := by
  unfold reserveWindow at h
  split at h
  · obtain ⟨-, rfl⟩ := Prod.mk.inj (Option.some.inj h)
    exact ⟨_, _, rfl⟩
  · split_ifs at h
    obtain ⟨-, rfl⟩ := Prod.mk.inj (Option.some.inj h)
    exact ⟨_, _, rfl⟩

theorem reclaimWindow_eq (s : Dma) (va size : ℕ) :
    ∃ windows, s.reclaimWindow va size = { s with vaWindows := windows } := by
  unfold reclaimWindow
  split_ifs
  · exact ⟨_, rfl⟩
  · exact ⟨_, rfl⟩

/-- Addresses of the DMA area are no concern of the device. -/
theorem Inv.reclaim (h : Inv c ids s) (va size : ℕ) :
    Inv c ids (keep (none, s.reclaimWindow va size)) := by
  obtain ⟨windows, hl⟩ := reclaimWindow_eq s va size
  rw [hl]
  exact h.frames rfl rfl rfl h.sound fun _ _ _ _ => id

theorem mapped_of_lt {cpu : ℕ → Option Leaf} {huge : ℕ} : ∀ {n i : ℕ}, i < n →
    mapped cpu va phys huge n (va + i * 4096) = some ⟨phys + i * 4096, i < huge⟩
  | n + 1, i, h => by
    rw [mapped]
    by_cases hin : i = n
    · rw [hin, update_self]
    · rw [update_of_ne (by omega), mapped_of_lt (by omega)]

theorem mapCpu_some {tables : ℕ} (h : s.mapCpu va phys n tables = some s') :
    ∃ a huge, Draws s.alloc a ∧ s' = { s with alloc := a, cpu := mapped s.cpu va phys huge n } := by
  unfold mapCpu at h
  split_ifs at h
  obtain ⟨a, ha, rfl⟩ := Option.map_eq_some_iff.mp h
  exact ⟨a, _, ⟨tables, ha⟩, rfl⟩

theorem unmapCpu_of_ne {cpu : ℕ → Option Leaf} (h : v ≠ va) : unmapCpu cpu va v = cpu v := by
  unfold unmapCpu
  obtain _ | ⟨frame, _ | _⟩ := cpu va
  · rfl
  · exact update_of_ne h _ _
  · rfl

theorem rollbackPages_cpu : ∀ (n : ℕ) (t : (ℕ → Option Leaf) × BitmapAllocator),
    ¬ InWindow va n v → (rollbackPages va n t).1 v = t.1 v
  | 0, _, _ => rfl
  | n + 1, t, h => by
    have hne : v ≠ va + n * 4096 := fun hv => h ⟨n, Nat.lt_succ_self n, hv⟩
    have ih := rollbackPages_cpu n t fun ⟨i, hi, hv⟩ => h ⟨i, Nat.lt_succ_of_lt hi, hv⟩
    rw [rollbackPages]
    split
    · exact ih
    · rw [← ih]
      exact unmapCpu_of_ne hne

/-- The roll-back gives back the frames that the pages led to. -/
theorem frees_rollbackPages {P : ℕ → Prop} : ∀ (n : ℕ) (t : (ℕ → Option Leaf) × BitmapAllocator),
      (∀ i < n, ∀ leaf, t.1 (va + i * 4096) = some leaf → P (pageDown leaf.frame)) →
      Frees P t.2 (rollbackPages va n t).2
  | 0, _, _ => .refl
  | n + 1, t, h => by
    have ih := frees_rollbackPages n t fun i hi => h i (Nat.lt_succ_of_lt hi)
    have hcpu : (rollbackPages va n t).1 (va + n * 4096) = t.1 (va + n * 4096) :=
      rollbackPages_cpu n t (by rintro ⟨i, hi, hv⟩; omega)
    rw [rollbackPages]
    split
    · exact ih
    next leaf hleaf => exact ih.free (h n (Nat.lt_succ_self n) leaf (hcpu ▸ hleaf))

theorem frees_freePages {frames : List ℕ} :
    ∀ (n : ℕ) (t : (ℕ → Option Leaf) × BitmapAllocator × Bool), n ≤ frames.length →
      Frees (· ∈ frames) t.2.1 (freePages va frames n t).2.1
  | 0, _, _ => .refl
  | n + 1, t, h => by
    have ih : Frees (· ∈ frames) t.2.1 (freePages va frames n t).2.1 :=
      frees_freePages n t (by omega)
    rw [freePages]
    split
    · exact ih
    next leaf _ =>
      refine ih.free ?_
      rw [getD_eq_getElem _ _ h]
      exact getElem_mem h

/-! ## The calls -/

theorem mapIova_none (h : s.mapIova c phys size limit = (none, s')) :
    ∃ d slpt a, s' = { s with domain := d, slpt := slpt, alloc := a } ∧
      slpt.leaf = s.slpt.leaf ∧ Draws s.alloc a := by
  obtain ⟨hnone, rfl⟩ := Prod.mk.inj h
  have heq : mapPhysToIova (pageTables c.agaw) c.rmrrs s.domain (s.slpt, s.alloc) phys size limit =
      (none, _, _) := Prod.ext hnone rfl
  obtain ⟨hleaf, hdraws⟩ := mapPhysToIova_none heq
  exact ⟨_, _, _, rfl, hleaf, hdraws⟩

theorem mapIova_some {addr : ℕ} (h : s.mapIova c phys size limit = (some addr, s')) :
    ∃ d slpt a iova, s' = { s with domain := d, slpt := slpt, alloc := a } ∧
      addr = iova + phys % 4096 ∧
      MappedTo c.agaw iova (pageDown phys) (pageUp (size + phys % 4096) / 4096) (s.slpt, s.alloc)
        (slpt, a) := by
  obtain ⟨hsome, rfl⟩ := Prod.mk.inj h
  have heq : mapPhysToIova (pageTables c.agaw) c.rmrrs s.domain (s.slpt, s.alloc) phys size limit =
      (some addr, _, _) := Prod.ext hsome rfl
  obtain ⟨iova, haddr, hto⟩ := mapPhysToIova_some heq
  exact ⟨_, _, _, iova, rfl, haddr, hto⟩

/-- What an allocation relies on: `n` frames from `phys` were free, are not any more, and nothing
else became free. -/
structure RunGranted (n : ℕ) (a : BitmapAllocator) (phys : ℕ) (a' : BitmapAllocator) : Prop where
  aligned : phys % 4096 = 0
  sound : a'.Sound
  before : ∀ i < n, FreeFrame a (phys + i * 4096)
  after : ∀ i < n, ¬ FreeFrame a' (phys + i * 4096)
  others : ∀ p, FreeFrame a' p → FreeFrame a p

theorem FreeFrame_congr {a : BitmapAllocator} {q : ℕ} (h : p / 4096 = q / 4096) :
    FreeFrame a p ↔ FreeFrame a q := by
  unfold FreeFrame
  rw [h]

variable (h : Inv c ids s)
include h

/-- A roll-back gives frames back that have no device page. -/
theorem Inv.rollback {t : Dma}
    (hslpt : t.slpt.leaf = s.slpt.leaf) (hcache : t.cache = s.cache) (hbuf : t.buffers = s.buffers)
    (hsound : t.alloc.Sound) (hfree : ∀ p, FreeFrame t.alloc p → FreeFrame s.alloc p)
    (hp : phys % 4096 = 0) (hcpu : ∀ i < n, ∀ leaf, t.cpu (va + i * 4096) = some leaf →
      leaf.frame = phys + i * 4096)
    (hrun : ∀ i < n, FreeFrame s.alloc (phys + i * 4096)) (hrel : s.Untargeted ids released) :
    Inv c ids (t.rollbackCpu va n released) := by
  have hback : Frees (fun f => (∃ i < n, f = phys + i * 4096) ∨ f ∈ released) t.alloc
      (t.rollbackCpu va n released).alloc := by
    refine Frees.trans ((frees_rollbackPages (P := fun f => ∃ i < n, f = phys + i * 4096) n
      (t.cpu, t.alloc) ?_).mono fun _ => .inl) ((frees_releaseAll released _).mono fun _ => .inr)
    intro i hi leaf hleaf
    rw [hcpu i hi leaf hleaf, pageDown_of_mod (by omega)]
    exact ⟨i, hi, rfl⟩
  refine h.frames hslpt hcache hbuf (hback.sound hsound) fun v p hv hleaf hf => ?_
  refine hfree p (hback.freeFrame hf ?_)
  rintro f (⟨i, hi, rfl⟩ | hf) heq
  · exact h.used v p hv hleaf ((FreeFrame_congr heq).mp (hrun i hi))
  · exact hrel v p hv hleaf f hf heq

theorem Inv.newBuffer {a : BitmapAllocator} {d : Domain}
    (hto : MappedTo c.agaw iova phys n (s.slpt, s.alloc) (slpt, a)) (hi : iova % 4096 = 0)
    (h' : Inv c ids
      { s with domain := d, slpt := slpt, alloc := a, cache := Dma.cached s.cache phys iova n }) :
    Inv c ids (keep (some ⟨iova, va, n * 4096⟩, { s with
      domain := d, slpt := slpt, alloc := a, cache := Dma.cached s.cache phys iova n })) := by
  have hpage : ∀ v, DmaBuffer.Page ⟨iova, va, n * 4096⟩ v → ∃ i < n, v = iova + i * 4096 := by
    rintro v ⟨i, hin, rfl⟩
    dsimp only at hin
    exact ⟨i, by omega, rfl⟩
  refine ⟨h'.sound, h'.identity, h'.used, h'.fits, h'.cached, h'.cache, ?_, ?_⟩
  · refine forall_mem_cons.mpr ⟨⟨hi, by dsimp only; omega, fun v hv => ?_⟩, h'.buffers⟩
    obtain ⟨i, hin, rfl⟩ := hpage v hv
    refine ⟨fun hv => h.identity _ hv (hto.fresh i hin), ?_⟩
    have hleaf : slpt.leaf = window s.slpt.leaf iova phys n := hto.leaf
    show slpt.leaf _ ≠ none
    rw [hleaf, window_of_lt hin]
    exact nofun
  · refine List.Pairwise.cons (fun b hb v hv hv' => ?_) h'.apart
    obtain ⟨i, hin, rfl⟩ := hpage v hv
    exact ((h.buffers b hb).2.2 _ hv').2 (hto.fresh i hin)

/-- **An allocation keeps the invariant.** -/
theorem Inv.allocBuffer {tables : ℕ}
    {draw : BitmapAllocator → Option (ℕ × BitmapAllocator)} {r : Option DmaBuffer × Dma}
    (hn : 0 < n) (hdraw : ∀ phys a', draw s.alloc = some (phys, a') → RunGranted n s.alloc phys a')
    (hrel : s.Untargeted ids released)
    (hs : s.allocBuffer c n draw limit tables released = some r) : Inv c ids (keep r) := by
  unfold Dma.allocBuffer at hs
  dsimp only at hs
  split at hs
  · cases hs
    exact h
  next va s1 hwin =>
    obtain ⟨next, windows, rfl⟩ := reserveWindow_some hwin
    dsimp only at hs
    split at hs
    · cases hs
      refine Inv.reclaim ?_ _ _
      exact h.frames rfl rfl rfl h.sound fun _ _ _ _ => id
    next phys a hgrant =>
      have hg := hdraw phys a hgrant
      have hp := hg.aligned
      split at hs
      · cases hs
      rename_i s2 hcpu
      obtain ⟨a2, huge, hd, rfl⟩ := mapCpu_some hcpu
      dsimp only at hd
      -- the frames of the run have no device page
      have hnone : ∀ i < n, ∀ v, ¬ ids v → s.slpt.leaf v ≠ some (phys + i * 4096) :=
        fun i hi v hv hleaf => h.used v _ hv hleaf (hg.before i hi)
      split at hs
      next s3 hmap =>
        obtain ⟨d, slpt, a3, rfl, hleaf, hd'⟩ := mapIova_none hmap
        cases hs
        dsimp only at hleaf hd'
        refine Inv.reclaim ?_ _ _
        refine h.rollback hleaf rfl rfl (hd'.sound (hd.sound hg.sound))
          (fun p hf => hg.others p (hd.freeFrame hg.sound
            (hd'.freeFrame (hd.sound hg.sound) hf)))
          hp (fun i hi leaf hl => ?_) hg.before hrel
        dsimp only at hl
        rw [mapped_of_lt hi] at hl
        exact (congrArg Leaf.frame (Option.some.inj hl)).symm
      next addr s3 hmap =>
        obtain ⟨d, slpt, a3, iova, rfl, haddr, hto⟩ := mapIova_some hmap
        cases hs
        rw [pageDown_of_mod hp, hp, Nat.add_zero,
          show pageUp (n * 4096) / 4096 = n by unfold pageUp; omega] at hto
        obtain rfl : addr = iova := by omega
        have hi : addr % 4096 = 0 := by simpa using (hto.fits 0 hn).iova_aligned
        have h2 : Inv c ids { s with nextVaddr := next, vaWindows := windows, alloc := a2,
                                     cpu := mapped s.cpu va phys huge n } :=
          h.frames rfl rfl rfl (hd.sound hg.sound) fun v p _ _ hf =>
            hg.others p (hd.freeFrame hg.sound hf)
        refine h2.newBuffer hto hi (h2.mapTo hto hi hp hnone (fun i hin hf => ?_) d)
        exact hg.after i hin (hd.freeFrame hg.sound hf)

omit h in
theorem runGranted_alloc {a a' : BitmapAllocator} (hs : a.Sound)
    (h : a.alloc = some (phys, a')) : RunGranted 1 a phys a' := by
  have hg := granted_of_alloc hs h
  refine ⟨hg.aligned, hg.sound hs, fun i hi => ?_, fun i hi hf => ?_, fun p hf => ?_⟩
  · obtain rfl : i = 0 := by omega
    exact ⟨hg.lt, hg.wasFree⟩
  · obtain rfl : i = 0 := by omega
    have hused := hf.2
    rw [hg.used, Nat.zero_mul, Nat.add_zero, decide_eq_true rfl, Bool.true_or] at hused
    cases hused
  · have hused := hf.2
    rw [hg.used, Bool.or_eq_false_iff] at hused
    exact ⟨hg.total ▸ hf.1, hused.2⟩

omit h in
theorem runGranted_contig {a a' : BitmapAllocator} {count cap : ℕ} (hs : a.Sound)
    (hcap : cap ≤ a.totalFrames) (hsafe : ContigSafe a count 1 cap)
    (h : a.allocContigCore count 1 cap = some (.ok phys, a')) : RunGranted count a phys a' := by
  obtain ⟨hsound, htotal, hend⟩ := sound_of_allocContigCore hs hcap h
  have hg := hsafe phys a' h
  have hal : phys % 4096 = 0 := by simpa using hg.aligned
  refine ⟨hal, hsound, fun i hi => ?_, fun i hi hf => ?_, fun p hf => ?_⟩
  · exact ⟨by omega, hg.free_before _ (by omega) (by omega)⟩
  · have hused := hf.2
    rw [hg.used_after, decide_eq_true (by omega), Bool.or_true] at hused
    cases hused
  · have hused := hf.2
    rw [hg.used_after, Bool.or_eq_false_iff] at hused
    exact ⟨htotal ▸ hf.1, hused.1⟩

/-- **`virt_to_phys` keeps the invariant** if the frame is in use. -/
theorem Inv.virtToPhys {vaddr : ℕ} (hok : Clean ids s (.virtToPhys vaddr)) :
    Inv c ids (s.virtToPhys c vaddr).2 := by
  unfold Dma.virtToPhys
  split
  · exact h
  next leaf hcpu =>
    dsimp only
    split_ifs
    · exact h
    split
    · exact h
    next hcache =>
      split
      next s' hmap =>
        obtain ⟨d, slpt, a, rfl, hleaf, hdraws⟩ := mapIova_none hmap
        exact h.draws hleaf rfl rfl hdraws
      next addr s' hmap =>
        obtain ⟨d, slpt, a, iova, rfl, haddr, hto⟩ := mapIova_some hmap
        have hp : pageDown leaf.frame % 4096 = 0 := by unfold pageDown; omega
        rw [pageDown_of_mod hp, hp, Nat.add_zero, show pageUp 4096 / 4096 = 1 from rfl] at hto
        obtain rfl : addr = iova := by omega
        have hi : addr % 4096 = 0 := by simpa using (hto.fits 0 Nat.one_pos).iova_aligned
        have hcached : update s.cache (pageDown leaf.frame) (some (pageDown addr)) =
            Dma.cached s.cache (pageDown leaf.frame) addr 1 := by
          rw [Dma.cached, Dma.cached, Nat.zero_mul, Nat.add_zero, Nat.add_zero, pageDown_of_mod hp]
        rw [hcached]
        refine h.mapTo hto hi hp (fun i hin v hv hleaf => ?_) (fun i hin hf => ?_) d
        · obtain rfl : i = 0 := by omega
          rw [Nat.zero_mul, Nat.add_zero] at hleaf
          rw [h.cached v _ hv hleaf] at hcache
          cases hcache
        · obtain rfl : i = 0 := by omega
          refine hok leaf hcpu ((FreeFrame_congr ?_).mp hf)
          unfold pageDown
          omega

/-! ## Giving a buffer back -/

omit h in
/-- What the tables say of a page that fits is what `translate_iova` says. -/
theorem translate_of_fits (hf : Fits c.agaw v p)
    (h : slpt.leaf v = some p) : slpt.translate c.agaw v = some p := by
  have hv := hf.iova_aligned
  have hlt := hf.iova_lt
  rw [Slpt.translate, pageDown_of_mod hv, if_neg (by omega), h, Option.map_some, hv, Nat.add_zero,
    pageDown_of_mod hf.phys_aligned]

theorem Inv.physPages (hb : b ∈ s.buffers) :
    (s.physPages c b.phys (b.size / 4096)).length = b.size / 4096 ∧
    ∀ p, p ∈ s.physPages c b.phys (b.size / 4096) ↔ ∃ v, b.Page v ∧ s.slpt.leaf v = some p := by
  obtain ⟨-, -, hpage⟩ := h.buffers b hb
  have hex : ∀ i, ∃ p, i < b.size / 4096 → s.slpt.leaf (b.phys + i * 4096) = some p := fun i => by
    by_cases hi : i < b.size / 4096
    · obtain ⟨p, hp⟩ := Option.ne_none_iff_exists'.mp (hpage _ ⟨i, hi, rfl⟩).2
      exact ⟨p, fun _ => hp⟩
    · exact ⟨0, fun hlt => absurd hlt hi⟩
  choose frame hframe using hex
  have heq : s.physPages c b.phys (b.size / 4096) = (List.range (b.size / 4096)).map frame := by
    rw [Dma.physPages, ← filterMap_eq_map]
    refine filterMap_congr fun i hi => ?_
    have hlt := mem_range.mp hi
    have hfits := h.fits _ _ (hpage _ ⟨i, hlt, rfl⟩).1 (hframe i hlt)
    rw [translate_of_fits hfits (hframe i hlt), Option.map_some, pageDown_of_mod hfits.phys_aligned]
    rfl
  rw [heq]
  refine ⟨by rw [length_map, length_range], fun p => ?_⟩
  simp only [mem_map, mem_range]
  constructor
  · rintro ⟨i, hi, rfl⟩
    exact ⟨_, ⟨i, hi, rfl⟩, hframe i hi⟩
  · rintro ⟨v, ⟨i, hi, rfl⟩, hv⟩
    rw [hframe i hi] at hv
    exact ⟨i, hi, Option.some.inj hv⟩

/-- A buffer that is taken down: its pages lead nowhere, and its frames are given back and have no
cache entries. -/
theorem Inv.takeDown {t : Dma} {i : ℕ} {frames : List ℕ}
    (hb : s.buffers[i]? = some b) (hrel : s.Untargeted ids released)
    (hframes : ∀ p, p ∈ frames ↔ ∃ v, b.Page v ∧ s.slpt.leaf v = some p)
    (hnone : ∀ v, b.Page v → t.slpt.leaf v = none)
    (hleaf : ∀ v, ¬ b.Page v → t.slpt.leaf v = s.slpt.leaf v)
    (hcache : t.cache = fun p => if p ∈ frames then none else s.cache p)
    (halloc : Frees (fun f => f ∈ frames ∨ f ∈ released) s.alloc t.alloc)
    (hbuf : t.buffers = s.buffers.eraseIdx i) : Inv c ids t := by
  obtain ⟨-, -, hpage⟩ := h.buffers b (mem_of_getElem? hb)
  obtain ⟨hi, hget⟩ := List.getElem?_eq_some_iff.mp hb
  -- the other buffers have other pages
  have hpair : (b :: s.buffers.eraseIdx i).Pairwise fun b b' => ∀ v, b.Page v → ¬ b'.Page v :=
    h.apart.perm (hget ▸ getElem_cons_eraseIdx_perm hi).symm fun hab v hv hv' => hab v hv' hv
  obtain ⟨hother, hrest⟩ := pairwise_cons.mp hpair
  -- what is left of the tables
  have hcases : ∀ v p, t.slpt.leaf v = some p → ¬ b.Page v ∧ s.slpt.leaf v = some p := by
    intro v p hv
    by_cases hbv : b.Page v
    · rw [hnone v hbv] at hv
      cases hv
    · exact ⟨hbv, hleaf v hbv ▸ hv⟩
  -- a frame that is still led to was not the buffer's
  have hfar : ∀ v p, ¬ ids v → ¬ b.Page v → s.slpt.leaf v = some p → p ∉ frames := by
    intro v p hv hbv hvp hp
    obtain ⟨w, hbw, hwp⟩ := (hframes p).mp hp
    have hvw := h.cached v p hv hvp
    rw [h.cached w p (hpage w hbw).1 hwp] at hvw
    exact hbv (Option.some.inj hvw ▸ hbw)
  refine ⟨halloc.sound h.sound, fun v hv => ?_, ?_, ?_, ?_, ?_, ?_, hbuf ▸ hrest⟩
  · rw [hleaf v fun hbv => (hpage v hbv).1 hv]
    exact h.identity v hv
  · intro v p hv hvp hfree
    obtain ⟨hbv, hvp⟩ := hcases v p hvp
    refine h.used v p hv hvp (halloc.freeFrame hfree ?_)
    rintro f (hf | hf) heq
    · obtain ⟨w, hbw, hwf⟩ := (hframes f).mp hf
      have hfa := (h.fits w f (hpage w hbw).1 hwf).phys_aligned
      have hpa := (h.fits v p hv hvp).phys_aligned
      obtain rfl : f = p := by omega
      exact hfar v f hv hbv hvp hf
    · exact hrel v p hv hvp f hf heq
  · intro v p hv hvp
    exact h.fits v p hv (hcases v p hvp).2
  · intro v p hv hvp
    obtain ⟨hbv, hvp⟩ := hcases v p hvp
    rw [hcache]
    dsimp only
    rw [if_neg (hfar v p hv hbv hvp)]
    exact h.cached v p hv hvp
  · intro p v hp
    rw [hcache] at hp
    dsimp only at hp
    split_ifs at hp with hmem
    obtain ⟨hv, hvp⟩ := h.cache p v hp
    refine ⟨hv, ?_⟩
    rw [hleaf v fun hbv => hmem ((hframes p).mpr ⟨v, hbv, hvp⟩)]
    exact hvp
  · intro b' hb'
    rw [hbuf] at hb'
    obtain ⟨hp', hs', hpage'⟩ := h.buffers b' (mem_of_mem_eraseIdx hb')
    refine ⟨hp', hs', fun v hv => ⟨(hpage' v hv).1, ?_⟩⟩
    rw [hleaf v fun hbv => hother b' hb' v hbv hv]
    exact (hpage' v hv).2

/-- **`free` keeps the invariant**: the buffer's pages, frames and cache entries go together. -/
theorem Inv.freeBuffer {i : ℕ} (hb : s.buffers[i]? = some b) (hrel : s.Untargeted ids released) :
    Inv c ids { s.freeBuffer c b released with buffers := s.buffers.eraseIdx i } := by
  have hmem : b ∈ s.buffers := mem_of_getElem? hb
  have hsub : ∀ b' ∈ s.buffers.eraseIdx i, b' ∈ s.buffers := fun _ =>
    mem_of_mem_eraseIdx
  obtain ⟨hphys, hsize, hpage⟩ := h.buffers b hmem
  obtain ⟨hlen, hframes⟩ := h.physPages hmem
  unfold Dma.freeBuffer
  by_cases hguard : b.virt = 0 ∨ b.size = 0 ∨ b.size % 4096 ≠ 0
  · rw [if_pos hguard]
    exact ⟨h.sound, h.identity, h.used, h.fits, h.cached, h.cache,
      fun b' hb' => h.buffers b' (hsub b' hb'), h.apart.sublist (eraseIdx_sublist _ _)⟩
  rw [if_neg hguard, pageDown_of_mod hphys, show pageUp b.size = b.size by unfold pageUp; omega]
  have hn : ∀ j < b.size / 4096, (b.phys + j * 4096) % 4096 = 0 ∧
      b.phys + j * 4096 < 2 ^ c.agaw.bits := fun j hj => by
    obtain ⟨p, hp⟩ := Option.ne_none_iff_exists'.mp (hpage _ ⟨j, hj, rfl⟩).2
    have hfits := h.fits _ p (hpage _ ⟨j, hj, rfl⟩).1 hp
    exact ⟨hfits.iova_aligned, hfits.iova_lt⟩
  have hunmap : unmapIova (pageTables c.agaw) s.domain (s.slpt, s.alloc) b.phys b.size =
      (s.domain.freeIova b.phys b.size,
        unmapPages (pageTables c.agaw) b.phys (b.size / 4096) (s.slpt, s.alloc)) := by
    rw [unmapIova, if_neg (by omega)]
  have hdown : Inv c ids
      { s with
        domain := (unmapIova (pageTables c.agaw) s.domain (s.slpt, s.alloc) b.phys b.size).1
        slpt := (unmapIova (pageTables c.agaw) s.domain (s.slpt, s.alloc) b.phys b.size).2.1
        cache := fun p => if p ∈ s.physPages c b.phys (b.size / 4096) then none else s.cache p
        cpu := (freePages b.virt (s.physPages c b.phys (b.size / 4096)) (b.size / 4096)
          (s.cpu, s.alloc, false)).1
        alloc := releaseAll (freePages b.virt (s.physPages c b.phys (b.size / 4096)) (b.size / 4096)
          (s.cpu, s.alloc, false)).2.1 released
        buffers := s.buffers.eraseIdx i } := by
    refine h.takeDown hb hrel hframes (fun v hv => ?_) (fun v hv => ?_) rfl ?_ rfl
    · obtain ⟨j, hj, rfl⟩ := hv
      rw [hunmap]
      exact unmapPages_of_lt _ _ hj hn
    · rw [hunmap]
      exact unmapPages_of_not _ _ hv
    · exact Frees.trans ((frees_freePages _ (s.cpu, s.alloc, false) hlen.ge).mono fun _ => .inl)
        ((frees_releaseAll released _).mono fun _ => .inr)
  dsimp only
  split_ifs
  · obtain ⟨windows, hl⟩ := reclaimWindow_eq _ b.virt b.size
    rw [hl]
    exact hdown.frames rfl rfl rfl hdown.sound fun _ _ _ _ => id
  · exact hdown

/-- **Every call keeps the invariant**, under its condition. -/
theorem Inv.step {a : Call} (hok : Clean ids s a) (hs : s.step c a = some s') : Inv c ids s' := by
  cases a with
  | allocPage tables released =>
    obtain ⟨r, hr, rfl⟩ := Option.map_eq_some_iff.mp hs
    exact h.allocBuffer Nat.one_pos (fun _ _ => runGranted_alloc h.sound) hok hr
  | allocContiguous count tables released =>
    obtain ⟨r, hr, rfl⟩ := Option.map_eq_some_iff.mp hs
    unfold Dma.allocContiguous at hr
    split_ifs at hr with hcount
    · cases hr
      exact h
    · refine h.allocBuffer (by omega) (fun phys a' hdraw => ?_) hok.2 hr
      unfold contiguous at hdraw
      split at hdraw
      next phys' a'' heq =>
        cases hdraw
        exact runGranted_contig h.sound le_rfl hok.1 heq
      next => cases hdraw
  | allocBelow4g count tables released =>
    obtain ⟨r, hr, rfl⟩ := Option.map_eq_some_iff.mp hs
    unfold Dma.allocBelow4g at hr
    split_ifs at hr with hcount
    · cases hr
      exact h
    · refine h.allocBuffer (by omega) (fun phys a' hdraw => ?_) hok.2 hr
      unfold contiguousBelow at hdraw
      by_cases hcap : hiCap 0x100000000 s.alloc = 0 ∨ hiCap 0x100000000 s.alloc < count
      · rw [if_pos hcap] at hdraw
        cases hdraw
      · rw [if_neg hcap] at hdraw
        split at hdraw
        next phys' a'' heq =>
          cases hdraw
          exact runGranted_contig h.sound (min_le_right _ _) hok.1 heq
        next => cases hdraw
  | virtToPhys vaddr =>
    cases hs
    exact h.virtToPhys hok
  | free i released =>
    rw [Dma.step] at hs
    split at hs
    · cases hs
    rename_i b hb
    cases hs
    exact h.freeBuffer hb hok
  | remap va leaf =>
    cases hs
    exact h.frames rfl rfl rfl h.sound fun _ _ _ _ => id
  | take =>
    obtain ⟨r, hr, rfl⟩ := Option.map_eq_some_iff.mp hs
    exact h.draws rfl rfl rfl (Draws.of_alloc hr)
  | release frame =>
    cases hs
    refine h.frames rfl rfl rfl (free_sound h.sound) fun v p hv hleaf hf => ?_
    exact freeFrame_of_free hf (hok v p hv hleaf frame (mem_singleton.mpr rfl))

omit h

/-- **In every run of clean calls, devices cannot reach free memory**, and what the cache says is
what the tables say. -/
theorem unreachable_of_clean (c : Setup) (ids : ℕ → Prop) (s₀ : Dma) (h₀ : Boot ids s₀)
    (calls : List Call) (s : Dma) (h : run (Dma.step c) s₀ calls = some s)
    (hmeets : RunMeets (Dma.step c) (Clean ids) s₀ calls) :
    (∀ v p, ¬ ids (pageDown v) → s.slpt.translate c.agaw v = some p → ¬ FreeFrame s.alloc p) ∧
    ∀ p v, s.cache p = some v → s.slpt.translate c.agaw v = some p := by
  have hinv : Inv c ids s :=
    run_invariant (Inv c ids) (fun _ _ _ hi hok hs => hi.step hok hs) calls h₀.inv hmeets h
  constructor
  · intro v p hv htrans
    unfold Slpt.translate at htrans
    split_ifs at htrans
    obtain ⟨q, hq, rfl⟩ := Option.map_eq_some_iff.mp htrans
    have hpage : (pageDown q + v % 4096) / 4096 = q / 4096 := by unfold pageDown; omega
    exact fun hf => hinv.used _ q hv hq ((FreeFrame_congr hpage).mp hf)
  · intro p v hp
    obtain ⟨hv, hleaf⟩ := hinv.cache p v hp
    exact translate_of_fits (hinv.fits v p hv hleaf) hleaf

/-! ## A page released while a device can reach it -/

/-- 64 frames, of which the first is reserved; no reserved device addresses. -/
def small : Dma where
  alloc := ⟨fun b => if b = 0 then 1#8 else 0#8, 64, 0, 0, 1, 1, 63⟩
  cpu := fun _ => none
  nextVaddr := 0x10000
  vaWindows := []
  domain := Domain.new .level3 39 39
  slpt := ⟨fun _ => none, []⟩
  cache := fun _ => none
  buffers := []

def smallSetup : Setup := ⟨.level3, [], 0x1000⟩

theorem small_boot : Boot (fun _ => False) small where
  sound := ⟨by decide, by decide, by decide⟩
  identity _ _ := ⟨nofun, nofun⟩
  cache _ := rfl
  buffers := rfl

/-- A kernel page is taken, mapped, shown to a device and released. -/
def shown : List Call :=
  [.take, .remap 0x20000 (some ⟨0x1000, false⟩), .virtToPhys 0x20000, .release 0x1000]

/-- **The device still reaches the page.** -/
theorem released_reachable : ∃ s, run (Dma.step smallSetup) small shown = some s ∧
      s.slpt.translate .level3 0x1000 = some 0x1000 ∧ FreeFrame s.alloc 0x1000 := by
  have hrun : (run (Dma.step smallSetup) small shown).map
      (fun s => (s.slpt.translate .level3 0x1000, s.alloc.totalFrames, s.alloc.isUsed 1)) =
        some (some 0x1000, 64, false) := by decide +kernel
  obtain ⟨s, hs, heq⟩ := Option.map_eq_some_iff.mp hrun
  obtain ⟨htrans, htotal, hused⟩ : s.slpt.translate .level3 0x1000 = some 0x1000 ∧
      s.alloc.totalFrames = 64 ∧ s.alloc.isUsed 1 = false := by simpa using heq
  exact ⟨s, hs, htrans, by rw [htotal]; decide, hused⟩

/-- Two buffers, of which one is given back; the device goes on reaching the other. -/
theorem unreachable_of_clean_buffer :
    ∃ s, run (Dma.step smallSetup) small [.allocPage 2 [], .allocPage 1 [], .free 0 []] = some s ∧
      s.buffers.length = 1 ∧ s.slpt.translate .level3 0x1000 = some 0x1000 ∧
      ∀ v p, s.slpt.translate .level3 v = some p → ¬ FreeFrame s.alloc p := by
  have hrun : (run (Dma.step smallSetup) small [.allocPage 2 [], .allocPage 1 [], .free 0 []]).map
      (fun s => (s.buffers.length, s.slpt.translate .level3 0x1000)) = some (1, some 0x1000) := by
    decide +kernel
  obtain ⟨s, hs, hend⟩ := Option.map_eq_some_iff.mp hrun
  obtain ⟨hbuf, htrans⟩ := Prod.mk.inj hend
  refine ⟨s, hs, hbuf, htrans, fun v p => ?_⟩
  refine (unreachable_of_clean smallSetup (fun _ => False) small small_boot _ s hs ?_).1 v p nofun
  -- no call of the run releases a frame on the side
  refine .cons (fun _ _ _ _ _ => nofun) fun _ _ => ?_
  refine .cons (fun _ _ _ _ _ => nofun) fun _ _ => ?_
  exact .cons (fun _ _ _ _ _ => nofun) fun _ _ => trivial

end Dma

end Bedrock.Iommu
