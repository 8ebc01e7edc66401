import Mathlib.Tactic
import Bedrock.Block.Device
import Bedrock.Lib.Assoc
import Bedrock.Lib.Run
import Bedrock.Lib.Vec

/-!
# Block/SectorCache — the sector cache in front of a block device

`CachedDevice` keeps single sectors of its device.  A submission goes through in pieces, each with
one request to the device at most:

    phys r      past the cache; a write that succeeds drops the lines it covers
    run  rs     a maximal run of buffered writes; all ok refreshes or drops the lines, partly failed
                drops them, and a refusal keeps them
    read r      one sector from its line, which a miss fills; more than one past the cache

Lines stay equal to the device's sectors along every history in which no write by physical address
fails, no run of writes is refused and no write of zero sectors comes with a sector's worth of bytes
(`submit_run_coherent`); each of the three can leave a line behind that the device no longer has.
-/

namespace Bedrock.Block

open List Option

/-! ## The cache -/

def CACHE_SIZE : ℕ := 4096

structure BlockCache where
  sectors : List (ℕ × Sector)
  clock : List ℕ
  clockHand : ℕ

namespace BlockCache

def new : BlockCache := ⟨[], [], 0⟩

variable (c : BlockCache)

/-- The cached copy of a sector. -/
def line (lba : ℕ) : Option Sector := c.sectors.lookup lba

def insertLine (lba : ℕ) (s : Sector) : BlockCache :=
  { c with sectors := (lba, s) :: c.sectors.filter fun e => e.1 ≠ lba }

def removeLine (lba : ℕ) : BlockCache := { c with sectors := c.sectors.filter fun e => e.1 ≠ lba }

/-- The loop of `maybe_evict`; each turn takes one entry off the clock. -/
def evictLoop (target : ℕ) : ℕ → BlockCache → BlockCache
  | 0, c => c
  | fuel + 1, c =>
    if c.sectors.length ≤ target then c
    else
      let hand := if c.clock.length ≤ c.clockHand then 0 else c.clockHand
      match c.clock[hand]? with
      | none => c
      | some lba =>
        evictLoop target fuel
          { c.removeLine lba with clock := swapRemove c.clock hand, clockHand := hand }

def maybeEvict : BlockCache :=
  if c.sectors.length < CACHE_SIZE then c
  else evictLoop (CACHE_SIZE - CACHE_SIZE / 4) c.clock.length c

/-- One stale line goes, with its first place on the clock. -/
def dropStale (lba : ℕ) : BlockCache :=
  { c.removeLine lba with
    clock := match c.clock.findIdx? (· = lba) with
      | some pos => swapRemove c.clock pos
      | none => c.clock }

/-- `invalidate_range`; the end saturates. -/
def invalidateRange (startLba count : ℕ) : BlockCache :=
  if count = 0 then c
  else
    let stop := min (startLba + count) (2 ^ 64 - 1)
    ((c.sectors.map Prod.fst).filter fun lba => startLba ≤ lba ∧ lba < stop).foldl dropStale c

def insertWritten (lba : ℕ) (s : Sector) : BlockCache :=
  match c.line lba with
  | some _ => c.insertLine lba s
  | none =>
    let c := c.maybeEvict
    { c with clock := c.clock ++ [lba] }.insertLine lba s

/-- A sector that was read from the device becomes a line. -/
def fill (lba : ℕ) (s : Sector) : BlockCache :=
  let c := c.maybeEvict.insertLine lba s
  { c with clock := c.clock ++ [lba] }

/-- `apply_write_to_cache`. -/
def applyWrite (r : IoRequest) : BlockCache :=
  match r.buffer with
  | .phys _ _ => c
  | .buf bytes | .constBuf bytes =>
    if r.count ≤ 1 ∧ bytes.length = SECTOR_BYTES then c.insertWritten r.lba (sectorAt bytes 0)
    else c.invalidateRange r.lba r.count

end BlockCache

/-! ## Submission -/

/-- The pieces in which a submission goes to the device. -/
inductive Piece
  | phys (r : IoRequest)
  | run (rs : List IoRequest)
  | read (r : IoRequest)
  deriving DecidableEq, Repr

/-- The requests in order, with the buffered writes gathered in maximal runs. -/
def pieces : List IoRequest → List Piece
  | [] => []
  | r :: rest =>
    if r.buffer.isPhys then .phys r :: pieces rest
    else if r.isWrite then
      match pieces rest with
      | .run rs :: ps => .run (r :: rs) :: ps
      | ps => .run [r] :: ps
    else .read r :: pieces rest

/-- A read that was reported as completed: the bytes in its buffer, and the device at that time. -/
structure Delivery where
  request : IoRequest
  got : List UInt8
  disk : ℕ → Sector

/-- The cache and its device, of `sectorCount` sectors, with the reads completed so far. -/
structure CachedDevice where
  disk : ℕ → Sector
  cache : BlockCache
  delivered : List Delivery

namespace CachedDevice

variable (n : ℕ) (d : CachedDevice)

/-- A device whose cache is empty. -/
def start (disk : ℕ → Sector) : CachedDevice := ⟨disk, .new, []⟩

/-- The single-sector request by which a miss is filled. -/
def missRequest (lba : ℕ) : IoRequest := ⟨lba, 1, .buf (List.replicate 512 0), false⟩

/-- `read_io`, and what arrives in the buffer if it succeeds. -/
def readIo (r : IoRequest) (p : Reply) : Option (List UInt8) × BlockCache :=
  match r.buffer with
  | .buf bytes =>
    if 1 < r.count then
      if p.Done n [r] then (some (contents d.disk r.lba r.count), d.cache) else (none, d.cache)
    else
      match d.cache.line r.lba with
      | some s => (some ((List.ofFn s).take bytes.length), d.cache)
      | none =>
        if p.Done n [missRequest r.lba] then
          let c := d.cache.fill r.lba (d.disk r.lba)
          ((c.line r.lba).map fun s => (List.ofFn s).take bytes.length, c)
        else (none, d.cache)
  | _ => (none, d.cache)

/-- One piece of a submission: how many requests completed and failed, and the state after. -/
def perPiece (p : Reply) : Piece → IoCompletions × CachedDevice
  | .phys r =>
    let disk := perform n d.disk [r] p
    if p.Done n [r] then
      (⟨1, 0⟩, { d with disk, cache := if r.isWrite then d.cache.invalidateRange r.lba r.count
                                        else d.cache })
    else (⟨0, 1⟩, { d with disk })
  | .run rs =>
    let disk := perform n d.disk rs p
    match p.answer n rs with
    | some c =>
      (c, { d with disk, cache :=
        if c.allOk then rs.foldl .applyWrite d.cache
        else rs.foldl (fun cache r => cache.invalidateRange r.lba r.count) d.cache })
    | none => (⟨0, rs.length⟩, { d with disk })
  | .read r =>
    match d.readIo n r p with
    | (some got, cache) =>
      (⟨1, 0⟩, { d with cache, delivered := ⟨r, got, d.disk⟩ :: d.delivered })
    | (none, cache) => (⟨0, 1⟩, { d with cache })

/-- `submit`, piece by piece; the device answers the `k`-th piece with `reply k`. -/
def submitPieces (reply : ℕ → Reply) : ℕ → List Piece → CachedDevice → IoCompletions × CachedDevice
  | _, [], d => (⟨0, 0⟩, d)
  | k, x :: xs, d =>
    let (c, d) := d.perPiece n (reply k) x
    let (cs, d) := submitPieces reply (k + 1) xs d
    (⟨c.completed + cs.completed, c.errors + cs.errors⟩, d)

def submit (reqs : List IoRequest) (reply : ℕ → Reply) : IoCompletions × CachedDevice :=
  submitPieces n reply 0 (pieces reqs) d

end CachedDevice

/-! ## Lines against sectors -/

namespace BlockCache

variable {c c' : BlockCache} {disk : ℕ → Sector}

variable (c)

/-- Every line is the device's sector. -/
def Agrees (disk : ℕ → Sector) : Prop :=
  ∀ ⦃lba s⦄, c.line lba = some s → s = disk lba

/-- All lines of `c'` are lines of `c`. -/
def Within (c' c : BlockCache) : Prop := ∀ ⦃lba s⦄, c'.line lba = some s → c.line lba = some s

theorem agrees_new (disk : ℕ → Sector) : new.Agrees disk := fun _ _ h => by cases h

theorem line_insertLine (lba k : ℕ) (s : Sector) :
    (c.insertLine lba s).line k = if k = lba then some s else c.line k := by
  rw [line, insertLine, lookup_cons_ite, lookup_filter_ne]
  split_ifs <;> rfl

theorem line_removeLine (lba k : ℕ) :
    (c.removeLine lba).line k = if k = lba then none else c.line k := lookup_filter_ne _ _ _

theorem removeLine_within (lba : ℕ) : (c.removeLine lba).Within c :=
  fun k s h => by
    rw [line_removeLine] at h
    split_ifs at h
    exact h

theorem evictLoop_within (target : ℕ) : ∀ (fuel : ℕ) (c : BlockCache),
    (evictLoop target fuel c).Within c
  | 0, _ => fun _ _ h => h
  | fuel + 1, c => fun lba s h => by
    rw [evictLoop] at h
    split at h
    · exact h
    · dsimp only at h
      split at h
      · exact h
      · have hl := evictLoop_within target fuel _ h
        exact removeLine_within c _ hl

theorem maybeEvict_within : c.maybeEvict.Within c := fun lba s h => by
  rw [maybeEvict] at h
  split_ifs at h
  · exact h
  · exact evictLoop_within _ _ c h

variable {c}

theorem line_foldl_dropStale (stale : List ℕ) (c : BlockCache) (k : ℕ) :
    (stale.foldl dropStale c).line k = if k ∈ stale then none else c.line k := by
  induction stale generalizing c with
  | nil => simp
  | cons a stale ih =>
    have ha : (c.dropStale a).line k = if k = a then none else c.line k := line_removeLine c a k
    rw [foldl_cons, ih, ha]
    by_cases hk : k = a <;> simp [hk]

/-- What is left after an invalidation lies outside the range. -/
theorem of_line_invalidateRange {start count lba : ℕ} {s : Sector}
    (h : (c.invalidateRange start count).line lba = some s) :
    c.line lba = some s ∧ ¬(start ≤ lba ∧ lba < min (start + count) (2 ^ 64 - 1)) := by
  rw [invalidateRange] at h
  split_ifs at h with h0
  · exact ⟨h, by omega⟩
  · rw [line_foldl_dropStale] at h
    split_ifs at h with hmem
    refine ⟨h, fun hin => hmem ?_⟩
    exact mem_filter.mpr ⟨mem_map.mpr ⟨_, mem_of_lookup h, rfl⟩, by simpa using hin⟩

/-- After an insertion there is the new line, and of the others no more than before. -/
theorem of_line_insertWritten {lba k : ℕ} {s t : Sector}
    (h : (c.insertWritten lba s).line k = some t) :
    (k = lba ∧ t = s) ∨ (k ≠ lba ∧ c.line k = some t) := by
  rw [insertWritten] at h
  split at h
  · rw [line_insertLine] at h
    split_ifs at h with hk
    · exact .inl ⟨hk, (some.inj h).symm⟩
    · exact .inr ⟨hk, h⟩
  · rw [line_insertLine] at h
    split_ifs at h with hk
    · exact .inl ⟨hk, (some.inj h).symm⟩
    · exact .inr ⟨hk, maybeEvict_within c h⟩

theorem line_fill (c : BlockCache) (lba k : ℕ) (s : Sector) :
    (c.fill lba s).line k = if k = lba then some s else c.maybeEvict.line k :=
  line_insertLine c.maybeEvict lba k s

theorem Agrees.fill (h : c.Agrees disk) (lba : ℕ) : (c.fill lba (disk lba)).Agrees disk :=
  fun k s hl => by
    rw [line_fill] at hl
    split_ifs at hl with hk
    · rw [hk, ← some.inj hl]
    · exact h (maybeEvict_within c hl)

/-- A line that no dropped range covers is as the device has it, if only those ranges changed. -/
theorem Agrees.invalidateRange {disk' : ℕ → Sector} (h : c.Agrees disk) {start count : ℕ}
    (hsame : ∀ lba, ¬(start ≤ lba ∧ lba < min (start + count) (2 ^ 64 - 1)) →
      disk' lba = disk lba) : (c.invalidateRange start count).Agrees disk' := fun lba s hl => by
  obtain ⟨hc, hout⟩ := of_line_invalidateRange hl
  rw [hsame lba hout]
  exact h hc

end BlockCache

/-! ## One piece -/

/-- A write of no sectors with the bytes of one. -/
def IoRequest.Empty (r : IoRequest) : Prop := r.count = 0 ∧ r.buffer.length = SECTOR_BYTES

instance (r : IoRequest) : Decidable r.Empty := inferInstanceAs (Decidable (_ ∧ _))

/-- The piece is none of those after which a line may be stale: a write by physical address that
fails, a run that is refused, a run with a write of no sectors that comes with the bytes of one. -/
def Piece.Clean (n : ℕ) (p : Reply) : Piece → Prop
  | .phys r => r.isWrite = true → p.Done n [r]
  | .run rs => p.answer n rs ≠ none ∧ ∀ r ∈ rs, ¬ r.Empty
  | .read _ => True

instance (n : ℕ) (p : Reply) : ∀ x : Piece, Decidable (x.Clean n p)
  | .phys _ => inferInstanceAs (Decidable (_ → _))
  | .run _ => inferInstanceAs (Decidable (_ ∧ _))
  | .read _ => inferInstanceAs (Decidable True)

/-- The requests of a run are buffered writes. -/
def Piece.Formed : Piece → Prop
  | .run rs => ∀ r ∈ rs, r.isWrite = true ∧ r.buffer.isPhys = false
  | .phys _ => True
  | .read r => r.isWrite = false

theorem formed_of_mem_pieces : ∀ {reqs : List IoRequest} {x : Piece}, x ∈ pieces reqs → x.Formed
  | r :: rest, x, h => by
    rw [pieces] at h
    split_ifs at h with hphys hwrite
    · obtain rfl | h := mem_cons.mp h
      · trivial
      · exact formed_of_mem_pieces h
    · have hr : r.isWrite = true ∧ r.buffer.isPhys = false := ⟨hwrite, by simpa using hphys⟩
      split at h
      next rs ps hps =>
        have ih : ∀ y ∈ pieces rest, y.Formed := fun y hy => formed_of_mem_pieces hy
        rw [hps] at ih
        obtain rfl | h := mem_cons.mp h
        · exact forall_mem_cons.mpr ⟨hr, ih _ mem_cons_self⟩
        · exact ih x (mem_cons_of_mem _ h)
      next hps =>
        obtain rfl | h := mem_cons.mp h
        · exact forall_mem_singleton.mpr hr
        · exact formed_of_mem_pieces h
    · obtain rfl | h := mem_cons.mp h
      · exact Bool.eq_false_iff.mpr hwrite
      · exact formed_of_mem_pieces h

section Step

variable {n : ℕ} (hn : n < 2 ^ 64) {c : BlockCache} {disk : ℕ → Sector} {p : Reply}
include hn

/-- A write that was carried out, applied to the cache. -/
theorem BlockCache.Agrees.applyWrite (h : c.Agrees disk) {r : IoRequest} {left : ℕ → Sector}
    (hwrite : r.isWrite = true) (hbuf : r.buffer.isPhys = false) (hfit : r.Fits n)
    (hne : ¬ r.Empty) : (c.applyWrite r).Agrees (write left disk r) := by
  obtain ⟨lba, count, buffer, isWrite⟩ := r
  obtain rfl : isWrite = true := hwrite
  have hdev := hfit.1
  dsimp only at hdev
  -- a request for one sector brings its line, any other drops the lines it covers
  have key : ∀ bytes, (∀ k, write left disk ⟨lba, count, buffer, true⟩ k =
        if lba ≤ k ∧ k < lba + count then sectorAt bytes (k - lba) else disk k) →
      ¬(count = 0 ∧ bytes.length = SECTOR_BYTES) →
      (if count ≤ 1 ∧ bytes.length = SECTOR_BYTES then c.insertWritten lba (sectorAt bytes 0)
        else c.invalidateRange lba count).Agrees (write left disk ⟨lba, count, buffer, true⟩) := by
    intro bytes hw hempty
    split_ifs with hone
    · intro k s hl
      rw [hw k]
      obtain ⟨rfl, rfl⟩ | ⟨hk, hc⟩ := BlockCache.of_line_insertWritten hl
      · rw [if_pos (by omega), Nat.sub_self]
      · rw [if_neg (by omega)]
        exact h hc
    · refine h.invalidateRange fun k hk => ?_
      rw [hw k, if_neg (by omega)]
  cases buffer with
  | phys pa size => cases hbuf
  | buf bytes | constBuf bytes => exact key bytes (fun k => by simp [write, IoRequest.Covers]) hne

/-- A run of writes that were all carried out, applied to the cache in order. -/
theorem BlockCache.Agrees.foldl_applyWrite {left : ℕ → Sector} {rs : List IoRequest}
    (h : c.Agrees disk) (hform : ∀ r ∈ rs, r.isWrite = true ∧ r.buffer.isPhys = false)
    (hfit : ∀ r ∈ rs, r.Fits n) (hne : ∀ r ∈ rs, ¬ r.Empty) :
    (rs.foldl BlockCache.applyWrite c).Agrees (rs.foldl (write left) disk) := by
  induction rs generalizing c disk with
  | nil => exact h
  | cons r rs ih =>
    rw [forall_mem_cons] at hform hfit hne
    exact ih (h.applyWrite hn hform.1.1 hform.1.2 hfit.1 hne.1) hform.2 hfit.2 hne.2

/-- Lines of the device that survive the dropping of a whole run are covered by none of its
writes. -/
theorem not_covers_of_line_foldl {rs : List IoRequest} {lba : ℕ} {s : Sector}
    (h : (rs.foldl (fun c r => c.invalidateRange r.lba r.count) c).line lba = some s) :
    c.line lba = some s ∧ (lba < n → ∀ r ∈ rs, ¬ r.Covers lba) := by
  induction rs generalizing c with
  | nil => exact ⟨h, fun _ _ hr => absurd hr not_mem_nil⟩
  | cons r rs ih =>
    obtain ⟨hl, hrs⟩ := ih h
    obtain ⟨hc, hout⟩ := BlockCache.of_line_invalidateRange hl
    refine ⟨hc, fun hlba => forall_mem_cons.mpr ⟨fun hcov => hout ?_, hrs hlba⟩⟩
    have h1 := hcov.2.1
    have h2 := hcov.2.2
    omega

end Step

/-! ## Coherence along a history -/

namespace CachedDevice

variable {n : ℕ} {d : CachedDevice}

/-- What a read of the device brings: the bytes of one sector, cut to the buffer, or of all. -/
def held (disk : ℕ → Sector) (r : IoRequest) : List UInt8 :=
  if 1 < r.count then contents disk r.lba r.count
  else (List.ofFn (disk r.lba)).take r.buffer.length

/-- Lines equal sectors, and every read that was reported as completed has put the device's bytes
in its buffer. -/
structure Coherent (d : CachedDevice) : Prop where
  lines : d.cache.Agrees d.disk
  reads : ∀ x ∈ d.delivered, x.got = held x.disk x.request

theorem Coherent.byte_eq (h : d.Coherent) (lba : ℕ) (i : Fin 512) {b : UInt8}
    (hb : (d.cache.line lba).map (· i) = some b) : b = d.disk lba i := by
  obtain ⟨s, hs, rfl⟩ := map_eq_some_iff.mp hb
  rw [h.lines hs]

theorem coherent_start (disk : ℕ → Sector) : (start disk).Coherent :=
  ⟨BlockCache.agrees_new disk, fun _ h => absurd h not_mem_nil⟩

/-- A read keeps the lines right and brings what the device holds. -/
theorem readIo_spec (h : d.cache.Agrees d.disk) (r : IoRequest) (p : Reply) :
    (d.readIo n r p).2.Agrees d.disk ∧
      ∀ got, (d.readIo n r p).1 = some got → got = held d.disk r := by
  obtain ⟨lba, count, buffer, isWrite⟩ := r
  cases buffer with
  | phys pa size | constBuf bytes => exact ⟨h, fun _ hg => by cases hg⟩
  | buf bytes =>
    simp only [readIo, held]
    by_cases hcount : 1 < count
    · rw [if_pos hcount, if_pos hcount]
      by_cases hdone : p.Done n [⟨lba, count, .buf bytes, isWrite⟩]
      · rw [if_pos hdone]
        exact ⟨h, fun _ hg => (some.inj hg).symm⟩
      · rw [if_neg hdone]
        exact ⟨h, fun _ hg => by cases hg⟩
    · rw [if_neg hcount, if_neg hcount]
      cases hl : d.cache.line lba with
      | some s =>
        rw [← h hl]
        exact ⟨h, fun _ hg => (some.inj hg).symm⟩
      | none =>
        by_cases hdone : p.Done n [missRequest lba]
        · simp only [if_pos hdone, BlockCache.line_fill]
          exact ⟨h.fill lba, fun _ hg => (some.inj hg).symm⟩
        · simp only [if_neg hdone]
          exact ⟨h, fun _ hg => by cases hg⟩

/-- One piece of a submission, unless it is one of the three that may leave stale lines. -/
theorem Coherent.perPiece (hn : n < 2 ^ 64) (h : d.Coherent) {p : Reply} {x : Piece}
    (hform : x.Formed) (hx : x.Clean n p) : (d.perPiece n p x).2.Coherent := by
  cases x with
  | phys r =>
    rw [CachedDevice.perPiece]
    by_cases hw : r.isWrite = true
    · have hdone := hx hw
      have hfit := (hdone.fits r mem_cons_self).1
      simp only [if_pos hdone, if_pos hw]
      refine ⟨h.lines.invalidateRange fun lba hout => ?_, h.reads⟩
      refine perform_of_not_covers (forall_mem_singleton.mpr fun hc => hout ?_)
      have h1 := hc.2.1
      have h2 := hc.2.2
      omega
    · have hsame : perform n d.disk [r] p = d.disk :=
        perform_reads (forall_mem_singleton.mpr (Bool.eq_false_iff.mpr hw))
      simp only [hsame]
      split_ifs
      · exact h
      · exact h
  | run rs =>
    obtain ⟨hne, hempty⟩ := hx
    obtain ⟨c, hc⟩ := ne_none_iff_exists'.mp hne
    simp only [CachedDevice.perPiece, hc]
    refine ⟨?_, h.reads⟩
    by_cases hok : c.allOk = true
    · have hdone : p.Done n rs := by rw [Reply.Done, hc]; exact hok
      simp only [if_pos hok]
      rw [perform, if_pos hdone]
      exact h.lines.foldl_applyWrite hn hform hdone.fits hempty
    · have hnot : ¬ p.Done n rs := by rw [Reply.Done, hc]; exact hok
      simp only [if_neg hok]
      intro lba s hl
      obtain ⟨hcache, hout⟩ := not_covers_of_line_foldl hn hl
      rw [perform, if_neg hnot, if_neg]
      · exact h.lines hcache
      · rintro ⟨hlba, r, hr, hcov⟩
        exact hout hlba r hr hcov
  | read r =>
    obtain ⟨hlines, hgot⟩ := readIo_spec (n := n) h.lines r p
    rw [CachedDevice.perPiece]
    split
    next got cache heq =>
      rw [heq] at hlines hgot
      exact ⟨hlines, forall_mem_cons.mpr ⟨hgot got rfl, h.reads⟩⟩
    next cache heq =>
      rw [heq] at hlines
      exact ⟨hlines, h.reads⟩

/-! ### Runs -/

/-- One call of `submit`, with the answers of the device. -/
structure Call where
  reqs : List IoRequest
  reply : ℕ → Reply

def step (n : ℕ) (d : CachedDevice) (call : Call) : Option CachedDevice :=
  some (d.submit n call.reqs call.reply).2

/-- No piece of the call is one that may leave stale lines. -/
def Clean (n : ℕ) (_ : CachedDevice) (call : Call) : Prop :=
  ∀ k : Fin (pieces call.reqs).length, ((pieces call.reqs).get k).Clean n (call.reply k)

instance (n : ℕ) (d : CachedDevice) (call : Call) : Decidable (Clean n d call) :=
  inferInstanceAs (Decidable (∀ _, _))

theorem Coherent.submitPieces (hn : n < 2 ^ 64) {reply : ℕ → Reply} {xs : List Piece} {k : ℕ}
    (h : d.Coherent) (hform : ∀ x ∈ xs, x.Formed)
    (hclean : ∀ i : Fin xs.length, (xs.get i).Clean n (reply (k + i))) :
    (CachedDevice.submitPieces n reply k xs d).2.Coherent := by
  induction xs generalizing k d with
  | nil => exact h
  | cons x xs ih =>
    rw [forall_mem_cons] at hform
    refine ih (h.perPiece hn hform.1 (hclean ⟨0, by simp⟩)) hform.2 fun i => ?_
    have hi := hclean i.succ
    rwa [Fin.val_succ, show k + (i + 1) = k + 1 + i by omega] at hi

/-- **Along every history of submissions and answers in which no write by physical address fails, no
run of writes is refused and no write of zero sectors comes with a sector's bytes, every line equals
the device's sector and every completed read has brought the device's bytes.** -/
theorem submit_run_coherent (hn : n < 2 ^ 64) (disk : ℕ → Sector) (calls : List Call)
    (h : RunMeets (step n) (Clean n) (start disk) calls) {d : CachedDevice}
    (hrun : run (step n) (start disk) calls = some d) : d.Coherent := by
  refine run_invariant Coherent (fun s call s' hs hclean hstep => ?_) calls (coherent_start disk) h
    hrun
  cases hstep
  refine hs.submitPieces hn (fun x hx => formed_of_mem_pieces hx) fun i => ?_
  rw [Nat.zero_add]
  exact hclean i

/-- A device of sixteen sectors of zeros. -/
def zeros : ℕ → Sector := fun _ _ => 0

/-- Everything goes well… -/
def wellDone : Reply := ⟨some ⟨1, 0⟩, fun _ _ => 7⟩

/-- …or the submission is refused, with other bytes in the sectors it was for. -/
def refused : Reply := ⟨none, fun _ _ => 7⟩

def readOne : Call := ⟨[⟨5, 1, .buf [0, 0, 0, 0], false⟩], fun _ => wellDone⟩

/-- A read, a write around the same sector by physical address, and a read. -/
def dmaHistory : List Call :=
  [readOne, ⟨[⟨4, 3, .phys 0x1000 2048, true⟩], fun _ => wellDone⟩, readOne]

theorem submit_run_coherent_dma : ∃ d, run (step 16) (start zeros) dmaHistory = some d ∧
    d.delivered.map Delivery.got = [[7, 7, 7, 7], [0, 0, 0, 0]] ∧ d.Coherent :=
  ⟨_, rfl, by decide +kernel,
    submit_run_coherent (n := 16) (by decide) zeros dmaHistory (by decide +kernel) rfl⟩

/-- A read, and a write of the same sector that is refused after the device has changed it: the line
is kept. -/
theorem refused_write_leaves_line : ∃ d, run (step 16) (start zeros)
    [readOne, ⟨[⟨5, 1, .constBuf (List.replicate 512 7), true⟩], fun _ => refused⟩] = some d ∧
    ¬ d.Coherent := by
  refine ⟨_, rfl, fun h => ?_⟩
  exact absurd (h.byte_eq 5 0 (b := 0) (by decide +kernel)) (by decide +kernel)

end CachedDevice

end Bedrock.Block
