import Bedrock.Block.Ahci

/-!
# Nvme/Submit — a batch of requests on an NVMe namespace

A namespace carries out its requests one after the other.  Each is described to the controller by
two page pointers, the second of which may be the page of a list, and by one submission entry:

    request --▸ prp1, prp2 (, list) --▸ submission entry --▸ completion

A request for no sectors is counted as completed without a command.  Otherwise a list reported all
ok was carried out in full, as no request that passes the limit of the page list exceeds the fields
of the entry (`NvmeNamespace.complete_iff`).
-/

namespace Bedrock.Nvme

open Block List

/-! ## Page pointers -/

/-- The pointers of a transfer, and the list page if one was written. -/
structure Prp where
  prp1 : ℕ
  prp2 : ℕ
  list : List ℕ
  deriving DecidableEq, Repr

/-- The entries of a list of `k` pages. -/
def listEntries (phys : ℕ → Option ℕ) : ℕ → ℕ → Option (List ℕ)
  | 0, _ => some []
  | k + 1, addr =>
    match phys addr with
    | none => none
    | some pa => (listEntries phys k (addr + 4096)).map (pa :: ·)

/-- `build_prp` and `build_prp_phys`: `phys` says where a page of the buffer is, and `listPage` is
the page that the controller's driver keeps for lists. -/
def buildPrp (phys : ℕ → Option ℕ) (listPage : Option ℕ) (addr size : ℕ) : Option Prp :=
  if size = 0 then some ⟨0, 0, []⟩
  else
    let offset := addr % 4096
    let remaining := size - min (4096 - offset) size
    match phys addr with
    | none => none
    | some pa =>
      if remaining = 0 then some ⟨pa ||| offset, 0, []⟩
      else
        let second := addr - offset + 4096
        if remaining ≤ 4096 then (phys second).map fun pa₂ => ⟨pa ||| offset, pa₂, []⟩
        else
          match listPage with
          | none => none
          | some page =>
            let totalPages := (size + offset + 4095) / 4096
            if 512 < totalPages then none
            else (listEntries phys (totalPages - 1) second).map (⟨pa ||| offset, page, ·⟩)

/-! ## Submission entries -/

/-- The words of a submission entry that are not zero. -/
structure SqEntry where
  cdw0 : ℕ
  nsid : ℕ
  prp1 : ℕ
  prp2 : ℕ
  cdw10 : ℕ
  cdw11 : ℕ
  cdw12 : ℕ
  deriving DecidableEq, Repr

def OPCODE_IO_WRITE : ℕ := 0x01

def OPCODE_IO_READ : ℕ := 0x02

/-- The entry of a read or a write. -/
def ioEntry (nsid cid : ℕ) (r : DriverRequest) (prp : Prp) : SqEntry where
  cdw0 := (if r.isWrite then OPCODE_IO_WRITE else OPCODE_IO_READ) ||| cid <<< 16
  nsid := nsid
  prp1 := prp.prp1
  prp2 := prp.prp2
  cdw10 := r.lba &&& 0xFFFFFFFF
  cdw11 := r.lba >>> 32 % 2 ^ 32
  cdw12 := r.count - 1 &&& 0xFFFF

/-- What an entry tells the controller to do; the count is stored less one. -/
def SqEntry.decode (e : SqEntry) : Option Command :=
  match e.cdw0 % 2 ^ 8 with
  | 0x01 => some ⟨true, e.cdw10 + 2 ^ 32 * e.cdw11, e.cdw12 + 1⟩
  | 0x02 => some ⟨false, e.cdw10 + 2 ^ 32 * e.cdw11, e.cdw12 + 1⟩
  | _ => none

theorem decode_ioEntry (nsid cid : ℕ) (r : DriverRequest) (prp : Prp) :
    (ioEntry nsid cid r prp).decode =
      some ⟨r.isWrite, r.lba % 2 ^ 64, (r.count - 1) % 2 ^ 16 + 1⟩ := by
  have hop : ∀ op < 2 ^ 16, op ||| cid <<< 16 = op + 2 ^ 16 * cid := fun op hop =>
    or_shiftLeft_eq_add hop cid
  have hlba : r.lba % 2 ^ 32 + 2 ^ 32 * (r.lba / 2 ^ 32 % 2 ^ 32) = r.lba % 2 ^ 64 := by omega
  have hcmd : ∀ op < 2 ^ 8, (op + 2 ^ 16 * cid) % 2 ^ 8 = op := by
    omega
  simp only [SqEntry.decode, ioEntry, and_ones (show 0xFFFFFFFF = 2 ^ 32 - 1 from rfl),
    and_ones (show 0xFFFF = 2 ^ 16 - 1 from rfl), Nat.shiftRight_eq_div_pow, hlba]
  cases r.isWrite with
  | true =>
    simp only [if_true, OPCODE_IO_WRITE, hop 0x01 (by decide), hcmd 0x01 (by decide)]
  | false =>
    simp only [Bool.false_eq_true, if_false, OPCODE_IO_READ, hop 0x02 (by decide),
      hcmd 0x02 (by decide)]

/-- `cq_status_to_result`: neither a status code nor a code type; bit 0 is the phase. -/
def cqStatusOk (status : ℕ) : Bool := status >>> 1 &&& 0xFF = 0 ∧ status >>> 9 &&& 0x7 = 0

/-! ## Submission -/

/-- `next_sq_tail`: the slot after the last is the first. -/
def nextSqTail (depth tail : ℕ) : ℕ := if depth ≤ tail + 1 then 0 else tail + 1

/-- How the wait for a command ends: with the entry of its id at the head of the completion queue,
with another one there, or with none. -/
inductive Finish
  | completed (status : ℕ)
  | cidMismatch
  | timeout
  deriving DecidableEq, Repr

/-- What the rest of the machine does during one request. -/
structure Reply where
  translate : ℕ → Option ℕ
  finish : Finish

structure NvmeNamespace where
  nsid : ℕ
  lbaShift : ℕ
  /-- The depth of the queue pair that it shares. -/
  depth : ℕ
  /-- The page for lists, if there is one. -/
  listPage : Option ℕ
  lbaShift_ge : 9 ≤ lbaShift

/-- The namespace that `init` makes of what the controller says about it: a sector size outside 512
bytes to 32 KiB counts as 512 bytes. -/
def NvmeNamespace.identified (nsid lbads depth : ℕ) (listPage : Option ℕ) : NvmeNamespace where
  nsid := nsid
  lbaShift := if lbads < 9 ∨ 15 < lbads then 9 else lbads
  depth := depth
  listPage := listPage
  lbaShift_ge := by split_ifs <;> omega

/-- A command that was given to the controller for the request at `index`. -/
structure Issue where
  index : ℕ
  entry : SqEntry
  done : Bool
  deriving DecidableEq, Repr

namespace NvmeNamespace

variable (ns : NvmeNamespace)

def bytes (r : DriverRequest) : ℕ := r.count * 2 ^ ns.lbaShift

def succeeds : Finish → Bool
  | .completed status => cqStatusOk status
  | _ => false

/-- One request: how it is counted, the command issued for it, and the tail after it. -/
def perRequest (p : Reply) (index tail : ℕ) (r : DriverRequest) : IoCompletions × List Issue × ℕ :=
  if r.count = 0 then (⟨1, 0⟩, [], tail)
  else if r.bufSize < ns.bytes r then (⟨0, 1⟩, [], tail)
  else
    match buildPrp (if r.phys then some else p.translate) ns.listPage r.bufAddr (ns.bytes r) with
    | none => (⟨0, 1⟩, [], tail)
    | some prp =>
      let ok := succeeds p.finish
      (if ok then ⟨1, 0⟩ else ⟨0, 1⟩, [⟨index, ioEntry ns.nsid tail r prp, ok⟩],
        nextSqTail ns.depth tail)

/-- The loop of `submit` from the request at `index` on, with the tail of the queue at `tail`. -/
def submitLoop (reply : ℕ → Reply) : ℕ → ℕ → List DriverRequest → IoCompletions × List Issue
  | _, _, [] => (⟨0, 0⟩, [])
  | index, tail, r :: rs =>
    let (c, x, tail) := ns.perRequest (reply index) index tail r
    let (cs, xs) := submitLoop reply (index + 1) tail rs
    (⟨c.completed + cs.completed, c.errors + cs.errors⟩, x ++ xs)

/-- `NvmeNamespace::submit`; a list of both directions is refused. -/
def submit (reply : ℕ → Reply) (tail : ℕ) (reqs : List DriverRequest) :
    Except Unit (IoCompletions × List Issue) :=
  match reqs with
  | [] => .ok (⟨0, 0⟩, [])
  | r :: rs =>
    if ∃ q ∈ r :: rs, q.isWrite ≠ r.isWrite then .error ()
    else .ok (ns.submitLoop reply 0 tail (r :: rs))

/-! ## Complete batches -/

/-- The request is never given to the controller: its buffer is too short, or it needs a list that
does not fit a page or has no page. -/
def Hopeless (r : DriverRequest) : Prop :=
  r.count ≠ 0 ∧ (r.bufSize < ns.bytes r ∨
    (4096 < ns.bytes r - min (4096 - r.bufAddr % 4096) (ns.bytes r) ∧
      (ns.listPage = none ∨ 512 < (ns.bytes r + r.bufAddr % 4096 + 4095) / 4096)))

/-- Both directions occur in the list. -/
def Mixed (reqs : List DriverRequest) : Prop :=
  ∃ q ∈ reqs, ∃ r ∈ reqs, q.isWrite ≠ r.isWrite

/-- Every request has a command of its own, which encodes it exactly and is done. -/
def Carried (reqs : List DriverRequest) (issued : List Issue) : Prop :=
  ∀ i r, reqs[i]? = some r → ∃ x ∈ issued, x.index = i ∧ x.done = true ∧
    x.entry.decode = some ⟨r.isWrite, r.lba, r.count⟩

/-- Whatever the machine does, the list is carried out in full if it is reported all ok. -/
def Complete (reqs : List DriverRequest) : Prop :=
  ∀ reply tail c issued, ns.submit reply tail reqs = .ok (c, issued) → c.allOk = true →
    Carried reqs issued

variable {ns} {r : DriverRequest}

theorem listEntries_some : ∀ k addr, ∃ l, listEntries some k addr = some l
  | 0, _ => ⟨[], rfl⟩
  | k + 1, addr => by
    obtain ⟨l, hl⟩ := listEntries_some k (addr + 4096)
    exact ⟨addr :: l, by simp [listEntries, hl]⟩

/-- A request that is not hopeless has its pointers once every page of it can be found… -/
theorem buildPrp_of_not_hopeless (h0 : r.count ≠ 0) (h : ¬ ns.Hopeless r) :
    ¬ r.bufSize < ns.bytes r ∧
      ∃ prp, buildPrp some ns.listPage r.bufAddr (ns.bytes r) = some prp := by
  simp only [Hopeless, not_and_or, not_not, not_or] at h
  obtain ⟨hsize, hlist⟩ := h.resolve_left h0
  refine ⟨hsize, ?_⟩
  simp only [buildPrp]
  by_cases hz : ns.bytes r = 0
  · exact ⟨_, if_pos hz⟩
  · rw [if_neg hz]
    by_cases hone : ns.bytes r - min (4096 - r.bufAddr % 4096) (ns.bytes r) = 0
    · exact ⟨_, if_pos hone⟩
    · rw [if_neg hone]
      by_cases htwo : ns.bytes r - min (4096 - r.bufAddr % 4096) (ns.bytes r) ≤ 4096
      · exact ⟨_, if_pos htwo⟩
      · obtain ⟨hpage, hfit⟩ := hlist.resolve_left (not_not.mpr (not_le.mp htwo))
        obtain ⟨page, hp⟩ := Option.ne_none_iff_exists'.mp hpage
        obtain ⟨l, hl⟩ := listEntries_some ((ns.bytes r + r.bufAddr % 4096 + 4095) / 4096 - 1)
          (r.bufAddr - r.bufAddr % 4096 + 4096)
        rw [if_neg htwo, hp]
        dsimp only
        rw [if_neg hfit, hl]
        exact ⟨_, rfl⟩

/-- …and one that has its pointers was not hopeless. -/
theorem not_hopeless_of_buildPrp {phys : ℕ → Option ℕ} {prp : Prp}
    (hsize : ¬ r.bufSize < ns.bytes r)
    (h : buildPrp phys ns.listPage r.bufAddr (ns.bytes r) = some prp) : ¬ ns.Hopeless r := by
  rintro ⟨h0, hshort | ⟨hlong, hlist⟩⟩
  · exact hsize hshort
  · have hbytes : ns.bytes r ≠ 0 := fun hz => by omega
    simp only [buildPrp, if_neg hbytes] at h
    cases hp : phys r.bufAddr with
    | none => simp [hp] at h
    | some pa =>
      simp only [hp, if_neg (show ¬ ns.bytes r - min (4096 - r.bufAddr % 4096) (ns.bytes r) = 0
        by omega), if_neg (not_le.mpr hlong)] at h
      obtain hnone | hmany := hlist
      · simp [hnone] at h
      · cases hpage : ns.listPage with
        | none => simp [hpage] at h
        | some page => simp [hpage, hmany] at h

/-- What passes the limit of the list fits the count of the entry. -/
theorem count_le_of_not_hopeless (h : ¬ ns.Hopeless r) : r.count ≤ 2 ^ 16 := by
  obtain h0 | hpos := Nat.eq_zero_or_pos r.count
  · omega
  · simp only [Hopeless] at h
    have hmul : r.count * 2 ^ 9 ≤ ns.bytes r :=
      Nat.mul_le_mul_left _ (Nat.pow_le_pow_right (by decide) ns.lbaShift_ge)
    omega

/-- The frame of a request with its pointers tells the controller to do just that, if its address
has at most 64 bits. -/
theorem decode_ioEntry_eq_iff {cid : ℕ} {prp : Prp} (h0 : r.count ≠ 0) (h : ¬ ns.Hopeless r) :
    (ioEntry ns.nsid cid r prp).decode = some ⟨r.isWrite, r.lba, r.count⟩ ↔ r.lba < 2 ^ 64 := by
  have hle := count_le_of_not_hopeless h
  have hcount : (r.count - 1) % 2 ^ 16 + 1 = r.count := by omega
  rw [decode_ioEntry, hcount, Option.some.injEq, Command.mk.injEq]
  simp only [true_and, and_true]
  exact Nat.mod_eq_iff_lt (by decide)

/-! ### One request -/

theorem perRequest_count (ns : NvmeNamespace) (p : Reply) (index tail : ℕ) (r : DriverRequest) :
    (ns.perRequest p index tail r).1.completed + (ns.perRequest p index tail r).1.errors = 1 := by
  rw [perRequest]
  by_cases h0 : r.count = 0
  · rw [if_pos h0]
    rfl
  · rw [if_neg h0]
    by_cases hsize : r.bufSize < ns.bytes r
    · rw [if_pos hsize]
      rfl
    · rw [if_neg hsize]
      split
      · rfl
      · dsimp only
        split_ifs <;> rfl

variable {index tail : ℕ} {r : DriverRequest}

/-- Without an error the request is not hopeless, and has its command if it is for some sectors. -/
theorem of_perRequest_errors {p : Reply}
    (h : (ns.perRequest p index tail r).1.errors = 0) : ¬ ns.Hopeless r ∧
      (r.count ≠ 0 → ∃ prp, (⟨index, ioEntry ns.nsid tail r prp, true⟩ : Issue) ∈
        (ns.perRequest p index tail r).2.1) := by
  rw [perRequest] at h ⊢
  by_cases h0 : r.count = 0
  · exact ⟨fun hh => hh.1 h0, absurd h0⟩
  · rw [if_neg h0] at h ⊢
    by_cases hsize : r.bufSize < ns.bytes r
    · rw [if_pos hsize] at h
      cases h
    · rw [if_neg hsize] at h ⊢
      split at h
      · cases h
      rename_i prp hprp
      refine ⟨not_hopeless_of_buildPrp hsize hprp, fun _ => ⟨prp, ?_⟩⟩
      cases hok : succeeds p.finish with
      | false => simp [hok] at h
      | true => simp

theorem of_mem_perRequest {p : Reply} {x : Issue} (hx : x ∈ (ns.perRequest p index tail r).2.1) :
    r.count ≠ 0 ∧ x.index = index ∧ x.done = succeeds p.finish ∧
      ∃ prp, x.entry = ioEntry ns.nsid tail r prp := by
  rw [perRequest] at hx
  by_cases h0 : r.count = 0
  · rw [if_pos h0] at hx
    cases hx
  · rw [if_neg h0] at hx
    split at hx
    · cases hx
    split at hx
    · cases hx
    rename_i prp _
    obtain rfl := mem_singleton.mp hx
    exact ⟨h0, rfl, rfl, prp, rfl⟩

/-- A machine on which every page is found and every command succeeds. -/
def ideal : ℕ → Reply := fun _ => ⟨some, .completed 1⟩

theorem perRequest_ideal (h : ¬ ns.Hopeless r) :
    (ns.perRequest (ideal index) index tail r).1.errors = 0 := by
  rw [perRequest]
  by_cases h0 : r.count = 0
  · rw [if_pos h0]
  · obtain ⟨hsize, prp, hprp⟩ := buildPrp_of_not_hopeless h0 h
    rw [if_neg h0, if_neg hsize, show (ideal index).translate = some from rfl, ite_self, hprp]
    rfl

/-! ### The loop -/

variable {reply : ℕ → Reply}

theorem submitLoop_count (ns : NvmeNamespace) (reply : ℕ → Reply) :
    ∀ (reqs : List DriverRequest) (index tail : ℕ),
      (ns.submitLoop reply index tail reqs).1.completed +
        (ns.submitLoop reply index tail reqs).1.errors = reqs.length
  | [], _, _ => rfl
  | r :: rs, index, tail => by
    have hr := ns.perRequest_count (reply index) index tail r
    have ih := submitLoop_count ns reply rs (index + 1)
      (ns.perRequest (reply index) index tail r).2.2
    rw [submitLoop, length_cons]
    exact (Nat.add_add_add_comm _ _ _ _).trans (by rw [hr, ih, Nat.add_comm])

/-- Without errors no request was hopeless, and each for some sectors has its command. -/
theorem of_submitLoop_errors : ∀ {reqs : List DriverRequest} {index tail : ℕ},
    (ns.submitLoop reply index tail reqs).1.errors = 0 → ∀ i r, reqs[i]? = some r →
      ¬ ns.Hopeless r ∧ (r.count ≠ 0 → ∃ cid prp,
        (⟨index + i, ioEntry ns.nsid cid r prp, true⟩ : Issue) ∈
          (ns.submitLoop reply index tail reqs).2)
  | [], _, _, _, i, r, hi => by simp at hi
  | q :: rs, index, tail, h, i, r, hi => by
    obtain ⟨hq, hrs⟩ := Nat.add_eq_zero_iff.mp h
    cases i with
    | zero =>
      obtain rfl : q = r := by simpa using hi
      obtain ⟨hh, hx⟩ := of_perRequest_errors hq
      refine ⟨hh, fun h0 => ?_⟩
      obtain ⟨prp, hmem⟩ := hx h0
      exact ⟨tail, prp, mem_append_left _ hmem⟩
    | succ i =>
      obtain ⟨hh, hx⟩ := of_submitLoop_errors hrs i r (by simpa using hi)
      refine ⟨hh, fun h0 => ?_⟩
      obtain ⟨cid, prp, hmem⟩ := hx h0
      rw [show index + 1 + i = index + (i + 1) by omega] at hmem
      exact ⟨cid, prp, mem_append_right _ hmem⟩

/-- Every command is that of a request for some sectors. -/
theorem of_mem_submitLoop : ∀ {reqs : List DriverRequest} {index tail : ℕ} {x : Issue},
    x ∈ (ns.submitLoop reply index tail reqs).2 → ∃ i r cid prp, reqs[i]? = some r ∧
      r.count ≠ 0 ∧ x.index = index + i ∧ x.entry = ioEntry ns.nsid cid r prp
  | [], _, _, x, hx => absurd hx not_mem_nil
  | q :: rs, index, tail, x, hx => by
    obtain hx | hx := mem_append.mp hx
    · obtain ⟨h0, hi, -, prp, he⟩ := of_mem_perRequest hx
      exact ⟨0, q, tail, prp, rfl, h0, hi, he⟩
    · obtain ⟨i, r, cid, prp, hget, h0, hi, he⟩ := of_mem_submitLoop hx
      exact ⟨i + 1, r, cid, prp, by simpa using hget, h0, by omega, he⟩

theorem submitLoop_ideal : ∀ {reqs : List DriverRequest} (index tail : ℕ),
    (∀ r ∈ reqs, ¬ ns.Hopeless r) → (ns.submitLoop ideal index tail reqs).1.errors = 0
  | [], _, _, _ => rfl
  | r :: rs, index, tail, h => by
    rw [forall_mem_cons] at h
    exact Nat.add_eq_zero_iff.mpr ⟨perRequest_ideal h.1, submitLoop_ideal _ _ h.2⟩

/-- **A list is carried out in full whenever it is reported all ok exactly if it has both
directions, or a request that is always refused, or no request for no sectors.**  (Addresses have 64
bits.) -/
theorem complete_iff (reqs : List DriverRequest) : ns.Complete reqs ↔
    Mixed reqs ∨ (∃ r ∈ reqs, ns.Hopeless r) ∨ ∀ r ∈ reqs, r.count ≠ 0 ∧ r.lba < 2 ^ 64 := by
  cases reqs with
  | nil => exact iff_of_true (fun _ _ _ _ _ _ i r hi => by simp at hi) (.inr (.inr (by simp)))
  | cons q rs =>
    by_cases hmix : ∃ r ∈ q :: rs, r.isWrite ≠ q.isWrite
    · -- such a list is refused
      refine iff_of_true (fun reply tail c issued h => ?_) (.inl ?_)
      · rw [submit, if_pos hmix] at h
        cases h
      · obtain ⟨r, hr, hne⟩ := hmix
        exact ⟨r, hr, q, mem_cons_self, hne⟩
    · have hpure : ¬ Mixed (q :: rs) := by
        rintro ⟨r, hr, r', hr', hne⟩
        have heq : ∀ p ∈ q :: rs, p.isWrite = q.isWrite := fun p hp => by
          by_contra hp'
          exact hmix ⟨p, hp, hp'⟩
        exact hne ((heq r hr).trans (heq r' hr').symm)
      rw [or_iff_right hpure]
      constructor
      · intro hcomplete
        by_contra hnot
        rw [not_or] at hnot
        obtain ⟨hfine, hrest⟩ := hnot
        replace hfine : ∀ r ∈ q :: rs, ¬ ns.Hopeless r := fun r hr hh => hfine ⟨r, hr, hh⟩
        have herr := submitLoop_ideal 0 0 hfine
        have hcount := ns.submitLoop_count ideal (q :: rs) 0 0
        have hcarried := hcomplete ideal 0 _ _ (by rw [submit, if_neg hmix])
          (decide_eq_true ⟨herr, fun h0 => by simp [herr, h0] at hcount⟩)
        refine hrest fun r hr => ?_
        obtain ⟨i, hi⟩ := mem_iff_getElem?.mp hr
        obtain ⟨x, hx, rfl, -, hdecode⟩ := hcarried i r hi
        obtain ⟨i', r', cid, prp, hget, h0, hindex, hentry⟩ := of_mem_submitLoop hx
        obtain rfl : r' = r := by
          rw [Nat.zero_add] at hindex
          rw [hindex, hget] at hi
          exact Option.some.inj hi
        rw [hentry, decode_ioEntry_eq_iff h0 (hfine _ hr)] at hdecode
        exact ⟨h0, hdecode⟩
      · rintro h reply tail c issued hsub hc i r hi
        rw [submit, if_neg hmix, Except.ok.injEq] at hsub
        have herr : (ns.submitLoop reply 0 tail (q :: rs)).1.errors = 0 := by
          rw [hsub]
          exact (of_decide_eq_true hc).1
        have hr := mem_of_getElem? hi
        obtain ⟨p, hp, hh⟩ | h := h
        · obtain ⟨j, hj⟩ := mem_iff_getElem?.mp hp
          exact absurd hh (of_submitLoop_errors herr j p hj).1
        · obtain ⟨hfine, hx⟩ := of_submitLoop_errors herr i r hi
          obtain ⟨cid, prp, hmem⟩ := hx (h r hr).1
          rw [hsub, Nat.zero_add] at hmem
          exact ⟨_, hmem, rfl, rfl, (decode_ioEntry_eq_iff (h r hr).1 hfine).mpr (h r hr).2⟩

end NvmeNamespace

/-! ## Both drivers -/

/-- **When a list reported all ok has been carried out in full, by either driver.** -/
theorem submit_complete_iff (port : AhciPort) (ns : NvmeNamespace) (reqs : List DriverRequest) :
    (port.Complete reqs ↔ (∃ r ∈ reqs.take port.slots, port.Hopeless r) ∨
      (reqs.length ≤ port.slots ∧ ∀ r ∈ reqs, port.Encodable r)) ∧
    (ns.Complete reqs ↔ NvmeNamespace.Mixed reqs ∨ (∃ r ∈ reqs, ns.Hopeless r) ∨
      ∀ r ∈ reqs, r.count ≠ 0 ∧ r.lba < 2 ^ 64) :=
  ⟨AhciPort.complete_iff reqs, NvmeNamespace.complete_iff reqs⟩

/-- A port without command queueing. -/
def plainPort : AhciPort := ⟨false, true, 32, 64, by decide⟩

/-- Two reads of one sector each. -/
def twoReads : List DriverRequest :=
  [⟨8, 1, 0x1000, 512, true, false⟩, ⟨9, 1, 0x2000, 512, true, false⟩]

/-- A namespace that reports no sector size carries both out. -/
theorem both_requests_carried : ∃ c issued,
    (NvmeNamespace.identified 1 0 64 none).submit NvmeNamespace.ideal 0 twoReads =
      .ok (c, issued) ∧ c.allOk = true ∧ NvmeNamespace.Carried twoReads issued :=
  ⟨_, _, rfl, rfl, (submit_complete_iff plainPort (.identified 1 0 64 none) twoReads).2.mpr
    (.inr (.inr (by decide))) NvmeNamespace.ideal 0 _ _ rfl rfl⟩

/-- The second read of a list is dropped there, and the list reported all ok. -/
theorem second_request_dropped : ∃ c issued,
    plainPort.submit AhciPort.ideal twoReads = some (.ok c, issued) ∧ c.allOk = true ∧
      ¬ AhciPort.Carried twoReads issued := by
  refine ⟨⟨1, 0⟩, [⟨0, plainPort.fis 0 ⟨8, 1, 0x1000, 512, true, false⟩, true⟩], by decide +kernel,
    by decide, fun h => ?_⟩
  obtain ⟨x, hx, hindex, -⟩ := h 1 ⟨9, 1, 0x2000, 512, true, false⟩ rfl
  rw [mem_singleton.mp hx] at hindex
  cases hindex

end Bedrock.Nvme
