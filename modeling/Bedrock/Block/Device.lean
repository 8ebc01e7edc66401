import Mathlib.Data.List.Basic

/-!
# Block/Device — requests to a block device, and what it may answer

A driver is handed a list of requests and answers with two counters, or refuses the whole list.
What a device does is unknown beyond its answer: a list reported all ok has been carried out in
order, and any other answer to a list of writes leaves each sector they cover in any state.

    reqs --▸ device --▸ allOk          every write done, in order
                   └--▸ otherwise      a covered sector may hold anything
-/

namespace Bedrock.Block

def SECTOR_BYTES : ℕ := 512

/-- The bytes of one sector. -/
abbrev Sector := Fin 512 → UInt8

/-- `IoBuffer`.  The bytes of a physical buffer are not in the request. -/
inductive IoBuffer
  | buf (bytes : List UInt8)
  | constBuf (bytes : List UInt8)
  | phys (pa size : ℕ)
  deriving DecidableEq, Repr

namespace IoBuffer

def length : IoBuffer → ℕ
  | buf bytes => bytes.length
  | constBuf bytes => bytes.length
  | phys _ size => size

def isPhys : IoBuffer → Bool
  | phys _ _ => true
  | _ => false

end IoBuffer

structure IoRequest where
  lba : ℕ
  count : ℕ
  buffer : IoBuffer
  isWrite : Bool
  deriving DecidableEq, Repr

structure IoCompletions where
  completed : ℕ
  errors : ℕ
  deriving DecidableEq, Repr

def IoCompletions.allOk (c : IoCompletions) : Bool := c.errors = 0 ∧ c.completed ≠ 0

namespace IoRequest

/-- The sector is one that the request writes. -/
def Covers (r : IoRequest) (lba : ℕ) : Prop :=
  r.isWrite = true ∧ r.lba ≤ lba ∧ lba < r.lba + r.count

instance (r : IoRequest) (lba : ℕ) : Decidable (r.Covers lba) :=
  inferInstanceAs (Decidable (_ ∧ _))

/-- The request stays on a device of `n` sectors and in its buffer. -/
def Fits (n : ℕ) (r : IoRequest) : Prop :=
  r.lba + r.count ≤ n ∧ r.count * SECTOR_BYTES ≤ r.buffer.length

instance (n : ℕ) (r : IoRequest) : Decidable (r.Fits n) := inferInstanceAs (Decidable (_ ∧ _))

end IoRequest

/-- What one submission meets with: the answer, and the contents of the sectors about which the
answer says nothing, or that came from physical memory. -/
structure Reply where
  result : Option IoCompletions
  left : ℕ → Sector

namespace Reply

variable (p : Reply) (n : ℕ) (reqs : List IoRequest)

/-- The answer of a device of `n` sectors: it does not report what it cannot do as done. -/
def answer : Option IoCompletions :=
  if ∀ r ∈ reqs, r.Fits n then p.result else p.result.filter fun c => !c.allOk

/-- The answer is that all went well. -/
def Done : Prop := ((p.answer n reqs).any IoCompletions.allOk) = true

instance : Decidable (p.Done n reqs) := inferInstanceAs (Decidable (_ = _))

variable {p n reqs}

theorem Done.fits (h : p.Done n reqs) : ∀ r ∈ reqs, r.Fits n := by
  by_contra hfit
  rw [Done, answer, if_neg hfit] at h
  cases hr : p.result with
  | none | some c => simp at h

end Reply

/-- The sector of a buffer at the place `k`. -/
def sectorAt (bytes : List UInt8) (k : ℕ) : Sector := fun i => bytes.getD (k * 512 + i) 0

/-- One write, carried out. -/
def write (left disk : ℕ → Sector) (r : IoRequest) : ℕ → Sector := fun lba =>
  if r.Covers lba then
    match r.buffer with
    | .buf bytes => sectorAt bytes (lba - r.lba)
    | .constBuf bytes => sectorAt bytes (lba - r.lba)
    | .phys _ _ => left lba
  else disk lba

/-- What the device holds after it has answered. -/
def perform (n : ℕ) (disk : ℕ → Sector) (reqs : List IoRequest) (p : Reply) : ℕ → Sector :=
  if p.Done n reqs then reqs.foldl (write p.left) disk
  else fun lba => if lba < n ∧ ∃ r ∈ reqs, r.Covers lba then p.left lba else disk lba

/-- The bytes of `count` sectors from `lba` on. -/
def contents (disk : ℕ → Sector) (lba count : ℕ) : List UInt8 :=
  (List.range count).flatMap fun i => List.ofFn (disk (lba + i))

theorem write_of_not_covers {left disk : ℕ → Sector} {r : IoRequest} {lba : ℕ}
    (h : ¬ r.Covers lba) : write left disk r lba = disk lba := if_neg h

/-- However it ends, a submission changes only sectors that it covers. -/
theorem perform_of_not_covers {n : ℕ} {disk : ℕ → Sector} {reqs : List IoRequest} {p : Reply}
    {lba : ℕ} (h : ∀ r ∈ reqs, ¬ r.Covers lba) : perform n disk reqs p lba = disk lba := by
  rw [perform]
  split_ifs with hdone
  · clear hdone
    induction reqs generalizing disk with
    | nil => rfl
    | cons r reqs ih =>
      rw [List.foldl_cons, ih fun q hq => h q (List.mem_cons_of_mem _ hq)]
      exact write_of_not_covers (h r List.mem_cons_self)
  · refine if_neg ?_
    rintro ⟨-, r, hr, hc⟩
    exact h r hr hc

theorem perform_reads {n : ℕ} {disk : ℕ → Sector} {reqs : List IoRequest} {p : Reply}
    (h : ∀ r ∈ reqs, r.isWrite = false) : perform n disk reqs p = disk :=
  funext fun _ => perform_of_not_covers fun r hr hc => Bool.false_ne_true ((h r hr).symm.trans hc.1)

end Bedrock.Block
