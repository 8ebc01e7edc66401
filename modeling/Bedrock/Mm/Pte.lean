import Bedrock.Mm.Regions

/-!
# Mm/Pte — page-table entries

A 64-bit entry: flag bits at both ends, the frame in bits 12 to 51.

     63 62---59            51------------12     7   5   2 1 0
    ┌--┬------┬-----------┬-----------------┬--┬--┬---┬-┬-┬-┐
    |NX| pkey |           |      frame      |  |PS| A |U|W|P|
    └--┴------┴-----------┴-----------------┴--┴--┴---┴-┴-┴-┘

An entry of an upper level that is present and not a huge page links to a table of the next level;
`Pte.next` is that link.
-/

namespace Bedrock

abbrev Pte := BitVec 64

def ptePresent : Pte := 1#64 <<< 0
def pteWritable : Pte := 1#64 <<< 1
def pteUser : Pte := 1#64 <<< 2
def pteWriteThrough : Pte := 1#64 <<< 3
def pteNoCache : Pte := 1#64 <<< 4
def pteAccessed : Pte := 1#64 <<< 5
def ptePs : Pte := 1#64 <<< 7
def pteNoExecute : Pte := 1#64 <<< 63
def frameMask : Pte := 0x000FFFFFFFFFF000#64

namespace Pte

/-- `e & flag != 0`. -/
def isSet (e flag : Pte) : Bool := e &&& flag != 0#64

/-- `pte_frame`: the address in an entry's frame bits. -/
def frame (e : Pte) : ℕ := (e &&& frameMask).toNat

/-- The crate's `flags`: everything but the frame bits. -/
def flags (e : Pte) : Pte := e &&& ~~~frameMask

/-- An entry for the frame at `addr`. -/
def ofFrame (addr : ℕ) (flags : Pte) : Pte := BitVec.ofNat 64 addr ||| flags

/-- The table an entry links to: `entry.frame()`, which fails on absent and on huge entries. -/
def next (e : Pte) : Option ℕ :=
  if e.isSet ptePresent ∧ e.isSet ptePs = false then some e.frame else none

/-! ## Flags -/

variable {a b e m f : Pte}

theorem isSet_eq_false : e.isSet f = false ↔ e &&& f = 0#64 := by simp [isSet]

theorem isSet_zero (f : Pte) : isSet 0#64 f = false := by simp [isSet]

theorem isSet_or (a b f : Pte) : isSet (a ||| b) f = (a.isSet f || b.isSet f) := by
  rw [Bool.eq_iff_iff, ← not_iff_not]
  simp [isSet, BitVec.and_or_distrib_right]

theorem isSet_and_of_le (e : Pte) (h : m &&& f = f) : isSet (e &&& m) f = e.isSet f := by
  rw [isSet, isSet, BitVec.and_assoc, h]

theorem isSet_and_of_disjoint (e : Pte) (h : m &&& f = 0#64) : isSet (e &&& m) f = false := by
  rw [isSet_eq_false, BitVec.and_assoc, h, BitVec.and_zero]

theorem ne_zero_of_isSet (h : e.isSet f = true) : e ≠ 0#64 := by
  rintro rfl
  rw [isSet_zero] at h
  exact absurd h (by decide)

/-! ## Frames -/

theorem frame_or_of_disjoint (a : Pte) (h : b &&& frameMask = 0#64) :
    frame (a ||| b) = a.frame := by
  rw [frame, BitVec.and_or_distrib_right, h, BitVec.or_zero, frame]

theorem frame_and_of_le (e : Pte) (h : m &&& frameMask = frameMask) :
    frame (e &&& m) = e.frame := by
  rw [frame, BitVec.and_assoc, h, frame]

/-- The frame bits, as a number, are the bits from 12 up to 51. -/
theorem frame_eq (e : Pte) : e.frame = e.toNat % 2 ^ 52 / 2 ^ 12 * 2 ^ 12 := by
  have hmask : frameMask.toNat = (2 ^ 40 - 1) <<< 12 := by decide
  refine Nat.eq_of_testBit_eq fun i => ?_
  rw [frame, BitVec.toNat_and, hmask, Nat.testBit_and, Nat.testBit_shiftLeft,
    Nat.testBit_two_pow_sub_one, Nat.testBit_mul_two_pow, Nat.testBit_div_two_pow,
    Nat.testBit_mod_two_pow]
  by_cases h12 : 12 ≤ i
  · have h52 : i - 12 < 40 ↔ i < 52 := by omega
    simp [h12, h52, Bool.and_comm]
  · simp [h12]

/-- **The frame of an entry made for a frame.** -/
theorem frame_ofFrame {addr : ℕ} {flags : Pte} (ha : addr % 4096 = 0) (hb : addr < 2 ^ 52)
    (hf : flags &&& frameMask = 0#64) : frame (ofFrame addr flags) = addr := by
  rw [ofFrame, frame_or_of_disjoint _ hf, frame_eq, BitVec.toNat_ofNat]
  omega

theorem isSet_ofFrame {addr : ℕ} {flags : Pte} (ha : addr % 4096 = 0) (hb : addr < 2 ^ 52)
    (hf : f &&& frameMask = 0#64) : isSet (ofFrame addr flags) f = flags.isSet f := by
  have hframe : BitVec.ofNat 64 addr &&& frameMask = BitVec.ofNat 64 addr := by
    refine BitVec.eq_of_toNat_eq ?_
    have := frame_eq (BitVec.ofNat 64 addr)
    rw [frame, BitVec.toNat_ofNat] at this
    rw [BitVec.toNat_ofNat]
    omega
  have hzero : isSet (BitVec.ofNat 64 addr) f = false := by
    rw [← hframe]
    exact isSet_and_of_disjoint _ (by rw [BitVec.and_comm]; exact hf)
  rw [ofFrame, isSet_or, hzero, Bool.false_or]

/-! ## Links -/

theorem next_zero : next 0#64 = none := by simp [next, isSet_zero]

theorem next_eq_some {g : ℕ} (h : e.next = some g) :
    e.isSet ptePresent = true ∧ e.isSet ptePs = false ∧ e.frame = g := by
  rw [next] at h
  split_ifs at h with hc
  exact ⟨hc.1, hc.2, by simpa using h⟩

theorem next_of_present (hp : e.isSet ptePresent = true) (hs : e.isSet ptePs = false) :
    e.next = some e.frame := if_pos ⟨hp, hs⟩

theorem next_of_ps (hs : e.isSet ptePs = true) : e.next = none := by simp [next, hs]

/-- Two entries that agree on presence, size and frame: they differ in permissions at most. -/
structure Similar (e e' : Pte) : Prop where
  zero : e' = 0#64 ↔ e = 0#64
  present : e'.isSet ptePresent = e.isSet ptePresent
  ps : e'.isSet ptePs = e.isSet ptePs
  frame : e'.frame = e.frame

theorem Similar.refl (e : Pte) : Similar e e := ⟨Iff.rfl, rfl, rfl, rfl⟩

theorem Similar.next {e' : Pte} (h : Similar e e') : e'.next = e.next := by
  rw [Pte.next, Pte.next, h.present, h.ps, h.frame]

end Pte

/-! ## Permissions as entry flags -/

/-- `page_flags_to_x86`. -/
def pageFlagsToX86 (flags : PageFlags) : Pte :=
  let f := ptePresent
  let f := if flags.has .write then f ||| pteWritable else f
  let f := if flags.has .execute = false then f ||| pteNoExecute else f
  let f := if flags.has .noCache then f ||| pteNoCache ||| pteWriteThrough else f
  let f := if flags.has .writeCombining then f ||| pteWriteThrough else f
  if flags.has .user then f ||| pteUser else f

/-- `table_flags_for`: the flags of the tables on the way to a leaf. -/
def tableFlagsFor (leaf : Pte) : Pte :=
  let f := ptePresent ||| pteWritable ||| pteAccessed
  if leaf.isSet pteUser then f ||| pteUser else f

theorem tableFlagsFor_cases (leaf : Pte) :
    tableFlagsFor leaf = 0x23#64 ∨ tableFlagsFor leaf = 0x27#64 := by
  rw [tableFlagsFor]
  split_ifs
  exacts [Or.inr (by decide), Or.inl (by decide)]

/-- Leaf flags name a present 4 KiB page and leave the frame bits alone. -/
theorem pageFlagsToX86_spec (flags : PageFlags) :
    (pageFlagsToX86 flags).isSet ptePresent = true ∧ (pageFlagsToX86 flags).isSet ptePs = false ∧
      pageFlagsToX86 flags &&& frameMask = 0#64 ∧
      (pageFlagsToX86 flags).isSet pteWritable = flags.has .write ∧
      (pageFlagsToX86 flags).isSet pteNoExecute = !flags.has .execute ∧
      (pageFlagsToX86 flags).isSet pteUser = flags.has .user := by
  rw [pageFlagsToX86]
  generalize flags.has .write = w
  generalize flags.has .execute = x
  generalize flags.has .noCache = n
  generalize flags.has .writeCombining = c
  generalize flags.has .user = u
  revert w x n c u
  decide

end Bedrock
