import Bedrock.Lib.Bits

/-!
# Mm/PhysAlloc — the bitmap frame allocator

One bit per 4 KiB frame, 1 = used.  The bitmap is the byte memory behind the allocator's raw
pointer; the searches read it 64 frames at a time (`readWord`, little-endian), the updates touch
one byte (`setUsed` / `setFree`).  `alloc` hands out one frame, `allocContigCore` a run of frames,
`free` takes one back.

Both searches start at a cursor: the larger of the locked `nextFree` and the lockless
`nextFreeHint`.
-/

namespace Bedrock

open Nat

/-- Why an allocation was refused. -/
inductive AllocError
  | noFrames
  | invalidCount
  deriving DecidableEq, Repr

/-- The allocator: the bytes behind the bitmap pointer, the managed range, the reserved kernel
image `[kernelStart, kernelEnd)`, the two cursors and the free-frame counter. -/
structure BitmapAllocator where
  bitmap : ℕ → BitVec 8
  totalFrames : ℕ
  kernelStart : ℕ
  kernelEnd : ℕ
  nextFree : ℕ
  nextFreeHint : ℕ
  freeCount : ℕ

/-- `AtomicUsize::fetch_sub`: wrapping 64-bit subtraction. -/
def wrappingSub (n k : ℕ) : ℕ := (n + 2 ^ 64 - k) % 2 ^ 64

/-- `AtomicUsize::fetch_add`: wrapping 64-bit addition. -/
def wrappingAdd (n k : ℕ) : ℕ := (n + k) % 2 ^ 64

variable (a : BitmapAllocator)

namespace BitmapAllocator

/-! ## Bits and words of the bitmap -/

/-- Is the bit of frame `idx` set? -/
def isUsed (idx : ℕ) : Bool :=
  ((a.bitmap (idx / 8)) >>> (idx % 8)) &&& 1#8 == 1#8

/-- Set the bit of frame `idx`. -/
def setUsed (idx : ℕ) : BitmapAllocator :=
  { a with bitmap := fun b =>
      if b = idx / 8 then a.bitmap b ||| (1#8 <<< (idx % 8)) else a.bitmap b }

/-- Clear the bit of frame `idx`. -/
def setFree (idx : ℕ) : BitmapAllocator :=
  { a with bitmap := fun b =>
      if b = idx / 8 then a.bitmap b &&& ~~~(1#8 <<< (idx % 8)) else a.bitmap b }

/-- The `wi`-th 64-bit word of the bitmap, as a little-endian load reads it. -/
def readWord (wi : ℕ) : BitVec 64 :=
  a.bitmap (8 * wi + 7) ++ a.bitmap (8 * wi + 6) ++ a.bitmap (8 * wi + 5) ++ a.bitmap (8 * wi + 4)
    ++ a.bitmap (8 * wi + 3) ++ a.bitmap (8 * wi + 2) ++ a.bitmap (8 * wi + 1) ++ a.bitmap (8 * wi)

theorem isUsed_eq (idx : ℕ) :
    a.isUsed idx = (a.bitmap (idx / 8)).getLsbD (idx % 8) := by
  generalize hx : a.bitmap (idx / 8) = x
  have hbit : ((x >>> (idx % 8)) &&& 1#8).getLsbD 0 = x.getLsbD (idx % 8) := by simp
  rw [isUsed, hx]
  by_cases hb : x.getLsbD (idx % 8) = true
  · have : (x >>> (idx % 8)) &&& 1#8 = 1#8 := by
      refine BitVec.eq_of_getLsbD_eq fun i _ => ?_
      obtain _ | i := i
      · rw [hbit, hb]; rfl
      · simp
    rw [this, hb]; rfl
  · have hbf : x.getLsbD (idx % 8) = false := by simpa using hb
    rw [hbf]
    refine beq_eq_false_iff_ne.mpr fun h => ?_
    rw [h, hbf] at hbit
    exact absurd hbit (by decide)

@[simp] theorem isUsed_setUsed (i j : ℕ) :
    (a.setUsed i).isUsed j = (decide (j = i) || a.isUsed j) := by
  rw [isUsed_eq, isUsed_eq]
  simp only [setUsed]
  by_cases hb : j / 8 = i / 8
  · have hm : j = i ↔ j % 8 = i % 8 := by omega
    rw [if_pos hb, BitVec.getLsbD_or,
      getLsbD_one_shiftLeft (mod_lt i (by decide : 0 < 8)), Bool.or_comm]
    simp [hm]
  · have hne : j ≠ i := fun h => hb (by rw [h])
    simp [hb, hne]

@[simp] theorem isUsed_setFree (i j : ℕ) :
    (a.setFree i).isUsed j = (!decide (j = i) && a.isUsed j) := by
  rw [isUsed_eq, isUsed_eq]
  simp only [setFree]
  by_cases hb : j / 8 = i / 8
  · have hm : j = i ↔ j % 8 = i % 8 := by omega
    have h8 : j % 8 < 8 := mod_lt _ (by decide)
    rw [if_pos hb, BitVec.getLsbD_and, BitVec.getLsbD_not,
      getLsbD_one_shiftLeft (mod_lt i (by decide : 0 < 8)), Bool.and_comm]
    simp [hm, h8]
  · have hne : j ≠ i := fun h => hb (by rw [h])
    simp [hb, hne]

/-- **A word load reads 64 consecutive frames.** -/
theorem getLsbD_readWord (wi : ℕ) {i : ℕ} (hi : i < 64) :
    (a.readWord wi).getLsbD i = a.isUsed (wi * 64 + i) := by
  rw [isUsed_eq, show (wi * 64 + i) / 8 = 8 * wi + i / 8 by omega,
    show (wi * 64 + i) % 8 = i % 8 by omega]
  have hk : i / 8 < 8 := by omega
  have hsplit : i = 8 * (i / 8) + i % 8 := by omega
  have hr : i % 8 < 8 := mod_lt _ (by decide)
  generalize i / 8 = k at *
  generalize i % 8 = r at *
  simp only [readWord, BitVec.getLsbD_append]
  interval_cases k <;>
    repeat (first | rw [if_pos (by omega)] | rw [if_neg (by omega)])
  all_goals congr 1; omega

/-- Frame 0 and the frames of the kernel image are never handed out. -/
def isReservedFrame (idx : ℕ) : Bool :=
  if idx = 0 then true
  else decide (a.kernelStart ≤ idx * 4096) && decide (idx * 4096 < a.kernelEnd)

/-- Does the span of `count` frames from `startIdx` hit frame 0 or the kernel image? -/
def rangeOverlapsKernel (startIdx count : ℕ) : Bool :=
  if startIdx = 0 then true
  else decide (a.kernelStart < startIdx * 4096 + count * 4096)
    && decide (startIdx * 4096 < a.kernelEnd)

/-! ## One frame -/

/-- The inner loop of `alloc` over the candidate bits of word `wi`.  The second kernel test after
the bit was set is the source's release-build guard. -/
def allocInWord (a : BitmapAllocator) (wi : ℕ) : ℕ → BitVec 64 → Option (ℕ × BitmapAllocator)
  | 0, _ => none
  | fuel + 1, candidates =>
    if candidates = 0#64 then none
    else
      let bit := trailingZeros candidates
      let idx := wi * 64 + bit
      if a.isReservedFrame idx then allocInWord a wi fuel (candidates &&& ~~~(1#64 <<< bit))
      else
        let a' := { a.setUsed idx with nextFree := idx + 1, nextFreeHint := idx + 1 }
        let addr := idx * 4096
        if a.kernelStart ≤ addr ∧ addr < a.kernelEnd then
          allocInWord (a'.setFree idx) wi fuel (candidates &&& ~~~(1#64 <<< bit))
        else some (addr, { a' with freeCount := wrappingSub a.freeCount 1 })

/-- The bits of the last word that stand for managed frames. -/
def tailMask (wi : ℕ) : BitVec 64 :=
  if wi = (a.totalFrames + 63) / 64 - 1 ∧ a.totalFrames % 64 ≠ 0 then
    lowMask 64 (a.totalFrames % 64)
  else BitVec.allOnes 64

/-- The first word that holds a frame to hand out, among `ws`. -/
def allocScan (a : BitmapAllocator) (mask : ℕ → BitVec 64) : List ℕ → Option (ℕ × BitmapAllocator)
  | [] => none
  | wi :: ws =>
    match allocInWord a wi 64 (~~~(a.readWord wi) &&& mask wi &&& a.tailMask wi) with
    | some r => some r
    | none => allocScan a mask ws

/-- `alloc`: scan from the cursor's word to the end, then from word 0 up to the cursor's word. -/
def alloc : Option (ℕ × BitmapAllocator) :=
  let startIdx := max a.nextFreeHint a.nextFree
  let totalWords := (a.totalFrames + 63) / 64
  let startWord := startIdx / 64
  let startBit := startIdx % 64
  let firstMask := fun wi =>
    if wi = startWord ∧ 0 < startBit then ~~~(lowMask 64 startBit) else BitVec.allOnes 64
  match allocScan a firstMask (List.range' startWord (totalWords - startWord)) with
  | some r => some r
  | none => allocScan a (fun _ => BitVec.allOnes 64) (List.range startWord)

/-- `free`: clear the bit and pull both cursors back; addresses outside the managed range and
reserved frames are ignored. -/
def free (addr : ℕ) : BitmapAllocator :=
  let idx := addr / 4096
  if a.totalFrames ≤ idx then a
  else if idx = 0 ∨ (a.kernelStart ≤ idx * 4096 ∧ idx * 4096 < a.kernelEnd) then a
  else
    { a.setFree idx with
      freeCount := wrappingAdd a.freeCount 1
      nextFree := if idx < a.nextFree then idx else a.nextFree
      nextFreeHint := if idx < a.nextFreeHint then idx else a.nextFreeHint }

/-! ## A contiguous run -/

/-- The first `alignPages`-aligned window of `count` frames inside the run of `rl` frames
from `rs`. -/
def emit (count alignPages rs rl : ℕ) : Option ℕ :=
  if rl < count then none
  else
    let off := (alignPages - rs % alignPages) % alignPages
    if off + count ≤ rl then some (rs + off) else none

/-- What the word scan knows after a prefix of its words: a window that fits, or the run
`(runStart, runLen)` it carries into the next word. -/
inductive Scan
  | found (start : ℕ)
  | run (runStart runLen : ℕ)
  deriving DecidableEq, Repr

/-- The end of the stretch of clear bits of `w` that starts at bit `i`, below `nbits`. -/
def clearEnd (w : BitVec 64) (nbits : ℕ) : ℕ → ℕ → ℕ
  | 0, i => i
  | fuel + 1, i =>
    if i < nbits ∧ w &&& (1#64 <<< i) = 0#64 then clearEnd w nbits fuel (i + 1) else i

/-- The runs that lie inside one word, from bit `i` on; the last of them is what is carried. -/
def scanBits (count alignPages wi : ℕ) (w : BitVec 64) (nbits : ℕ) : ℕ → ℕ → ℕ → ℕ → Scan
  | 0, _, runStart, runLen => .run runStart runLen
  | fuel + 1, i, runStart, runLen =>
    if i < nbits then
      if w &&& (1#64 <<< i) = 0#64 then
        let e := clearEnd w nbits 64 i
        match emit count alignPages (wi * 64 + i) (e - i) with
        | some s => .found s
        | none => scanBits count alignPages wi w nbits fuel e (wi * 64 + i) (e - i)
      else scanBits count alignPages wi w nbits fuel (i + 1) runStart runLen
    else .run runStart runLen

/-- How many bits of word `wi` stand for managed frames. -/
def wordBits (wi : ℕ) : ℕ :=
  if wi = (a.totalFrames + 63) / 64 - 1 then
    if a.totalFrames % 64 = 0 then 64 else a.totalFrames % 64
  else 64

/-- …as a mask. -/
def wordMask (wi : ℕ) : BitVec 64 :=
  if a.wordBits wi = 64 then BitVec.allOnes 64 else lowMask 64 (a.wordBits wi)

/-- The word after the last one a search below `hi` reads. -/
def endWord (hi : ℕ) : ℕ := hi / 64 + if hi % 64 = 0 then 0 else 1

/-- Word `wi` as the search of `[lo, hi)` sees it: frames outside the window count as used. -/
def windowWord (lo hi wi : ℕ) : BitVec 64 :=
  let w := a.readWord wi &&& a.wordMask wi
  let w := if wi = lo / 64 ∧ lo % 64 ≠ 0 then w ||| lowMask 64 (lo % 64) else w
  if wi = endWord hi - 1 ∧ hi % 64 ≠ 0 then w ||| (~~~(lowMask 64 (hi % 64)) &&& a.wordMask wi)
  else w

/-- One round of the word loop.  A carried run is extended by the whole word when the word is
zero, and by the trailing zeros of the *complement* of the word otherwise. -/
def scanWord (count alignPages lo hi wi runStart runLen : ℕ) : Scan :=
  let nbits := a.wordBits wi
  let w := a.windowWord lo hi wi
  if w = 0#64 then
    let runStart := if runLen = 0 then wi * 64 else runStart
    match emit count alignPages runStart (runLen + nbits) with
    | some s => .found s
    | none => .run runStart (runLen + nbits)
  else if 0 < runLen then
    let lead := trailingZeros (~~~w)
    match emit count alignPages runStart (runLen + lead) with
    | some s => .found s
    | none => scanBits count alignPages wi w nbits 65 (lead + 1) runStart 0
  else scanBits count alignPages wi w nbits 65 0 runStart runLen

/-- The word loop over `ws`. -/
def scanWords (a : BitmapAllocator) (count alignPages lo hi : ℕ) : List ℕ → ℕ → ℕ → Option ℕ
  | [], _, _ => none
  | wi :: ws, runStart, runLen =>
    match a.scanWord count alignPages lo hi wi runStart runLen with
    | .found s => some s
    | .run runStart runLen => scanWords a count alignPages lo hi ws runStart runLen

/-- `find_run`: a window of `count` frames in `[lo, hi)`. -/
def findRun (count alignPages lo hi : ℕ) : Option ℕ :=
  if hi ≤ lo then none
  else
    a.scanWords count alignPages lo hi (List.range' (lo / 64) (endWord hi - lo / 64)) 0 0

/-- Set the bits of the `count` frames from `start`. -/
def setUsedRange (start count : ℕ) : BitmapAllocator :=
  (List.range' start count).foldl setUsed a

/-- Clear the bits of the `count` frames from `start`. -/
def setFreeRange (start count : ℕ) : BitmapAllocator :=
  (List.range' start count).foldl setFree a

/-- The probe loop of `alloc_contig_core`.  `none` means the fuel ran out. -/
def contigLoop (count alignPages hiCap nextFree : ℕ) :
    ℕ → BitmapAllocator → ℕ → ℕ → Bool → Option (Except AllocError ℕ × BitmapAllocator)
  | 0, _, _, _, _ => none
  | fuel + 1, a, lo, hi, triedWrap =>
    match a.findRun count alignPages lo hi with
    | some runStart =>
      if a.rangeOverlapsKernel runStart count then
        if hi < runStart + 1 + count then
          if triedWrap = false ∧ hi = hiCap then
            contigLoop count alignPages hiCap nextFree fuel a 0 nextFree true
          else some (.error .noFrames, a)
        else contigLoop count alignPages hiCap nextFree fuel a (runStart + 1) hi triedWrap
      else
        let a' := { a.setUsedRange runStart count with
          nextFree := runStart + count, nextFreeHint := runStart + count }
        let addr := runStart * 4096
        let endAddr := addr + count * 4096
        if a.kernelStart < endAddr ∧ addr < a.kernelEnd then
          contigLoop count alignPages hiCap nextFree fuel (a'.setFreeRange runStart count)
            (runStart + 1) hi triedWrap
        else some (.ok addr, { a' with freeCount := wrappingSub a.freeCount count })
    | none =>
      if triedWrap = false ∧ hi = hiCap then
        contigLoop count alignPages hiCap nextFree fuel a 0 nextFree true
      else some (.error .noFrames, a)

/-- `usize::is_power_of_two`. -/
def isPowerOfTwo (n : ℕ) : Bool := (List.range 64).any fun k => n == 2 ^ k

/-- `alloc_contig_core`: search `[nextFree, hiCap)`, then wrap once to `[0, nextFree)`. -/
def allocContigCore (count alignPages hiCap : ℕ) :
    Option (Except AllocError ℕ × BitmapAllocator) :=
  if count = 0 ∨ a.totalFrames < count ∨ hiCap < count then some (.error .invalidCount, a)
  else if alignPages = 0 ∨ isPowerOfTwo alignPages = false then some (.error .invalidCount, a)
  else
    let nextFree := max a.nextFreeHint a.nextFree
    contigLoop count alignPages hiCap nextFree (hiCap + nextFree + 3) a nextFree hiCap false

end BitmapAllocator

end Bedrock
