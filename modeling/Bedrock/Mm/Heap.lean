import Bedrock.Lib.Blocks
import Bedrock.Lib.Run

/-!
# Mm/Heap — the kernel heap's free list

The heap keeps its bookkeeping in the memory it hands out.  A block starts with its size and, while
free, the next free block; a live block keeps its header's address in the word before the payload.

    free    | size | next | ⋯                         |
    live    | size |  ·   | padding | header | payload | ⋯ |

`push_free` inserts in address order and coalesces with both neighbours; `alloc_inner` is first-fit
with a split, and consumes a block whose tail is too small to be one.  Memory is word-addressed:
`mem a` is the word at the 8-aligned address `a`, and 0 is the null pointer.
-/

namespace Bedrock

/-- Sizes of the header, the back-pointer, the smallest payload and the smallest block. -/
def headerSize : ℕ := 16
def blockAlign : ℕ := 8
def backptrSize : ℕ := 8
def minAlloc : ℕ := 8
def minBlockSize : ℕ := headerSize + backptrSize + minAlloc

/-- No block is larger than this. -/
def maxBlockSize : ℕ := 0x40000000

def freeListWalkBound : ℕ := 1000000

def usizeBound : ℕ := 2 ^ 64

/-- The heap arena. -/
def heapFloor : ℕ := 0xFFFFFFFF80000000 + 0x10000000
def heapTop : ℕ := 0xFFFFFFFF80000000 + 0x38000000

/-- The head of the free list and the words of memory. -/
structure Heap where
  freeList : ℕ
  mem : ℕ → ℕ

variable (h : Heap)

namespace Heap

/-! ## Block headers -/

/-- `(*block).size`. -/
def size (a : ℕ) : ℕ := h.mem a

/-- `(*block).next`. -/
def next (a : ℕ) : ℕ := h.mem (a + 8)

def setWord (a v : ℕ) : Heap := { h with mem := Function.update h.mem a v }

def setSize (a v : ℕ) : Heap := h.setWord a v

def setNext (a v : ℕ) : Heap := h.setWord (a + 8) v

/-- `*block = BlockHeader { size, next }`. -/
def setHeader (a size next : ℕ) : Heap := (h.setSize a size).setNext a next

/-- Make `v` follow `prev` in the free list, or head it when `prev` is null. -/
def link (prev v : ℕ) : Heap :=
  if prev = 0 then { h with freeList := v } else h.setNext prev v

/-- `BlockHeader::end`, saturating. -/
def stop (a : ℕ) : ℕ :=
  if a + h.size a < usizeBound then a + h.size a else usizeBound - 1

/-- `BlockHeader::is_valid`. -/
def isValid (a : ℕ) : Bool :=
  if h.size a < minBlockSize then false
  else if h.size a % blockAlign ≠ 0 then false
  else if usizeBound ≤ a + h.size a then false
  else if (a < heapFloor ∨ heapTop < a + h.size a) ∧ maxBlockSize < h.size a then false
  else if maxBlockSize < h.size a then false
  else true

/-- `BlockHeader::from_payload`. -/
def fromPayload (ptr : ℕ) : ℕ := h.mem (ptr - backptrSize)

/-! ## Freeing -/

/-- The walk of `push_free` to the insertion point: the blocks before and after it.  Invalid nodes
on the way are unlinked, and the walk faults past its bound. -/
def findSlot (block : ℕ) : ℕ → Heap → ℕ → ℕ → Option (Heap × ℕ × ℕ)
  | 0, h, prev, cur => if cur ≠ 0 ∧ cur < block then none else some (h, prev, cur)
  | steps + 1, h, prev, cur =>
    if cur ≠ 0 ∧ cur < block then
      if h.isValid cur then findSlot block steps h cur (h.next cur)
      else findSlot block steps (h.link prev (h.next cur)) prev (h.next cur)
    else some (h, prev, cur)

/-- An invalid successor is unlinked as well. -/
def dropInvalid (prev cur : ℕ) : Heap × ℕ :=
  if cur ≠ 0 ∧ h.isValid cur = false then (h.link prev (h.next cur), h.next cur) else (h, cur)

/-- The size two neighbours coalesce to; a size that cannot be is a fault. -/
def coalescedSize (a b : ℕ) : Option ℕ :=
  if usizeBound ≤ a + b then none else if maxBlockSize < a + b then none else some (a + b)

/-- Put `block` before `cur`, absorbing `cur` if it is the following neighbour. -/
def coalesceNext (block cur : ℕ) : Option Heap :=
  if cur = 0 then some h
  else if h.stop block = cur then
    (coalescedSize (h.size block) (h.size cur)).map fun n =>
      (h.setSize block n).setNext block (h.next cur)
  else some (h.setNext block cur)

/-- Put `block` after `prev`, absorbed by `prev` if that is the preceding neighbour. -/
def coalescePrev (prev block : ℕ) : Option Heap :=
  if prev = 0 then some { h with freeList := block }
  else if h.stop prev = block then
    (coalescedSize (h.size prev) (h.size block)).map fun n =>
      (h.setSize prev n).setNext prev (h.next block)
  else some (h.setNext prev block)

/-- Return a block to the free list.  An invalid block is dropped; `none` is a free-list fault. -/
def pushFree (block : ℕ) : Option Heap :=
  if h.isValid block = false then some h
  else
    (findSlot block freeListWalkBound (h.setNext block 0) 0 h.freeList).bind fun (h₁, prev, cur₁) =>
      let (h₂, cur) := h₁.dropInvalid prev cur₁
      if prev ≠ 0 ∧ h₂.isValid prev = false then none
      else (h₂.coalesceNext block cur).bind fun h₃ => h₃.coalescePrev prev block

/-- Give the heap a region of memory. -/
def addRegion (start size : ℕ) : Option Heap := (h.setHeader start size 0).pushFree start

/-! ## Allocating -/

/-- `v & !(align - 1)`. -/
def maskDown (v align : ℕ) : ℕ := (BitVec.ofNat 64 v &&& ~~~ BitVec.ofNat 64 (align - 1)).toNat

/-- Where a block at `addr` would put a payload and where the allocation would end.  `none` is an
overflow, on which the source's loop goes round again on the same block. -/
def place (addr align needed : ℕ) : Option (ℕ × ℕ) :=
  if usizeBound ≤ addr + (headerSize + backptrSize + align - 1) then none
  else
    let payload := maskDown (addr + (headerSize + backptrSize + align - 1)) align
    if usizeBound ≤ payload + needed then none
    else if usizeBound ≤ payload + needed + (blockAlign - 1) then none
    else some (payload, maskDown (payload + needed + (blockAlign - 1)) blockAlign)

/-- `remove_next`: unlink the block after `prev`, or the head. -/
def removeNext (prev : ℕ) : Heap :=
  if prev = 0 then
    if h.freeList = 0 then h else { h with freeList := h.next h.freeList }
  else if h.next prev = 0 then h
  else h.setNext prev (h.next (h.next prev))

/-- Take the allocation out of the block at `curr`, which ends at `blockEnd`: split off the
remainder if that is a block, else consume all of it, and record the header before the payload. -/
def carve (prev curr blockEnd payload allocEnd : ℕ) : Heap :=
  let h :=
    if minBlockSize ≤ blockEnd - allocEnd then
      ((h.setSize curr (allocEnd - curr)).setHeader (curr + (allocEnd - curr)) (blockEnd - allocEnd)
        (h.next curr)).link prev (curr + (allocEnd - curr))
    else h.removeNext prev
  h.setWord (payload - backptrSize) curr

/-- The first-fit walk of `alloc_inner`; it returns the payload, null when no block fits.  `none`
is a walk that does not return. -/
def firstFit (align needed : ℕ) : ℕ → Heap → ℕ → ℕ → Option (ℕ × Heap)
  | 0, _, _, _ => none
  | fuel + 1, h, prev, curr =>
    if curr = 0 then some (0, h)
    else if usizeBound ≤ curr + h.size curr then none
    else
      match place curr align needed with
      | none => none
      | some (payload, allocEnd) =>
        if allocEnd ≤ curr + h.size curr then
          some (payload, h.carve prev curr (curr + h.size curr) payload allocEnd)
        else firstFit align needed fuel h curr (h.next curr)

/-- `alloc_inner` for a layout of `size` bytes aligned to `align`. -/
def allocInner (size align : ℕ) : Option (ℕ × Heap) :=
  firstFit (max align blockAlign) (max size minAlloc) usizeBound h 0 h.freeList

end Heap

/-! ## Runs of the heap -/

namespace HeapRun

/-- An allocation not yet freed: the payload, the layout it was made for, and the block its header
describes. -/
structure Live where
  ptr : ℕ
  size : ℕ
  align : ℕ
  block : Block
  deriving DecidableEq

structure State where
  heap : Heap
  regions : List Block
  live : List Live

/-- `HeapInner::empty()`. -/
def State.empty (mem : ℕ → ℕ) : State := ⟨⟨0, mem⟩, [], []⟩

inductive Action
  | addRegion (start size : ℕ)
  | alloc (size align : ℕ)
  | free (l : Live)
  | write (l : Live) (addr value : ℕ)

/-- The layouts `Layout` admits: a power-of-two alignment and a size that rounds up to it within
`isize`. -/
def LayoutOk (size align : ℕ) : Prop := (∃ k < 64, align = 2 ^ k) ∧ size + (align - 1) < 2 ^ 63

instance (size align : ℕ) : Decidable (LayoutOk size align) :=
  inferInstanceAs (Decidable (_ ∧ _))

/-- The block the header recovered from a payload describes. -/
def blockOf (ptr : ℕ) : Block := ⟨h.fromPayload ptr, h.size (h.fromPayload ptr)⟩

/-- **One step.**  Regions are 8-aligned, disjoint and not adjacent; a live allocation is freed
through its payload, and its owner may write any word of the payload. -/
def step (s : State) : Action → Option State
  | .addRegion start size =>
    if start % 8 = 0 ∧ ∀ r ∈ s.regions, start + size < r.addr ∨ r.stop < start then
      (s.heap.addRegion start size).map fun h =>
        { s with heap := h, regions := ⟨start, size⟩ :: s.regions }
    else none
  | .alloc size align =>
    if LayoutOk size align then
      (s.heap.allocInner size align).map fun (ptr, h) =>
        if ptr = 0 then { s with heap := h }
        else { s with heap := h, live := ⟨ptr, size, align, blockOf h ptr⟩ :: s.live }
    else none
  | .free l =>
    if l ∈ s.live then
      (s.heap.pushFree (s.heap.fromPayload l.ptr)).map fun h =>
        { s with heap := h, live := s.live.erase l }
    else none
  | .write l addr value =>
    if l ∈ s.live ∧ addr % 8 = 0 ∧ l.ptr ≤ addr ∧ addr < l.ptr + max l.size minAlloc then
      some { s with heap := s.heap.setWord addr value }
    else none

end HeapRun

end Bedrock
