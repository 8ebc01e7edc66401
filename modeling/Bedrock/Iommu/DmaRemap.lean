import Bedrock.Iommu.Slpt
import Bedrock.Mm.ContigRun

/-!
# Iommu/DmaRemap — DMA buffers behind the remapping hardware

A buffer is a run of frames that the CPU sees at `virt` and the device at `phys`:

    CPU    virt --(kernel page tables)--▸ frames
    device phys --(second-level tables)--▸ frames        phys is a device address

`virt_to_phys` finds the device address of any kernel page, and makes one if there is none; a cache
from frames to device pages keeps it from making two.  `free` takes both views of a buffer down.

The kernel page tables are a map from pages to leaves here, a leaf says whether it is part of a
2 MiB page, which `unmap` does not take out.  How many tables a mapping needs and which ones an
unmapping gives back are arguments of the calls.  A call that panics has no result.
-/

namespace Bedrock.Iommu

open BitmapAllocator

/-- A leaf of the kernel page tables: the frame, and whether it lies in a 2 MiB page. -/
structure Leaf where
  frame : ℕ
  huge : Bool

structure DmaBuffer where
  phys : ℕ
  virt : ℕ
  size : ℕ
  deriving DecidableEq

/-- The state behind `IommuDma`: the frame allocator, the kernel page tables, the free addresses of
the DMA area, the domain with its tables, the cache, and the buffers in use. -/
structure Dma where
  alloc : BitmapAllocator
  cpu : ℕ → Option Leaf
  nextVaddr : ℕ
  vaWindows : List (ℕ × ℕ)
  domain : Domain
  slpt : Slpt
  cache : ℕ → Option ℕ
  buffers : List DmaBuffer

/-- What does not change: the width of the tables, the reserved ranges, the end of the DMA area. -/
structure Setup where
  agaw : Agaw
  rmrrs : List Rmrr
  vaddrFloor : ℕ

/-- `FreeWindows::take_exact`. -/
def takeExact (l : List (ℕ × ℕ)) (size : ℕ) : Option (ℕ × List (ℕ × ℕ)) :=
  match l.findIdx? fun e => e.2 = size with
  | none => none
  | some i => l[i]?.map fun e => (e.1, swapRemove l i)

variable (c : Setup)

namespace Dma

/-! ## The CPU's view -/

variable (s : Dma)

/-- `reserve_window`. -/
def reserveWindow (size : ℕ) : Option (ℕ × Dma) :=
  match takeExact s.vaWindows size with
  | some (va, l) => some (va, { s with vaWindows := l })
  | none =>
    if s.nextVaddr < size ∨ s.nextVaddr - size < c.vaddrFloor then none
    else some (s.nextVaddr - size, { s with nextVaddr := s.nextVaddr - size })

/-- `reclaim_window`. -/
def reclaimWindow (va size : ℕ) : Dma :=
  if s.vaWindows.length < WINDOWS then { s with vaWindows := s.vaWindows ++ [(va, size)] } else s

/-- How many of the first pages `Vmm::map` maps as 2 MiB pages. -/
def hugePages (va phys n : ℕ) : ℕ :=
  if va % 2 ^ 21 = 0 ∧ phys % 2 ^ 21 = 0 then n / 512 * 512 else 0

/-- The kernel page tables after `n` pages from `va` were mapped to those from `phys`. -/
def mapped (cpu : ℕ → Option Leaf) (va phys huge : ℕ) : ℕ → ℕ → Option Leaf
  | 0 => cpu
  | n + 1 =>
    Function.update (mapped cpu va phys huge n) (va + n * 4096)
      (some ⟨phys + n * 4096, n < huge⟩)

/-- `map_cpu`, which takes `tables` frames for page tables.  It panics if a page is mapped or the
frames run out. -/
def mapCpu (va phys n tables : ℕ) : Option Dma :=
  if (List.range n).any fun i => (s.cpu (va + i * 4096)).isSome then none
  else
    (drawn tables s.alloc).map fun a =>
      { s with alloc := a, cpu := mapped s.cpu va phys (hugePages va phys n) n }

/-- `Vmm::unmap` of one page. -/
def unmapCpu (cpu : ℕ → Option Leaf) (va : ℕ) : ℕ → Option Leaf :=
  match cpu va with
  | some ⟨_, false⟩ => Function.update cpu va none
  | _ => cpu

/-- Tables that became empty go back to the allocator. -/
def releaseAll (a : BitmapAllocator) (frames : List ℕ) : BitmapAllocator := frames.foldl free a

/-- The loop of `rollback_cpu_mapping`, with `free_phys`. -/
def rollbackPages (va : ℕ) : ℕ → (ℕ → Option Leaf) × BitmapAllocator →
    (ℕ → Option Leaf) × BitmapAllocator
  | 0, t => t
  | n + 1, t =>
    let t := rollbackPages va n t
    match t.1 (va + n * 4096) with
    | none => t
    | some leaf => (unmapCpu t.1 (va + n * 4096), t.2.free (pageDown leaf.frame))

/-- `rollback_cpu_mapping`. -/
def rollbackCpu (va n : ℕ) (released : List ℕ) : Dma :=
  let t := rollbackPages va n (s.cpu, s.alloc)
  { s with cpu := t.1, alloc := releaseAll t.2 released }

/-! ## The device's view -/

/-- `map_phys_to_iova` on the state. -/
def mapIova (phys size : ℕ) (limit : Option ℕ) : Option ℕ × Dma :=
  let r := mapPhysToIova (Slpt.pageTables c.agaw) c.rmrrs s.domain (s.slpt, s.alloc) phys size limit
  (r.1, { s with domain := r.2.1, slpt := r.2.2.1, alloc := r.2.2.2 })

/-- The cache after `n` frames from `phys` were entered with the pages from `iova`. -/
def cached (cache : ℕ → Option ℕ) (phys iova : ℕ) : ℕ → ℕ → Option ℕ
  | 0 => cache
  | n + 1 =>
    Function.update (cached cache phys iova n) (pageDown (phys + n * 4096))
      (some (pageDown (iova + n * 4096)))

/-! ## The calls -/

/-- What the three allocations share: `n` pages, from frames that `draw` finds, with a device
address below `limit`. -/
def allocBuffer (n : ℕ)
    (draw : BitmapAllocator → Option (ℕ × BitmapAllocator)) (limit : Option ℕ) (tables : ℕ)
    (released : List ℕ) : Option (Option DmaBuffer × Dma) :=
  let size := n * 4096
  match s.reserveWindow c size with
  | none => some (none, s)
  | some (va, s) =>
    match draw s.alloc with
    | none => some (none, s.reclaimWindow va size)
    | some (phys, a) =>
      match mapCpu { s with alloc := a } va phys n tables with
      | none => none
      | some s =>
        match s.mapIova c phys size limit with
        | (none, s) => some (none, (s.rollbackCpu va n released).reclaimWindow va size)
        | (some iova, s) =>
          some (some ⟨iova, va, size⟩, { s with cache := cached s.cache phys iova n })

/-- `BitmapAllocator::alloc_contiguous`. -/
def contiguous (count : ℕ) (a : BitmapAllocator) : Option (ℕ × BitmapAllocator) :=
  match a.allocContigCore count 1 a.totalFrames with
  | some (.ok phys, a) => some (phys, a)
  | _ => none

/-- The bound of a search below `maxPaddr`. -/
def hiCap (maxPaddr : ℕ) (a : BitmapAllocator) : ℕ := min (maxPaddr / 4096) a.totalFrames

/-- `BitmapAllocator::try_alloc_contiguous_below`. -/
def contiguousBelow (count maxPaddr : ℕ) (a : BitmapAllocator) : Option (ℕ × BitmapAllocator) :=
  if hiCap maxPaddr a = 0 ∨ hiCap maxPaddr a < count then none
  else
    match a.allocContigCore count 1 (hiCap maxPaddr a) with
    | some (.ok phys, a) => some (phys, a)
    | _ => none

/-- `alloc_page`. -/
def allocPage (tables : ℕ) (released : List ℕ) :
    Option (Option DmaBuffer × Dma) :=
  s.allocBuffer c 1 BitmapAllocator.alloc none tables released

/-- `alloc_contiguous`. -/
def allocContiguous (count tables : ℕ) (released : List ℕ) :
    Option (Option DmaBuffer × Dma) :=
  if count = 0 ∨ 2 ^ 64 ≤ count * 4096 then some (none, s)
  else s.allocBuffer c count (contiguous count) none tables released

/-- `alloc_below4g`. -/
def allocBelow4g (count tables : ℕ) (released : List ℕ) :
    Option (Option DmaBuffer × Dma) :=
  if count = 0 ∨ 2 ^ 64 ≤ count * 4096 then some (none, s)
  else
    s.allocBuffer c count (contiguousBelow count 0x100000000) (some 0x100000000) tables released

/-- `virt_to_phys`. -/
def virtToPhys (vaddr : ℕ) : Option ℕ × Dma :=
  match s.cpu (pageDown vaddr) with
  | none => (none, s)
  | some leaf =>
    let phys := pageDown leaf.frame
    -- a page that the device sees at its own address
    if s.slpt.translate c.agaw phys = some phys then (some (phys + vaddr % 4096), s)
    else
      match s.cache phys with
      | some iova => (some (pageDown iova + vaddr % 4096), s)
      | none =>
        match s.mapIova c phys 4096 none with
        | (none, s) => (none, s)
        | (some iova, s) =>
          (some (pageDown iova + vaddr % 4096),
            { s with cache := Function.update s.cache phys (some (pageDown iova)) })

/-- The frames behind the pages of a buffer, as far as they are mapped. -/
def physPages (iova n : ℕ) : List ℕ :=
  (List.range n).filterMap fun i =>
    (s.slpt.translate c.agaw (iova + i * 4096)).map pageDown

/-- The loop of `free` over the CPU's pages: the frame of page `i` is the one the device saw there,
or else the one the CPU sees. -/
def freePages (va : ℕ) (frames : List ℕ) : ℕ → (ℕ → Option Leaf) × BitmapAllocator × Bool →
    (ℕ → Option Leaf) × BitmapAllocator × Bool
  | 0, t => t
  | n + 1, t =>
    let t := freePages va frames n t
    match t.1 (va + n * 4096) with
    | none => t
    | some leaf =>
      (unmapCpu t.1 (va + n * 4096), t.2.1.free (frames.getD n (pageDown leaf.frame)), true)

/-- `free`. -/
def freeBuffer (b : DmaBuffer) (released : List ℕ) : Dma :=
  if b.virt = 0 ∨ b.size = 0 ∨ b.size % 4096 ≠ 0 then s
  else
    let iova := pageDown b.phys
    let size := pageUp b.size
    let n := size / 4096
    let frames := s.physPages c iova n
    let u := unmapIova (Slpt.pageTables c.agaw) s.domain (s.slpt, s.alloc) iova size
    let t := freePages b.virt frames n (s.cpu, s.alloc, false)
    let s := { s with
      domain := u.1
      slpt := u.2.1
      cache := fun p => if p ∈ frames then none else s.cache p
      cpu := t.1
      alloc := releaseAll t.2.1 released }
    if t.2.2 then s.reclaimWindow b.virt b.size else s

end Dma

end Bedrock.Iommu
