import Bedrock.Lib.Radix
import Bedrock.Mm.FrameAlloc
import Bedrock.Mm.FrameCnt
import Bedrock.Mm.Pte

/-!
# Mm/Vmm — four-level page tables in physical memory

The machine as the memory manager sees it: physical memory one 4 KiB frame of 512 words at a time,
the frame allocator, the share counters, the registry of cloned roots and the table of address
spaces.  A virtual address selects an entry on each of four levels:

    root --bits 39‥47--▸ PDPT --30‥38--▸ PD --21‥29--▸ PT --12‥20--▸ leaf

Mapping, unmapping and translation go through the vendored `x86_64` crate's mapper, whose functions
are embedded first.  A function that can panic returns an `Option`, with `none` for the panic.
TLB maintenance is not part of this model.
-/

namespace Bedrock

open Radix

/-- The state of the memory manager.  `freed` lists every frame returned to the allocator, the
latest first; nothing reads it. -/
structure Machine where
  mem : ℕ → Fin 512 → Pte
  alloc : BitmapAllocator
  counts : Counts
  clones : List ℕ
  kernelRoot : ℕ
  slots : List (Option AddressSpace)
  freeSlots : List ℕ
  freed : List ℕ

/-! ## Addresses -/

/-- The table index that `va` selects at the level with this shift. -/
def index (shift va : ℕ) : Fin 512 := Fin.ofNat 512 (va / 2 ^ shift)

/-- The way to the page table of `va`. -/
def dir (va : ℕ) : List (Fin 512) := [index 39 va, index 30 va, index 21 va]

/-- The way to the page directory of `va`. -/
def dirHuge (va : ℕ) : List (Fin 512) := [index 39 va, index 30 va]

/-- `VirtAddr::new` accepts the address: bits 47 to 63 are equal. -/
def isCanonical (va : ℕ) : Bool := va < 2 ^ 47 ∨ (2 ^ 64 - 2 ^ 47 ≤ va ∧ va < 2 ^ 64)

variable (m : Machine)

namespace Machine

/-! ## Memory and frames -/

/-- `write_pte`. -/
def writePte (table : ℕ) (i : Fin 512) (e : Pte) : Machine :=
  { m with mem := write m.mem table i e }

@[simp] theorem writePte_mem (table : ℕ) (i : Fin 512) (e : Pte) :
    (m.writePte table i e).mem = write m.mem table i e := rfl

/-- A whole frame is overwritten. -/
def fillFrame (f : ℕ) (t : Fin 512 → Pte) : Machine :=
  { m with mem := fill m.mem f t }

/-- `write_bytes(.., 0, 4096)`. -/
def zeroFrame (f : ℕ) : Machine := m.fillFrame f fun _ => 0#64

/-- `alloc.free(f)`. -/
def free (f : ℕ) : Machine :=
  { m with alloc := m.alloc.free f, freed := f :: m.freed }

/-- `has_clone_roots`. -/
def hasCloneRoots : Bool := m.clones ≠ []

/-! ## The mapper of the crate -/

inductive MapToError
  | frameAllocationFailed | parentEntryHugePage | pageAlreadyMapped
  deriving DecidableEq, Repr

/-- `create_next_table`: the table behind an entry, made if the entry is unused.  The flags to
insert have the present bit, so the entry links to a table afterwards unless it is huge. -/
def createNextTable (insert : Pte) (table : ℕ) (i : Fin 512) :
    Except MapToError (ℕ × Machine) :=
  let e := m.mem table i
  if e = 0#64 then
    match m.alloc.alloc with
    | none => .error .frameAllocationFailed
    | some (f, a) =>
      .ok (f, ({ m with alloc := a }.writePte table i (Pte.ofFrame f insert)).zeroFrame f)
  else
    let e' := if e.flags &&& insert = insert then e else (e &&& frameMask) ||| (e.flags ||| insert)
    if e'.isSet ptePs then .error .parentEntryHugePage
    else .ok (e'.frame, m.writePte table i e')

/-- `create_next_table` along a path. -/
def createTables (insert : Pte) : Machine → ℕ → List (Fin 512) → Except MapToError (ℕ × Machine)
  | m, table, [] => .ok (table, m)
  | m, table, i :: p =>
    match m.createNextTable insert table i with
    | .error e => .error e
    | .ok (f, m') => createTables insert m' f p

/-- `map_to_with_table_flags`: make the tables on the way, then write the leaf entry `e` at index
`i` of the last one. -/
def mapTo (root : ℕ) (path : List (Fin 512)) (i : Fin 512) (e insert : Pte) :
    Except MapToError Machine :=
  match createTables insert m root path with
  | .error err => .error err
  | .ok (table, m') =>
    if m'.mem table i = 0#64 then .ok (m'.writePte table i e) else .error .pageAlreadyMapped

/-- The page table of `va`, if every level above it links. -/
def walkTable (root va : ℕ) : Option ℕ := walk Pte.next m.mem root (dir va)

/-- `unmap` of a 4 KiB page: whether a leaf was removed. -/
def unmap4kImpl (root va : ℕ) : Option (Bool × Machine) :=
  if isCanonical va = false then none
  else
    match m.walkTable root va with
    | none => some (false, m)
    | some pt =>
      if (m.mem pt (index 12 va)).next.isSome then
        some (true, m.writePte pt (index 12 va) 0#64)
      else some (false, m)

/-- `translate`: `some none` is an address that is not mapped. -/
def translate (root va : ℕ) : Option (Option ℕ) :=
  if isCanonical va = false then none
  else
    let e4 := m.mem root (index 39 va)
    if e4.isSet ptePresent = false then some none
    else if e4.isSet ptePs then none
    else
      let e3 := m.mem e4.frame (index 30 va)
      if e3.isSet ptePresent = false then some none
      else if e3.isSet ptePs then some (some (e3.frame / 2 ^ 30 * 2 ^ 30 + va % 2 ^ 30))
      else
        let e2 := m.mem e3.frame (index 21 va)
        if e2.isSet ptePresent = false then some none
        else if e2.isSet ptePs then some (some (e2.frame / 2 ^ 21 * 2 ^ 21 + va % 2 ^ 21))
        else
          let e1 := m.mem e2.frame (index 12 va)
          if e1 = 0#64 then some none else some (some (e1.frame + va % 2 ^ 12))

/-! ## Mapping -/

/-- `new_higher_half_slot`. -/
def newHigherHalfSlot (root va : ℕ) : Bool :=
  256 ≤ (index 39 va).val ∧ (m.mem root (index 39 va)).isSet ptePresent = false

/-- `sync_clone_half`: every clone takes over the upper half of `root`. -/
def syncCloneHalf (root : ℕ) : Machine :=
  { m with mem := fun f i => if f ∈ m.clones ∧ 256 ≤ i.val then m.mem root i else m.mem f i }

/-- What `map_4k` and `map_2m` share: a page whose leaf entry `e` goes to index `i` of the table at
the end of `path`. -/
def mapPage (root va : ℕ) (path : List (Fin 512)) (i : Fin 512) (e insert : Pte) :
    Option Machine :=
  match m.mapTo root path i e insert with
  | .error _ => none
  | .ok m' => some (if m.newHigherHalfSlot root va then m'.syncCloneHalf root else m')

/-- `Vmm::map_4k`. -/
def map4k (root va pa : ℕ) (flags : PageFlags) : Option Machine :=
  if va % 4096 ≠ 0 ∨ pa % 4096 ≠ 0 then none
  else if isCanonical va = false ∨ 2 ^ 52 ≤ pa then none
  else
    let leaf := pageFlagsToX86 flags
    m.mapPage root va (dir va) (index 12 va) (Pte.ofFrame pa leaf) (tableFlagsFor leaf)

/-- `Vmm::map_2m`. -/
def map2m (root va pa : ℕ) (flags : PageFlags) : Option Machine :=
  if va % 2 ^ 21 ≠ 0 ∨ pa % 2 ^ 21 ≠ 0 then none
  else if isCanonical va = false ∨ 2 ^ 52 ≤ pa then none
  else
    let leaf := pageFlagsToX86 flags
    m.mapPage root va (dirHuge va) (index 21 va) (Pte.ofFrame pa (leaf ||| ptePs))
      (tableFlagsFor leaf)

/-- The 2 MiB loop of `map`; `fuel` bounds its rounds. -/
def map2mLoop (root : ℕ) (flags : PageFlags) :
    ℕ → Machine → ℕ → ℕ → ℕ → Option (Machine × ℕ × ℕ × ℕ)
  | 0, m, v, p, remaining => some (m, v, p, remaining)
  | fuel + 1, m, v, p, remaining =>
    if 2 ^ 21 ≤ remaining ∧ v % 2 ^ 21 = 0 ∧ p % 2 ^ 21 = 0 then
      match m.map2m root v p flags with
      | none => none
      | some m' => map2mLoop root flags fuel m' (v + 2 ^ 21) (p + 2 ^ 21) (remaining - 2 ^ 21)
    else some (m, v, p, remaining)

/-- The 4 KiB loop of `map`, over the pages that remain. -/
def map4kLoop (root : ℕ) (flags : PageFlags) : ℕ → Machine → ℕ → ℕ → Option Machine
  | 0, m, _, _ => some m
  | pages + 1, m, v, p =>
    match m.map4k root v p flags with
    | none => none
    | some m' => map4kLoop root flags pages m' (v + 4096) (p + 4096)

/-- `Vmm::map`: 2 MiB pages while both addresses are aligned, then 4 KiB pages. -/
def map (root va pa size : ℕ) (flags : PageFlags) : Option Machine :=
  if va % 4096 ≠ 0 ∨ pa % 4096 ≠ 0 ∨ size = 0 ∨ size % 4096 ≠ 0 then none
  else
    match map2mLoop root flags (size / 2 ^ 21) m va pa size with
    | none => none
    | some (m', v, p, remaining) => map4kLoop root flags (remaining / 4096) m' v p

/-! ## Unmapping -/

def pendingCapacity : ℕ := 256

/-- `PendingFrames::push`, which panics when the collector is full. -/
def pushPending (pending : List ℕ) (f : ℕ) : Option (List ℕ) :=
  if pending.length < pendingCapacity then some (pending ++ [f]) else none

/-- …unless the frame is to be kept. -/
def pushUnless (keep : Bool) (pending : List ℕ) (f : ℕ) : Option (List ℕ) :=
  if keep then some pending else pushPending pending f

/-- `PendingFrames::flush`. -/
def flushPending (pending : List ℕ) : Machine := pending.foldl free m

/-- `table_is_empty`. -/
def tableIsEmpty (table : ℕ) : Bool :=
  (List.finRange 512).all fun i => (m.mem table i).isSet ptePresent = false

/-- `reclaim_empty_tables`: take out the tables above `va` that hold no present entry, from the
page table up. -/
def reclaimEmptyTables (root : ℕ) (pending : List ℕ) (va : ℕ) :
    Option (Machine × List ℕ) :=
  let keep := m.hasCloneRoots
  let pml4e := m.mem root (index 39 va)
  if pml4e.isSet ptePresent = false then some (m, pending)
  else
    let pdpt := pml4e.frame
    let pdpte := m.mem pdpt (index 30 va)
    if pdpte.isSet ptePresent = false then some (m, pending)
    else
      let pd := pdpte.frame
      let pde := m.mem pd (index 21 va)
      if pde.isSet ptePresent = false then some (m, pending)
      else
        let pt := pde.frame
        if (m.mem pt (index 12 va)).isSet ptePresent then some (m, pending)
        else if m.tableIsEmpty pt = false then some (m, pending)
        else
          match pushUnless keep pending pt with
          | none => none
          | some pending =>
            let m := m.writePte pd (index 21 va) 0#64
            if m.tableIsEmpty pd = false then some (m, pending)
            else
              match pushUnless keep pending pd with
              | none => none
              | some pending =>
                let m := m.writePte pdpt (index 30 va) 0#64
                if m.tableIsEmpty pdpt = false then some (m, pending)
                else
                  match pushUnless keep pending pdpt with
                  | none => none
                  | some pending => some (m.writePte root (index 39 va) 0#64, pending)

/-- `reclaim_tables`: nothing is reclaimed while clones share tables. -/
def reclaimTables (root : ℕ) (pending : List ℕ) (firstCleared : ℕ) :
    Option (Machine × List ℕ) :=
  if m.hasCloneRoots then some (m, pending) else m.reclaimEmptyTables root pending firstCleared

/-- The loop state of the range unmaps: the collected table frames, the first page cleared in the
current 2 MiB group (`u64::MAX` before there is one) and the leaf frames. -/
structure UnmapLoop where
  m : Machine
  pending : List ℕ
  groupFirst : ℕ
  frames : List ℕ

/-- No page was cleared yet. -/
def noGroup : ℕ := 2 ^ 64 - 1

/-- The collected frames go back to the allocator when fewer than `room` places are left. -/
def UnmapLoop.drain (s : UnmapLoop) (room : ℕ) : UnmapLoop :=
  if pendingCapacity - s.pending.length < room then
    { s with m := s.m.flushPending s.pending, pending := [] }
  else s

/-- A page of another group was cleared: reclaim the tables of the group before. -/
def UnmapLoop.enterGroup (root v : ℕ) (s : UnmapLoop) : Option UnmapLoop :=
  if v / 2 ^ 21 = s.groupFirst / 2 ^ 21 then some s
  else if s.groupFirst = noGroup then some { s with groupFirst := v }
  else
    let s := s.drain 3
    match s.m.reclaimTables root s.pending s.groupFirst with
    | none => none
    | some (m', pending) =>
      some { ({ s with m := m', pending := pending } : UnmapLoop).drain 1 with groupFirst := v }

/-- One round of a range unmap.  With `collect` the page is translated first and its frame kept. -/
def unmapRound (root : ℕ) (collect : Bool) (s : UnmapLoop) (v : ℕ) : Option UnmapLoop :=
  match if collect then s.m.translate root v else some none with
  | none => none
  | some phys =>
    if collect ∧ phys = none then some (s.drain 1)
    else
      match s.m.unmap4kImpl root v with
      | none => none
      | some (false, _) => some (s.drain 1)
      | some (true, m') =>
        match ({ s with m := m', frames := s.frames ++ phys.toList } : UnmapLoop).enterGroup
            root v with
        | none => none
        | some s => some (s.drain 1)

def unmapRounds (root : ℕ) (collect : Bool) : UnmapLoop → List ℕ → Option UnmapLoop
  | s, [] => some s
  | s, v :: vs =>
    match unmapRound root collect s v with
    | none => none
    | some s' => unmapRounds root collect s' vs

/-- The pages of `[va, stop)`. -/
def pagesOf (va stop : ℕ) : List ℕ :=
  (List.range ((stop - va + 4095) / 4096)).map fun k => va + k * 4096

/-- The range unmap; the end of the range is computed in 64 bits. -/
def unmapRange (root : ℕ) (collect : Bool) (va size : ℕ) :
    Option (Machine × List ℕ) :=
  match unmapRounds root collect ⟨m, [], noGroup, []⟩ (pagesOf va ((va + size) % 2 ^ 64)) with
  | none => none
  | some s =>
    if s.groupFirst = noGroup then some (s.m.flushPending s.pending, s.frames)
    else
      let s := s.drain 3
      match s.m.reclaimTables root s.pending s.groupFirst with
      | none => none
      | some (m', pending) => some (m'.flushPending pending, s.frames)

/-- `Vmm::unmap`. -/
def unmap (root va size : ℕ) : Option Machine :=
  if va % 4096 ≠ 0 then none
  else
    match m.unmapRange root false va size with
    | none => none
    | some (m', _) => some m'

end Machine

end Bedrock
