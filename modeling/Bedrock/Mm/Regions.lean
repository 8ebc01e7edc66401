import Mathlib.Tactic

/-!
# Mm/Regions — the bookkeeping of a user address space

A process's user memory is a table of regions: the ELF image, the stack, the program break's heap
and the anonymous mappings.  Anonymous mappings and the stack keep an unmapped guard page below
them, which counts as occupied:

    0 --- image -┤ heap -▸ brk ⋯ guard|anon ⋯ guard|anon ⋯ guard|stack
                 floor                              ceiling ┘

Here is what `brk`, `mmap` and `munmap` decide and write down; committing and releasing frames is
the page tables' part.  Addresses are bytes, `PAGE` is 4096.
-/

namespace Bedrock

/-- Architecture-independent page permissions. -/
abbrev PageFlags := BitVec 8

namespace PageFlags

def read : PageFlags := 1#8 <<< 0
def write : PageFlags := 1#8 <<< 1
def execute : PageFlags := 1#8 <<< 2
def noCache : PageFlags := 1#8 <<< 3
def user : PageFlags := 1#8 <<< 4
def writeCombining : PageFlags := 1#8 <<< 5

/-- `PageFlags::contains`. -/
def has (f g : PageFlags) : Bool := f &&& g == g

end PageFlags

/-- The error codes of the syscall-facing functions. -/
inductive Errno
  | efault | enomem | einval
  deriving DecidableEq, Repr

inductive RegionKind
  | image | stack | heap | anon
  deriving DecidableEq, Repr

def page : ℕ := 4096

def u64Bound : ℕ := 2 ^ 64

structure Region where
  kind : RegionKind
  vaddr : ℕ
  pages : ℕ
  flags : PageFlags
  guard : Bool
  lazy : Bool
  pkey : ℕ
  deriving DecidableEq

/-- `Region::end`. -/
def Region.stop (r : Region) : ℕ := r.vaddr + r.pages * page

/-- One live process address space. -/
structure AddressSpace where
  root : ℕ
  brkFloor : ℕ
  brkCur : ℕ
  stackTop : ℕ
  committed : ℕ
  budgetPages : ℕ
  regions : List Region
  deriving DecidableEq

/-! ## Helpers -/

/-- `align_up`: to the next page, unless that wraps. -/
def alignUp (x : ℕ) : Option ℕ :=
  if x + (page - 1) < u64Bound then some ((x + (page - 1)) / page * page) else none

/-- A region's pages together with the guard page below it. -/
def collSpan (r : Region) : ℕ × ℕ :=
  (r.vaddr - (if r.guard then page else 0), r.vaddr + r.pages * page)

/-- `range_intersects`; a range that wraps reaches everything above it. -/
def rangeIntersects (a alen bstart bend : ℕ) : Bool :=
  a < bend ∧ (a + alen < u64Bound → bstart < a + alen)

def userBudgetCeilingPages : ℕ := 256 * 1024 * 1024 / page
def userBudgetFloorPages : ℕ := 16 * 1024 * 1024 / page

/-- The budget at the moment, from the number of free frames. -/
def dynamicBudgetPages (freePages : ℕ) : ℕ :=
  min (min (max (freePages / 16) userBudgetFloorPages) userBudgetCeilingPages)
    (max (freePages / 4) userBudgetFloorPages)

namespace AddressSpace

/-- Where the stack's guard page begins: user allocations stay below. -/
def userCeiling (asp : AddressSpace) : ℕ :=
  match asp.regions.find? fun r => r.kind = .stack with
  | some r => (collSpan r).1
  | none => 0

def fitAslrSpanPages : ℕ := 2 ^ 14

/-- `random_fit_start` with the random number drawn. -/
def randomFitStart (asp : AddressSpace) (len rnd : ℕ) : Option ℕ :=
  let lo := asp.brkCur + page
  if u64Bound ≤ lo then none
  else if asp.userCeiling ≤ min (lo + len) (u64Bound - 1) then none
  else
    let spanPages := min ((asp.userCeiling - lo - len) / page) fitAslrSpanPages
    if spanPages = 0 then none else some (lo + rnd % spanPages * page)

/-- The loop of `find_fit_from`.  A candidate that is blocked moves past the region that blocks it,
so the loop ends within `ceiling` rounds. -/
def fitLoop (asp : AddressSpace) (len : ℕ) : ℕ → ℕ → Option ℕ
  | 0, _ => none
  | fuel + 1, cand =>
    if asp.userCeiling ≤ cand then none
    else if asp.userCeiling - cand < len then none
    else
      match asp.regions.find? fun r =>
        rangeIntersects cand len (collSpan r).1 (collSpan r).2 with
      | none => some cand
      | some r =>
        if u64Bound ≤ (collSpan r).2 + page ∨ u64Bound ≤ cand + page then none
        else fitLoop asp len fuel (max ((collSpan r).2 + page) (cand + page))

/-- First-fit gap search from `start`. -/
def findFitFrom (asp : AddressSpace) (npages start : ℕ) : Option ℕ :=
  fitLoop asp (npages * page) (asp.userCeiling + 1) start

/-- `mmap` placement: from a random start, else bottom-up from above the break. -/
def findFit (asp : AddressSpace) (npages rnd : ℕ) : Option ℕ :=
  if u64Bound ≤ npages * page then none
  else
    match (asp.randomFitStart (npages * page) rnd).bind (asp.findFitFrom npages) with
    | some v => some v
    | none =>
      if u64Bound ≤ asp.brkCur + page then none else asp.findFitFrom npages (asp.brkCur + page)

/-- Whether `[addr, addr + len)` or the guard page below it overlaps a region. -/
def collides (asp : AddressSpace) (addr len : ℕ) : Bool :=
  asp.regions.any fun r => addr - page < (collSpan r).2 ∧ (collSpan r).1 < addr + len

end AddressSpace

/-- `prot_to_flags`: no executable mapping is writable. -/
def protToFlags (prot : BitVec 64) : Except Errno PageFlags :=
  if prot = 0 ∨ prot &&& ~~~0x7#64 ≠ 0 then .error .einval
  else if prot &&& 4 ≠ 0 ∧ prot &&& 2 ≠ 0 then .error .einval
  else
    let f := if prot &&& 1 ≠ 0 then PageFlags.user ||| .read else .user
    .ok (if prot &&& 4 ≠ 0 then f ||| .execute else if prot &&& 2 ≠ 0 then f ||| .write else f)

/-! ## Registration -/

def userStackTop : ℕ := 0x7FFF_0000_0000
def userStackAslrWindow : ℕ := 256 * 1024 * 1024
def userStackSize : ℕ := 32 * 1024
def userImageMax : ℕ := userStackTop - userStackAslrWindow - userStackSize - 4096

/-- The extents the loader registers: a page-aligned image above the null page that ends below the
lowest stack, and a stack top slid down by less than the window. -/
structure Loaded (imageFloor imageTop stackTop : ℕ) : Prop where
  dvdFloor : page ∣ imageFloor
  dvdTop : page ∣ imageTop
  dvdStack : page ∣ stackTop
  aboveNull : page ≤ imageFloor
  nonempty : imageFloor < imageTop
  imageMax : imageTop ≤ userImageMax
  window : userStackTop - userStackAslrWindow < stackTop
  stackMax : stackTop ≤ userStackTop

/-- `register`: the address space of a freshly loaded process, with the initial budget given. -/
def register (root imageFloor imageTop stackTop : ℕ) (stackFlags : PageFlags)
    (budget : Option ℕ) : AddressSpace where
  root := root
  brkFloor := imageTop
  brkCur := imageTop
  stackTop := stackTop
  committed := (imageTop - imageFloor) / page + 8
  budgetPages :=
    min (match budget with
      | some b => max b ((imageTop - imageFloor) / page + 8 + 16)
      | none => userBudgetCeilingPages) userBudgetCeilingPages
  regions :=
    [{ kind := .image, vaddr := imageFloor, pages := (imageTop - imageFloor) / page
       flags := .user ||| .read ||| .write, guard := false, lazy := false, pkey := 0 },
     { kind := .stack, vaddr := stackTop - 8 * page, pages := 8
       flags := stackFlags, guard := true, lazy := false, pkey := 0 }]

namespace AddressSpace

variable (asp : AddressSpace)

/-! ## `brk` -/

/-- What `brk` decides: answer at once, or move the break by a number of pages. -/
inductive BrkPlan
  | answer (r : Except Errno ℕ)
  | grow (new npages : ℕ)
  | shrink (new npages : ℕ)

/-- The lowest occupied span start above the break. -/
def growthBoundary : ℕ :=
  asp.regions.foldl
    (fun b r => if asp.brkCur < (collSpan r).1 then min b (collSpan r).1 else b) (u64Bound - 1)

def brkPlan (freePages newBreak : ℕ) : BrkPlan :=
  if newBreak = 0 then .answer (.ok asp.brkCur)
  else
    match alignUp newBreak with
    | none => .answer (.error .einval)
    | some new =>
      if new < asp.brkFloor then .answer (.ok asp.brkCur)
      else if new = asp.brkCur then .answer (.ok asp.brkCur)
      else if asp.brkCur < new then
        if asp.growthBoundary < new then .answer (.error .enomem)
        else if dynamicBudgetPages freePages - asp.committed < (new - asp.brkCur) / page then
          .answer (.error .enomem)
        else .grow new ((new - asp.brkCur) / page)
      else .shrink new ((asp.brkCur - new) / page)

/-- Set the page count of the first heap region. -/
def setHeapPages (pages : ℕ) : List Region → List Region
  | [] => []
  | r :: rs => if r.kind = .heap then { r with pages := pages } :: rs
      else r :: setHeapPages pages rs

/-- The heap region as `brk` first writes it. -/
def heapRegion (brkFloor pages : ℕ) : Region where
  kind := .heap
  vaddr := brkFloor
  pages := pages
  flags := .user ||| .read ||| .write
  guard := false
  lazy := false
  pkey := 0

/-- The region table after a growth that was committed. -/
def brkGrown (new npages : ℕ) : AddressSpace :=
  let pages := (new - asp.brkFloor) / page
  { asp with
    brkCur := new
    committed := asp.committed + npages
    regions :=
      if asp.regions.any fun r => r.kind = .heap then setHeapPages pages asp.regions
      else asp.regions ++ [heapRegion asp.brkFloor pages] }

/-- …and after a shrink. -/
def brkShrunk (new npages : ℕ) : AddressSpace :=
  let pages := (new - asp.brkFloor) / page
  { asp with
    brkCur := new
    committed := asp.committed - npages
    regions :=
      if pages = 0 then asp.regions.filter fun r => r.kind ≠ .heap
      else setHeapPages pages asp.regions }

/-! ## `mmap` -/

/-- A mapping `mmap` has decided on. -/
structure MmapPlan where
  vaddr : ℕ
  npages : ℕ
  flags : PageFlags
  lazy : Bool

/-- Where `mmap` puts a mapping: the first fit, or the address asked for if that is free. -/
def mmapPlace (addr len rnd : ℕ) : Except Errno ℕ :=
  if addr = 0 then
    match asp.findFit (len / page) rnd with
    | some v => .ok v
    | none => .error .enomem
  else if addr % page ≠ 0 ∨ addr < page then .error .einval
  else if u64Bound ≤ addr + len ∨ asp.userCeiling < addr + len then .error .einval
  else if asp.collides addr len then .error .einval
  else .ok addr

/-- `mmap` up to the commit: prot bit 8 asks for a lazy region, which is charged nothing. -/
def mmapPlan (freePages addr len : ℕ) (prot : BitVec 64) (rnd : ℕ) : Except Errno MmapPlan :=
  if len = 0 ∨ len % page ≠ 0 then .error .einval
  else
    match protToFlags (prot &&& ~~~0x8#64) with
    | .error e => .error e
    | .ok flags =>
      let lazy := prot &&& 0x8#64 != 0
      if lazy ∧ flags.has .write = false then .error .einval
      else
        match asp.mmapPlace addr len rnd with
        | .error e => .error e
        | .ok vaddr =>
          if lazy = false ∧ dynamicBudgetPages freePages - asp.committed < len / page then
            .error .enomem
          else .ok ⟨vaddr, len / page, flags, lazy⟩

/-- The region table with a mapping added. -/
def mapped (p : MmapPlan) : AddressSpace :=
  { asp with
    committed := if p.lazy then asp.committed else asp.committed + p.npages
    regions := asp.regions ++
      [{ kind := .anon, vaddr := p.vaddr, pages := p.npages, flags := p.flags
         guard := true, lazy := p.lazy, pkey := 0 }] }

end AddressSpace

/-! ## `munmap` -/

/-- The region has a page in `[addr, stop)`. -/
def Region.overlaps (addr stop : ℕ) (r : Region) : Bool := !(r.stop ≤ addr ∨ stop ≤ r.vaddr)

/-- What is left of a region once `[addr, stop)` is taken out of it: nothing, its tail, its head,
or both, the tail with a guard page in the hole. -/
def Region.cut (addr stop : ℕ) (r : Region) : List Region :=
  let ovStart := max r.vaddr addr
  let ovEnd := min r.stop stop
  if r.overlaps addr stop = false then [r]
  else if ovStart = r.vaddr ∧ ovEnd = r.stop then []
  else if ovStart = r.vaddr then [{ r with vaddr := ovEnd, pages := (r.stop - ovEnd) / page }]
  else if ovEnd = r.stop then [{ r with pages := (ovStart - r.vaddr) / page }]
  else
    [{ r with pages := (ovStart - r.vaddr) / page },
     { kind := .anon, vaddr := ovEnd, pages := (r.stop - ovEnd) / page, flags := r.flags
       guard := 1 ≤ (ovEnd - ovStart) / page, lazy := r.lazy, pkey := r.pkey }]

namespace AddressSpace

variable (asp : AddressSpace)

/-- The regions hit follow one another without a hole from `cursor` to `stop`. -/
def covers (addr stop : ℕ) : ℕ → List Region → Bool
  | cursor, [] => stop ≤ cursor
  | cursor, r :: rs =>
    if max r.vaddr addr = cursor then
      if stop ≤ min r.stop stop then true else covers addr stop (min r.stop stop) rs
    else false

/-- `munmap`'s first phase: the patched region table, and the page ranges to unmap (those of the
later table entries first). -/
def munmapPlan (addr len : ℕ) : Except Errno (AddressSpace × List (ℕ × ℕ)) :=
  if len = 0 ∨ len % page ≠ 0 ∨ addr % page ≠ 0 then .error .einval
  else if u64Bound ≤ addr + len then .error .einval
  else
    let stop := addr + len
    let hits := asp.regions.filter (·.overlaps addr stop)
    if hits.any fun r => r.kind ≠ .anon then .error .einval
    else if hits = [] then .error .einval
    else if covers addr stop addr (hits.insertionSort fun r q => r.vaddr ≤ q.vaddr) = false then
      .error .einval
    else
      .ok ({ asp with regions := asp.regions.flatMap (·.cut addr stop) },
        hits.reverse.map fun r =>
          (max r.vaddr addr, (min r.stop stop - max r.vaddr addr) / page))

/-- The committed count after `munmap` released some leaves. -/
def released (freed : ℕ) : AddressSpace :=
  { asp with committed := asp.committed - min freed asp.committed }

/-! ## Calls -/

/-- A call on one address space, with what the rest of the system contributes to it: the number of
free frames, the random number drawn, whether the pages could be committed, the number of leaves
released, the child's root. -/
inductive Call
  | brk (freePages newBreak : ℕ) (commit : Bool)
  | mmap (freePages addr len : ℕ) (prot : BitVec 64) (rnd : ℕ) (commit : Bool)
  | munmap (addr len freed : ℕ)
  | fork (childRoot : ℕ)

/-- The address space after a call; `fork` goes on with the child's. -/
def step (asp : AddressSpace) : Call → Option AddressSpace
  | .brk freePages newBreak commit => some <|
      match asp.brkPlan freePages newBreak with
      | .answer _ => asp
      | .grow new npages => if commit then asp.brkGrown new npages else asp
      | .shrink new npages => asp.brkShrunk new npages
  | .mmap freePages addr len prot rnd commit => some <|
      match asp.mmapPlan freePages addr len prot rnd with
      | .error _ => asp
      | .ok p => if p.lazy || commit then asp.mapped p else asp
  | .munmap addr len freed => some <|
      match asp.munmapPlan addr len with
      | .error _ => asp
      | .ok (asp', _) => asp'.released freed
  | .fork childRoot => some { asp with root := childRoot }

end AddressSpace

end Bedrock
