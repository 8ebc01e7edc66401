import Bedrock.Fat32.LongName
import Bedrock.Lib.Run

/-!
# Fat32/DotEntries — the first two entries of a new directory

`mkdir` starts a directory with an entry for itself and one for its parent, and makes their short
names with the encoder of ordinary names, which cuts a name at its last dot:

    name   stem  extension   short name             read as
    .      ""    ""          eleven spaces          ""
    ..     "."   ""          a dot and ten spaces   "."

So the parent goes by the name `.`, and nothing goes by `..` (`mkdir_misnames`).  The allocator may
hand out any free cluster here, and the entries of the new name may go to any free places.
-/

namespace Bedrock.Fat32

open List

/-! ## Short names -/

def ATTR_VOLUME_ID : UInt8 := 0x08
def ATTR_DIRECTORY : UInt8 := 0x10
def DIR_DELETED : UInt8 := 0xE5
def KANJI_LEAD : UInt8 := 0x05
def DIR_END : UInt8 := 0x00
def MAX_LFN_ENTRIES : ℕ := 20

/-- Bytes in upper case, cut or filled with spaces to `n`. -/
def padUpper (n : ℕ) (text : Str) : List UInt8 :=
  (range n).map fun i =>
    let x := (text.flatMap String.utf8EncodeChar).getD i 0x20
    if 97 ≤ x ∧ x ≤ 122 then x - 32 else x

/-- A first byte 0xE5 would say that the entry is deleted. -/
def guardLead (bytes : List UInt8) : List UInt8 :=
  bytes.modifyHead fun x => if x = DIR_DELETED then KANJI_LEAD else x

def makeSfnBytes (stem ext : Str) : List UInt8 := guardLead (padUpper 8 stem) ++ padUpper 3 ext

/-- The short name with the tail `~counter`. -/
def numericTail (stem ext : Str) (counter : ℕ) : List UInt8 :=
  let suffix := 0x7E :: (Nat.toDigits 10 counter).map fun c => UInt8.ofNat c.toNat
  guardLead (padUpper (8 - suffix.length) stem) ++ suffix ++ padUpper 3 ext

def sfnFromName (name : Str) (existing : List (List UInt8)) : Option (List UInt8) :=
  let ext := (name.reverse.takeWhile (· ≠ '.')).reverse
  let (stem, ext) :=
    if '.' ∈ name then (name.take (name.length - ext.length - 1), ext) else (name, [])
  if name = [] then none
  else if makeSfnBytes stem ext ∉ existing then some (makeSfnBytes stem ext)
  else ((range 999999).map fun i => numericTail stem ext (i + 1)).find? (· ∉ existing)

/-! ## Entries -/

structure DirEntrySlot where
  vfatEntries : List Entry
  sfnEntry : Entry

def Entry.sfn (e : Entry) : List UInt8 := (range 11).map e.byte

def Entry.attr (e : Entry) : UInt8 := e.byte 0x0B

/-- The entry can be written over. -/
def Entry.free (e : Entry) : Bool := e.byte 0 = DIR_DELETED ∨ e.byte 0 = DIR_END

def firstClusFromEntry (e : Entry) : UInt32 :=
  .ofNat ((e.byte 0x1A).toNat + 2 ^ 8 * (e.byte 0x1B).toNat + 2 ^ 16 * (e.byte 0x14).toNat +
    2 ^ 24 * (e.byte 0x15).toNat)

def setFirstClusInEntry (e : Entry) (c : UInt32) : Entry :=
  (((e.setByte 0x14 (c >>> 16).toUInt8).setByte 0x15 (c >>> 24).toUInt8).setByte 0x1A
    c.toUInt8).setByte 0x1B (c >>> 8).toUInt8

/-- `set_timestamps`, with the time and the date of the wall clock if it is set. -/
def setTimestamps (now : Option (UInt16 × UInt16)) (e : Entry) : Entry :=
  now.elim e fun (time, date) j =>
    match j.val with
    | 0x0D => 0
    | 0x0E | 0x16 => time.toUInt8
    | 0x0F | 0x17 => (time >>> 8).toUInt8
    | 0x10 | 0x12 | 0x18 => date.toUInt8
    | 0x11 | 0x13 | 0x19 => (date >>> 8).toUInt8
    | _ => e j

/-- The entry of a directory. -/
def dirEntry (now : Option (UInt16 × UInt16)) (sfn : List UInt8) (c : UInt32) : Entry :=
  setTimestamps now <| setFirstClusInEntry
    (Entry.setByte (fun j => sfn.getD j 0) 0x0B ATTR_DIRECTORY) c

/-- `decode_sfn_case`. -/
def decodeSfnCase (sfn : List UInt8) (flags : UInt8) : Str :=
  let char (lower : Bool) (x : UInt8) : Char :=
    let c := (Char.ofNat x.toNat).toLower
    if lower then c else c.toUpper
  let stem := ((sfn.take 8).reverse.dropWhile (· = 0x20)).reverse
  let stem := stem.modifyHead fun x => if x = KANJI_LEAD then 0xE5 else x
  let ext := (sfn.drop 8).takeWhile (· ≠ 0x20)
  stem.map (char (flags &&& 0x08 ≠ 0)) ++
    if ext = [] then [] else '.' :: ext.map (char (flags &&& 0x10 ≠ 0))

-- how labels and long names are read makes no difference here
variable (label : List UInt8 → Str) (longName : List Entry → Str)

def decodeEntryName (slot : DirEntrySlot) : Str :=
  if slot.sfnEntry.attr &&& ATTR_VOLUME_ID ≠ 0 then label slot.sfnEntry.sfn
  else if slot.vfatEntries ≠ [] then longName slot.vfatEntries
  else decodeSfnCase slot.sfnEntry.sfn (slot.sfnEntry.byte 0x0C)

def DirEntrySlot.named (name : Str) (slot : DirEntrySlot) : Bool :=
  (decodeEntryName label longName slot).map Char.toLower = name.map Char.toLower

/-- The slots in a list of entries behind the long-name entries `chain`, and the long-name entries
at its end unless an end mark was met. -/
def scanSlots : List Entry → List Entry → List DirEntrySlot × Option (List Entry)
  | [], chain => ([], some chain)
  | e :: es, chain =>
    if e.byte 0 = DIR_END then ([], none)
    else if e.byte 0 = DIR_DELETED then scanSlots es []
    else if e.attr = ATTR_LONG_NAME then scanSlots es (chain ++ [e])
    else
      -- a chain that is not of this short name is not trusted
      let chain := if e.attr &&& ATTR_VOLUME_ID ≠ 0 ∨ chain.any (·.byte 13 ≠ vfatChecksum e.sfn)
        then [] else chain
      (scanSlots es []).map (⟨chain, e⟩ :: ·) id

/-! ## Volumes -/

def EOC_MARKER : UInt32 := 0x0FFFFFF8

/-- The table of clusters as `read_fat_entry` sees it, and the entries in each cluster. -/
structure Volume where
  perClus : ℕ
  totalClus : ℕ
  rootClus : UInt32
  fat : UInt32 → UInt32
  data : UInt32 → List Entry

/-- What a placement of entries in a directory is made of. -/
inductive Act
  | alloc (c : UInt32)
  | link (last c : UInt32)
  | write (c : UInt32) (buf : List Entry)

namespace Volume

open Function (update update_of_ne update_self)

/-- A cluster that is allocated is filled with zeros, and a write leaves the entries in use. -/
def step (v : Volume) : Act → Option Volume
  | .alloc c =>
    if v.fat c = 0 then some { v with
      fat := update v.fat c EOC_MARKER, data := update v.data c (replicate v.perClus fun _ => 0) }
    else none
  | .link last c => if c = 0 then none else some { v with fat := update v.fat last c }
  | .write c buf =>
    if Forall₂ (fun e e' : Entry => e.free = false → e' = e) (v.data c) buf then
      some { v with data := update v.data c buf }
    else none

def dotEntries (now : Option (UInt16 × UInt16)) (new parent : UInt32) : List Entry :=
  [dirEntry now ((sfnFromName ['.'] []).getD []) new,
    dirEntry now ((sfnFromName ['.', '.'] []).getD []) parent]

/-- `mkdir` in the directory at `parent`, of which it has read `slots`; `new` is the cluster that it
gets, and `acts` is what `write_dir_entries` does with the entries of the name. -/
def mkdir (now : Option (UInt16 × UInt16)) (slots : List DirEntrySlot) (acts : List Act)
    (v : Volume) (parent new : UInt32) (name : Str) : Except VfsError Volume :=
  if slots.any (·.named label longName name) then .error .alreadyExists
  else if MAX_LFN_ENTRIES < ((encodeUtf16 name).length + 12) / 13 then .error .invalidInput
  else
    match v.step (.alloc new) with
    | none => .error .noSpace
    | some v =>
      let buf := dotEntries now new parent ++ replicate (v.perClus - 2) fun _ => 0
      if sfnFromName name (slots.map (·.sfnEntry.sfn)) = none then .error .invalidInput
      else (run step { v with data := update v.data new buf } acts).elim (.error .ioError) .ok

/-- `read_dir_slots`, from a cluster of the directory on. -/
def slotsFrom (v : Volume) : ℕ → UInt32 → List Entry → Except VfsError (List DirEntrySlot)
  | 0, _, _ => .error .ioError
  | fuel + 1, c, chain =>
    match (scanSlots (v.data c) chain).2 with
    | none => .ok (scanSlots (v.data c) chain).1
    | some chain' =>
      if EOC_MARKER ≤ v.fat c then .ok (scanSlots (v.data c) chain).1
      else (v.slotsFrom fuel (v.fat c) chain').map ((scanSlots (v.data c) chain).1 ++ ·)

variable (v : Volume) (parent dir : UInt32)

/-- The first cluster of what `lookup` finds. -/
def lookup (name : Str) : Except VfsError UInt32 := do
  let slots ← v.slotsFrom (v.totalClus + 3) dir []
  match slots.find? (·.named label longName name) with
  | none => .error .notFound
  | some s =>
    let fc := firstClusFromEntry s.sfnEntry
    .ok (if name = ['.', '.'] ∧ fc = 0 then v.rootClus else fc)

/-- The names that `readdir` lists. -/
def readdir : Except VfsError (List Str) := do
  let slots ← v.slotsFrom (v.totalClus + 3) dir []
  .ok ((slots.map (decodeEntryName label longName)).filter fun n =>
    n ≠ [] ∧ n ≠ ['.'] ∧ n ≠ ['.', '.'])

/-- The directory starts as the format asks for, and is empty. -/
structure Initial : Prop where
  names : ((v.data dir).take 2).map Entry.sfn =
    [0x2E :: replicate 10 0x20, 0x2E :: 0x2E :: replicate 9 0x20]
  self : v.lookup label longName dir ['.'] = .ok dir
  parent : v.lookup label longName dir ['.', '.'] = .ok parent
  empty : v.readdir label longName dir = .ok []

/-! ## What is found -/

variable {label longName} {now : Option (UInt16 × UInt16)} {v' : Volume} {new : UInt32}

/-- The cluster is in use and starts with these entries. -/
def Starts (es : List Entry) (c : UInt32) (v : Volume) : Prop := v.fat c ≠ 0 ∧ es <+: v.data c

theorem prefix_of_forall₂ {es l l' : List Entry} (hes : ∀ e ∈ es, e.free = false) (hp : es <+: l)
    (h : Forall₂ (fun e e' : Entry => e.free = false → e' = e) l l') : es <+: l' := by
  obtain ⟨t, rfl⟩ := hp
  induction es generalizing l' with
  | nil => exact nil_prefix
  | cons e es ih =>
    obtain ⟨e', l', he, hl, rfl⟩ := forall₂_cons_left_iff.mp h
    rw [he (hes e mem_cons_self)]
    exact cons_prefix_cons.mpr ⟨rfl, ih (fun e h => hes e (mem_cons_of_mem _ h)) hl⟩

theorem Starts.step {es : List Entry} {a : Act} (hes : ∀ e ∈ es, e.free = false)
    (h : Starts es new v) (hs : v.step a = some v') : Starts es new v' := by
  cases a with
  | alloc c =>
    simp only [Volume.step] at hs
    split at hs <;> cases hs
    have hne : new ≠ c := fun e => h.1 (e ▸ ‹_›)
    simpa [Starts, update_of_ne hne] using h
  | link last c =>
    simp only [Volume.step] at hs
    split at hs <;> cases hs
    obtain rfl | hne := eq_or_ne new last
    · simpa [Starts] using ⟨‹_›, h.2⟩
    · simpa [Starts, update_of_ne hne] using h
  | write c buf =>
    simp only [Volume.step] at hs
    split at hs <;> cases hs
    obtain rfl | hne := eq_or_ne new c
    · exact ⟨h.1, by simpa using prefix_of_forall₂ hes h.2 ‹_›⟩
    · simpa [Starts, update_of_ne hne] using h

theorem free_dotEntries : ∀ e ∈ dotEntries now new parent, e.free = false := by
  cases now <;> simp only [dotEntries, mem_cons, not_mem_nil, or_false, forall_eq_or_imp, forall_eq]
    <;> exact ⟨rfl, rfl⟩

/-- A new directory starts with the two entries. -/
theorem starts_mkdir {slots : List DirEntrySlot} {acts : List Act} {name : Str}
    (h : mkdir label longName now slots acts v parent new name = .ok v') :
    Starts (dotEntries now new parent) new v' := by
  simp only [mkdir, Volume.step] at h
  split_ifs at h
  dsimp only at h
  generalize hrun : run Volume.step _ acts = o at h
  cases o with
  | none => cases h
  | some t =>
    cases h
    refine run_invariant (Starts _ new) (fun _ _ _ hi _ => hi.step _ (free_dotEntries parent)) acts
      ?_ (RunMeets.of_forall (fun _ _ => trivial) _ _) hrun
    simp [Starts, EOC_MARKER]

/-- **No new directory starts as the format asks for.** -/
theorem mkdir_misnames {slots : List DirEntrySlot} {acts : List Act} {name : Str}
    (h : mkdir label longName now slots acts v parent new name = .ok v') :
    ¬ Initial label longName v' parent new := by
  intro hi
  obtain ⟨t, ht⟩ := (starts_mkdir v parent h).2
  have hn := hi.names
  rw [← ht] at hn
  cases now <;> cases hn

/-- An empty root directory. -/
def blank : Volume where
  perClus := 16
  totalClus := 8
  rootClus := 2
  fat c := if c = 2 then EOC_MARKER else 0
  data _ := replicate 16 fun _ => 0

/-- `mkdir` of `A` in it. -/
def mkdirA : Except VfsError Volume :=
  mkdir (fun _ => []) (fun _ => []) none []
    [.write 2 (dirEntry none (makeSfnBytes ['A'] []) 3 :: replicate 15 fun _ => 0)] blank 2 3 ['A']

theorem mkdirA_misnames :
    ∃ v, mkdirA = .ok v ∧ ¬ Initial (fun _ => []) (fun _ => []) v 2 3 := by
  obtain ⟨v, h⟩ : ∃ v, mkdirA = .ok v := ⟨_, rfl⟩
  exact ⟨v, h, mkdir_misnames blank 2 h⟩

theorem mkdirA_lookup : ∃ v, mkdirA = .ok v ∧
    ¬ Initial (fun _ => []) (fun _ => []) v 2 3 ∧
    v.lookup (fun _ => []) (fun _ => []) 3 ['.'] = .ok 2 ∧
    v.lookup (fun _ => []) (fun _ => []) 3 ['.', '.'] = .error .notFound := by
  refine ⟨_, rfl, fun h => ?_, rfl, rfl⟩
  cases h.names

end Volume

end Bedrock.Fat32
