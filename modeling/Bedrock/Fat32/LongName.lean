import Bedrock.Caps.Cap

/-!
# Fat32/LongName — long names in directory entries

A name is cut into pieces of thirteen UTF-16 units, one to a slot of 32 bytes, and each slot has a
number.  The format puts the piece with the largest number first, marked as the last, and lets a
zero and fillers follow the name.  The code counts and marks from the other end, and writes no zero:

    format   [n | 0x40: piece n, 0, ffff ⋯]  ⋯  [2: piece 2]  [1: piece 1]          [short]
    code     [1: piece n, ffff ⋯]            ⋯  [n − 1: piece 2]  [n | 0x40: piece 1]  [short]

The two agree only where there is one slot and no room for a zero (`prescribed_iff`).
-/

namespace Bedrock.Fat32

open List

/-- A directory entry. -/
abbrev Entry := Fin 32 → UInt8

def ATTR_LONG_NAME : UInt8 := 0x0F

/-- The byte at an offset. -/
def Entry.byte (e : Entry) (i : ℕ) : UInt8 := if h : i < 32 then e ⟨i, h⟩ else 0

def Entry.setByte (e : Entry) (i : ℕ) (x : UInt8) : Entry := fun j => if j.val = i then x else e j

/-- `str::encode_utf16`. -/
def encodeUtf16 (s : Str) : List UInt16 :=
  s.flatMap fun c =>
    if c.toNat < 0x10000 then [.ofNat c.toNat]
    else [.ofNat (0xD800 + (c.toNat - 0x10000) / 0x400),
      .ofNat (0xDC00 + (c.toNat - 0x10000) % 0x400)]

def vfatChecksum (sfn : List UInt8) : UInt8 :=
  sfn.foldl (fun sum x => ((sum >>> 1) ||| (sum <<< 7)) + x) 0

/-- Where the unit `index` of a slot is. -/
def vfatOffset (index : ℕ) : ℕ :=
  if index ≤ 4 then 1 + index * 2
  else if index ≤ 10 then 14 + (index - 5) * 2
  else 28 + (index - 11) * 2

def getVfatChar (e : Entry) (index : ℕ) : UInt16 :=
  .ofNat ((e.byte (vfatOffset index)).toNat + 256 * (e.byte (vfatOffset index + 1)).toNat)

def setVfatChar (e : Entry) (index : ℕ) (c : UInt16) : Entry :=
  (e.setByte (vfatOffset index) c.toUInt8).setByte (vfatOffset index + 1) (c >>> 8).toUInt8

/-- One slot: the piece, and fillers in the places that are left. -/
def vfatEntry (ord checksum : UInt8) (piece : List UInt16) : Entry :=
  let e := ((Entry.setByte (fun _ => 0) 0 ord).setByte 11 ATTR_LONG_NAME).setByte 13 checksum
  (range 13).foldl (fun e j => setVfatChar e j (piece.getD j 0xFFFF)) e

def encodeVfatEntries (name : Str) (checksum : UInt8) : List Entry :=
  let units := encodeUtf16 name
  let needed := (units.length + 12) / 13
  ((range needed).map fun i =>
    let ord := UInt8.ofNat (needed - i)
    vfatEntry (if i = 0 then ord ||| 0x40 else ord) checksum
      ((units.drop (i * 13)).take 13)).reverse

/-! ## What the format asks for -/

/-- The unit at a place of the slots: a zero ends the name. -/
def unitAt (units : List UInt16) (i : ℕ) : UInt16 :=
  if i = units.length then 0 else units.getD i 0xFFFF

/-- The units read back, slot by slot in the order of the numbers, up to the zero. -/
def byOrdinal (slots : List Entry) : List UInt16 :=
  ((range slots.length).flatMap fun k =>
    (slots.find? (·.byte 0 &&& 0x3F = .ofNat (k + 1))).elim [] fun e =>
      (range 13).map (getVfatChar e)).takeWhile (· ≠ 0)

/-- The slots of a name, in the order on the disk, are those that the format asks for. -/
structure Prescribed (units : List UInt16) (checksum : UInt8) (slots : List Entry) : Prop where
  count : slots.length = (units.length + 12) / 13
  slot : ∀ k < slots.length, ∃ e ∈ slots[slots.length - 1 - k]?,
    e.byte 0 = (if k + 1 = slots.length then UInt8.ofNat (k + 1) ||| 0x40 else .ofNat (k + 1)) ∧
    e.byte 13 = checksum ∧ ∀ j < 13, getVfatChar e j = unitAt units (13 * k + j)
  decode : byOrdinal slots = units

/-! ## What the code does -/

variable (ord checksum : UInt8) (piece : List UInt16)

theorem ofNat_bytes (c : UInt16) :
    UInt16.ofNat (c.toUInt8.toNat + 256 * (c >>> 8).toUInt8.toNat) = c := by
  apply UInt16.toNat_inj.mp
  have := c.toNat_lt
  simp
  omega

theorem byte_zero_vfatEntry : (vfatEntry ord checksum piece).byte 0 = ord := rfl

theorem getVfatChar_vfatEntry {j : ℕ} (hj : j < 13) :
    getVfatChar (vfatEntry ord checksum piece) j = piece.getD j 0xFFFF := by
  rw [← ofNat_bytes (piece.getD j 0xFFFF)]
  interval_cases j <;> rfl

theorem getElem?_encodeVfatEntries {name : Str} {n k : ℕ} (hk : k < n)
    (hn : (encodeVfatEntries name checksum).length = n) :
    (encodeVfatEntries name checksum)[n - 1 - k]? = some (vfatEntry
      (if k = 0 then UInt8.ofNat (n - k) ||| 0x40 else UInt8.ofNat (n - k)) checksum
      (((encodeUtf16 name).drop (k * 13)).take 13)) := by
  obtain rfl : ((encodeUtf16 name).length + 12) / 13 = n := by simpa [encodeVfatEntries] using hn
  rw [encodeVfatEntries, getElem?_reverse (by simp; omega), getElem?_map, length_map, length_range,
    getElem?_range (by omega), show ∀ n, k < n → n - 1 - (n - 1 - k) = k by omega]
  · rfl
  · exact hk

/-- The only slot of a name that just fills it. -/
theorem encodeVfatEntries_of_length {name : Str} (h : (encodeUtf16 name).length = 13) :
    encodeVfatEntries name checksum = [vfatEntry 0x41 checksum (encodeUtf16 name)] := by
  simp [encodeVfatEntries, h, take_of_length_le]
  rfl

theorem byOrdinal_of_length (h : piece.length = 13) :
    byOrdinal [vfatEntry 0x41 checksum piece] = piece.takeWhile (· ≠ 0) := by
  have hmap : (range 13).map (getVfatChar (vfatEntry 0x41 checksum piece)) = piece := by
    refine ext_getElem (by simp [h]) fun i hi hi' => ?_
    rw [getElem_map, getVfatChar_vfatEntry _ _ _ (by simpa using hi)]
    simp [hi']
  simp [byOrdinal, byte_zero_vfatEntry, hmap, show (0x41 &&& 0x3F : UInt8) = 1 by decide]

/-- **A name is stored as the format asks for exactly if its units just fill one slot** and none of
them is the zero that ends a name. -/
theorem prescribed_iff (name : Str) (sfn : List UInt8) (h : encodeUtf16 name ≠ []) :
    Prescribed (encodeUtf16 name) (vfatChecksum sfn) (encodeVfatEntries name (vfatChecksum sfn)) ↔
      (encodeUtf16 name).length = 13 ∧ 0 ∉ encodeUtf16 name := by
  have hpos := length_pos_iff.mpr h
  constructor
  · intro hp
    have hcount := hp.count
    -- The slot that is first on the disk tells the number of slots.
    have hone : (encodeUtf16 name).length ≤ 13 := by
      by_contra hlong
      obtain ⟨e, he, hord, -⟩ := hp.slot _ (Nat.sub_one_lt (by omega))
      rw [getElem?_encodeVfatEntries _ (by omega) rfl, if_neg (by omega)] at he
      cases he
      rw [byte_zero_vfatEntry, if_pos (by omega), Nat.sub_sub_self (by omega)] at hord
      simpa using congrArg (·.toBitVec.getLsbD 6) hord
    have hlen : (encodeUtf16 name).length = 13 := by
      by_contra hshort
      obtain ⟨e, he, -, -, hunits⟩ := hp.slot 0 (by omega)
      rw [getElem?_encodeVfatEntries _ (by omega) rfl] at he
      cases he
      have hunit := hunits (encodeUtf16 name).length (by omega)
      rw [getVfatChar_vfatEntry _ _ _ (by omega), unitAt, if_pos (by omega)] at hunit
      simp at hunit
    have hdec := hp.decode
    rw [encodeVfatEntries_of_length _ hlen, byOrdinal_of_length _ _ hlen] at hdec
    exact ⟨hlen, fun hz => by simpa using takeWhile_eq_self_iff.mp hdec 0 hz⟩
  · rintro ⟨hlen, hz⟩
    rw [encodeVfatEntries_of_length _ hlen]
    refine ⟨by simp [hlen], fun k hk => ?_, ?_⟩
    · obtain rfl : k = 0 := by simpa using hk
      refine ⟨_, rfl, rfl, rfl, fun j hj => ?_⟩
      rw [getVfatChar_vfatEntry _ _ _ hj, unitAt, if_neg (by omega), Nat.zero_add]
    · rw [byOrdinal_of_length _ _ hlen]
      exact takeWhile_eq_self_iff.mpr fun u hu => by simpa using ne_of_mem_of_not_mem hu hz

theorem letters_prescribed : Prescribed (encodeUtf16 "abcdefghijklm".toList)
    (vfatChecksum (replicate 11 0x41))
    (encodeVfatEntries "abcdefghijklm".toList (vfatChecksum (replicate 11 0x41))) :=
  (prescribed_iff _ _ (by decide)).mpr ⟨by decide, by decide⟩

/-- With one letter more the first of two slots says that it is the first piece. -/
theorem letters_not_prescribed : ¬ Prescribed (encodeUtf16 "abcdefghijklmn".toList)
    (vfatChecksum (replicate 11 0x41))
    (encodeVfatEntries "abcdefghijklmn".toList (vfatChecksum (replicate 11 0x41))) := by
  intro hp
  obtain ⟨e, he, hord, -⟩ := hp.slot 1 (by decide)
  obtain rfl := Option.some.inj he
  exact absurd hord (by decide)

end Bedrock.Fat32
