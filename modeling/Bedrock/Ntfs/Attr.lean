import Bedrock.Ntfs.Runs

/-!
# Ntfs/Attr — the attributes of a record

A record is a header and a row of attributes, each with its length.  A resident attribute has its
value in the record; the value of another is found by mapping pairs, and they are in the record.

    | header | type len … value | type len … pairs | … | end |

All places are taken from the record itself and are checked against the end of the attribute, and
this against the end of the record, before anything is read (`ensures_attrAt`).
-/

namespace Bedrock.Ntfs

open Outcome Wire List

def ATTR_ATTRIBUTE_LIST : ℕ := 0x20
def ATTR_FILE_NAME : ℕ := 0x30
def ATTR_DATA : ℕ := 0x80
def ATTR_INDEX_ROOT : ℕ := 0x90
def ATTR_INDEX_ALLOCATION : ℕ := 0xA0
def ATTR_BITMAP : ℕ := 0xB0
def ATTR_END : ℕ := 0xFFFFFFFF
def FLAG_COMPRESSED : ℕ := 0x0001
def FLAG_ENCRYPTED : ℕ := 0x4000
def FILE_NAME_INDEX_PRESENT : ℕ := 0x10000000
def MFT_REF_MASK : ℕ := 0x0000FFFFFFFFFFFF
def MAX_ATTRS : ℕ := 256

/-- The pairs of bytes, as words. -/
def wordsOf : List UInt8 → List ℕ
  | a :: b :: rest => (a.toNat + 256 * b.toNat) :: wordsOf rest
  | _ => []

/-- The text of UTF-16 units, with U+FFFD for each half of a pair that stands alone. -/
def fromUtf16Lossy : List ℕ → Str
  | [] => []
  | u :: us =>
    if u < 0xD800 ∨ 0xE000 ≤ u then Char.ofNat u :: fromUtf16Lossy us
    else if 0xDC00 ≤ u then '�' :: fromUtf16Lossy us
    else
      match us with
      | [] => ['�']
      | w :: ws =>
        if 0xDC00 ≤ w ∧ w < 0xE000 then
          Char.ofNat (0x10000 + (u - 0xD800) * 0x400 + (w - 0xDC00)) :: fromUtf16Lossy ws
        else '�' :: fromUtf16Lossy (w :: ws)

/-- `decode_utf16le`. -/
def decodeUtf16le (units : List UInt8) : Str := fromUtf16Lossy (wordsOf units)

/-- An attribute.  `mapOff` and `mapEnd` are the places of its mapping pairs in the record. -/
structure Attr where
  attrType : ℕ
  name : Option Str
  flags : ℕ
  resident : Bool
  value : List UInt8
  lowestVcn : ℕ
  highestVcn : ℕ
  mapOff : ℕ
  mapEnd : ℕ
  realSize : ℕ
  initSize : ℕ
  deriving DecidableEq

/-- The name of an attribute or of an entry of the attribute list: so many units, from a place on
counted from the start. -/
def nameAt (d : List UInt8) (pos len nameOff nameLen : ℕ) : Outcome VfsError (Option Str) :=
  if nameLen = 0 then pure none
  else do
    failIf (len < nameOff + nameLen * 2) .ioError
    let units ← slice d (pos + nameOff) (pos + nameOff + nameLen * 2)
    pure (some (decodeUtf16le units))

/-- The attribute of type `t` and length `len` at `pos`. -/
def attrAt (record : List UInt8) (pos t len : ℕ) : Outcome VfsError Attr := do
  let nonresident ← Outcome.index record (pos + 0x08)
  let nameLen ← Outcome.index record (pos + 0x09)
  let nameOff ← u16At record (pos + 0x0A)
  let flags ← u16At record (pos + 0x0C)
  let name ← nameAt record pos len nameOff nameLen.toNat
  if nonresident ≠ 0 then do
    failIf (len < 0x40) .ioError
    let lowestVcn ← u64At record (pos + 0x10)
    let highestVcn ← u64At record (pos + 0x18)
    let mapOff ← u16At record (pos + 0x20)
    let realSize ← u64At record (pos + 0x30)
    let initSize ← u64At record (pos + 0x38)
    failIf (mapOff < 0x40 ∨ len ≤ mapOff) .ioError
    pure { attrType := t, name, flags, resident := false, value := [], lowestVcn, highestVcn,
           mapOff := pos + mapOff, mapEnd := pos + len, realSize, initSize }
  else do
    let vlen ← u32At record (pos + 0x10)
    let voff ← u16At record (pos + 0x14)
    failIf (len < voff + vlen) .ioError
    let value ← slice record (pos + voff) (pos + voff + vlen)
    pure { attrType := t, name, flags, resident := true, value, lowestVcn := 0, highestVcn := 0,
           mapOff := 0, mapEnd := 0, realSize := vlen, initSize := vlen }

/-- The loop of `iter_attrs` from `pos` on, with so many attributes behind it.  An attribute takes
24 bytes at least, so the loop has ended before the fuel has. -/
def attrsFrom (record : List UInt8) (stop : ℕ) : ℕ → ℕ → ℕ → Outcome VfsError (List Attr)
  | 0, _, _ => panic
  | fuel + 1, pos, count => do
    let behind ← word (pos + 8)
    if stop < behind then pure []
    else do
      failIf (MAX_ATTRS ≤ count) .ioError
      let t ← u32At record pos
      if t = ATTR_END then pure []
      else do
        let len ← u32At record (pos + 4)
        let next ← word (pos + len)
        failIf (len < 0x18 ∨ stop < next) .ioError
        let attr ← attrAt record pos t len
        let rest ← attrsFrom record stop fuel next (count + 1)
        pure (attr :: rest)

/-- `iter_attrs`. -/
def iterAttrs (record : List UInt8) : Outcome VfsError (List Attr) := do
  failIf (record.length < 0x2C) .ioError
  let first ← u16At record 0x14
  let alloc ← u32At record 0x1C
  let stop := min alloc record.length
  failIf (first < 0x18 ∨ stop ≤ first) .ioError
  attrsFrom record stop (record.length + 1) first 0

/-- `FileName`. -/
structure FileName where
  parentRef : ℕ
  mtime : ℕ
  size : ℕ
  flags : ℕ
  nameSpace : UInt8
  name : Str
  deriving DecidableEq

/-- `filetime_to_epoch`. -/
def filetimeToEpoch (ft : ℕ) : ℕ := ft / 10000000 - 11644473600

/-- `parse_file_name`. -/
def parseFileName (value : List UInt8) : Outcome VfsError FileName := do
  failIf (value.length < 0x42) .ioError
  let parentRef ← u64At value 0x00
  let mtimeFt ← u64At value 0x10
  let size ← u64At value 0x30
  let flags ← u32At value 0x38
  let nameLen ← Outcome.index value 0x40
  let space ← Outcome.index value 0x41
  failIf (value.length < 0x42 + nameLen.toNat * 2) .ioError
  let units ← slice value 0x42 (0x42 + nameLen.toNat * 2)
  pure ⟨parentRef, filetimeToEpoch mtimeFt, size, flags, space, decodeUtf16le units⟩

/-- `AttrListEntry`. -/
structure AttrListEntry where
  attrType : ℕ
  name : Option Str
  lowestVcn : ℕ
  mftRef : ℕ
  deriving DecidableEq

/-- The loop of `parse_attr_list` from `pos` on, with so many entries behind it. -/
def attrListFrom (value : List UInt8) : ℕ → ℕ → ℕ → Outcome VfsError (List AttrListEntry)
  | 0, _, _ => panic
  | fuel + 1, pos, count => do
    let behind ← word (pos + 0x18)
    if value.length < behind then pure []
    else do
      failIf (MAX_ATTRS ≤ count) .ioError
      let t ← u32At value pos
      if t = ATTR_END then pure []
      else do
        let len ← u16At value (pos + 4)
        let next ← word (pos + len)
        failIf (len < 0x1A ∨ value.length < next) .ioError
        let nameLen ← Outcome.index value (pos + 6)
        let nameOff ← Outcome.index value (pos + 7)
        let lowestVcn ← u64At value (pos + 8)
        let mftRef ← u64At value (pos + 0x10)
        let name ← nameAt value pos len nameOff.toNat nameLen.toNat
        let rest ← attrListFrom value fuel next (count + 1)
        pure (⟨t, name, lowestVcn, mftRef⟩ :: rest)

/-- `parse_attr_list`. -/
def parseAttrList (value : List UInt8) : Outcome VfsError (List AttrListEntry) :=
  attrListFrom value (value.length + 1) 0 0

/-- The mapping pairs of an attribute of the record, decoded. -/
def Attr.runs (a : Attr) (record : List UInt8) : Outcome VfsError RunList := do
  failIf (a.mapEnd < a.mapOff ∨ record.length < a.mapEnd) .ioError
  decodeMappingPairs ((record.take a.mapEnd).drop a.mapOff) a.lowestVcn

/-- `read_attr_value`.  What the runs do not give stays zero. -/
def readAttrValue (dev : SectorDevice) (boot : BootSector) (record : List UInt8) (attr : Attr)
    (cap : ℕ) : Outcome VfsError (List UInt8) :=
  if attr.resident then pure attr.value
  else do
    let runs ← attr.runs record
    let want := min attr.realSize cap
    let bytes ← readFileAt dev boot runs 0 want
    pure (bytes ++ List.replicate (want - bytes.length) 0)

/-! ## No panic -/

variable {record value : List UInt8} {pos len stop : ℕ}

theorem ensures_nameAt {d : List UInt8} (h : pos + len ≤ d.length) (nameOff nameLen : ℕ) :
    Ensures (nameAt d pos len nameOff nameLen) fun _ => True := by
  refine .ite (fun _ => .pure trivial) fun _ => ?_
  refine Ensures.guard fun hlen => ?_
  exact (Ensures.slice (by omega) (by omega)).bind fun _ _ => Ensures.pure trivial

/-- The value of an attribute is part of the record, and its size is one word. -/
structure Attr.Ok (a : Attr) (record : List UInt8) : Prop where
  value_le : a.value.length ≤ record.length
  size_lt : a.realSize < 2 ^ 64

/-- An attribute inside the record is read without leaving it. -/
theorem ensures_attrAt (hr : record.length < 2 ^ 32) (h : pos + len ≤ record.length)
    (hlen : 0x18 ≤ len) (t : ℕ) : Ensures (attrAt record pos t len) fun a => a.Ok record := by
  refine (Ensures.index (by omega)).bind fun _ _ => ?_
  refine (Ensures.index (by omega)).bind fun _ _ => ?_
  refine (ensures_fieldAt (by omega)).bind fun _ _ => ?_
  refine (ensures_fieldAt (by omega)).bind fun _ _ => ?_
  refine (ensures_nameAt h _ _).bind fun _ _ => ?_
  refine .ite (fun _ => ?_) fun _ => ?_
  · refine .guard fun _ => ?_
    refine (ensures_fieldAt (by omega)).bind fun _ _ => ?_
    refine (ensures_fieldAt (by omega)).bind fun _ _ => ?_
    refine (ensures_fieldAt (by omega)).bind fun _ _ => ?_
    refine (ensures_fieldAt (by omega)).bind fun realSize hsize => ?_
    refine (ensures_fieldAt (by omega)).bind fun _ _ => ?_
    refine .guard fun _ => .pure ⟨Nat.zero_le _, ?_⟩
    exact hsize.2 ▸ natAt_lt 8 record _
  · refine (ensures_fieldAt (by omega)).bind fun vlen hvlen => ?_
    refine (ensures_fieldAt (by omega)).bind fun _ _ => ?_
    refine Ensures.guard fun hv => ?_
    refine (Ensures.slice (by omega) (by omega)).bind fun value hval => Ensures.pure ⟨?_, ?_⟩
    · change value.length ≤ _
      omega
    · exact lt_trans (hvlen.2 ▸ natAt_lt 4 record _) (by decide)

theorem ensures_attrsFrom (hr : record.length < 2 ^ 32) (hstop : stop ≤ record.length) :
    ∀ {fuel pos count : ℕ}, stop < fuel + pos → pos ≤ stop →
      Ensures (attrsFrom record stop fuel pos count) fun as => ∀ a ∈ as, a.Ok record
  | 0, _, _, hf, hp => by omega
  | fuel + 1, pos, count, hf, hp => by
    have hnil : ∀ a ∈ ([] : List Attr), a.Ok record :=
      fun _ h => absurd h not_mem_nil
    refine (Ensures.word (by omega)).bind ?_
    rintro _ rfl
    refine Ensures.ite (fun _ => Ensures.pure hnil) fun _ => ?_
    refine .guard fun _ => ?_
    refine (ensures_fieldAt (by omega)).bind fun t _ => ?_
    refine .ite (fun _ => .pure hnil) fun _ => ?_
    refine (ensures_fieldAt (by omega)).bind fun len hlen => ?_
    have hlt : len < 256 ^ 4 := hlen.2 ▸ natAt_lt 4 record _
    refine (Ensures.word (by omega)).bind ?_
    rintro _ rfl
    refine Ensures.guard fun hnext => ?_
    refine (ensures_attrAt hr (by omega) (by omega) t).bind fun a ha => ?_
    refine (ensures_attrsFrom hr hstop (by omega) (by omega)).bind fun as has => .pure ?_
    exact forall_mem_cons.mpr ⟨ha, has⟩

/-- **The attributes of any bytes are listed without a panic.** -/
theorem ensures_iterAttrs (hr : record.length < 2 ^ 32) :
    Ensures (iterAttrs record) fun as => ∀ a ∈ as, a.Ok record := by
  refine .guard fun _ => ?_
  refine (ensures_fieldAt (by decide)).bind fun first _ => ?_
  refine (ensures_fieldAt (by decide)).bind fun alloc _ => ?_
  refine .guard fun hfirst => ?_
  exact ensures_attrsFrom hr (min_le_right _ _) (by omega) (by omega)

theorem ensures_parseFileName (value : List UInt8) :
    Ensures (parseFileName value) fun _ => True := by
  rw [parseFileName]
  refine .guard fun _ => ?_
  refine (ensures_fieldAt (by decide)).bind fun _ _ => ?_
  refine (ensures_fieldAt (by decide)).bind fun _ _ => ?_
  refine (ensures_fieldAt (by decide)).bind fun _ _ => ?_
  refine (ensures_fieldAt (by decide)).bind fun _ _ => ?_
  refine (Ensures.index (by omega)).bind fun _ _ => ?_
  refine (Ensures.index (by omega)).bind fun _ _ => ?_
  refine Ensures.guard fun _ => ?_
  exact (Ensures.slice (by omega) (by omega)).bind fun _ _ => Ensures.pure trivial

theorem ensures_attrListFrom (hv : value.length < 2 ^ 32) :
    ∀ {fuel pos count : ℕ}, value.length < fuel + pos → pos ≤ value.length →
      Ensures (attrListFrom value fuel pos count) fun _ => True
  | 0, _, _, hf, hp => by omega
  | fuel + 1, pos, count, hf, hp => by
    refine (Ensures.word (by omega)).bind ?_
    rintro _ rfl
    refine Ensures.ite (fun _ => Ensures.pure trivial) fun _ => ?_
    refine .guard fun _ => ?_
    refine (ensures_fieldAt (by omega)).bind fun t _ => ?_
    refine .ite (fun _ => .pure trivial) fun _ => ?_
    refine (ensures_fieldAt (by omega)).bind fun len hlen => ?_
    have hlt : len < 256 ^ 2 := hlen.2 ▸ natAt_lt 2 value _
    refine (Ensures.word (by omega)).bind ?_
    rintro _ rfl
    refine Ensures.guard fun hnext => ?_
    refine (Ensures.index (by omega)).bind fun _ _ => ?_
    refine (Ensures.index (by omega)).bind fun _ _ => ?_
    refine (ensures_fieldAt (by omega)).bind fun _ _ => ?_
    refine (ensures_fieldAt (by omega)).bind fun _ _ => ?_
    refine (ensures_nameAt (by omega) _ _).bind fun _ _ => ?_
    exact (ensures_attrListFrom hv (by omega) (by omega)).bind fun _ _ => .pure trivial

theorem ensures_parseAttrList (hv : value.length < 2 ^ 32) :
    Ensures (parseAttrList value) fun _ => True :=
  ensures_attrListFrom hv (by omega) (Nat.zero_le _)

theorem ensures_runs (hr : record.length < 2 ^ 32) (a : Attr) :
    Ensures (a.runs record) fun _ => True := by
  refine .guard fun _ => ensures_decodeMappingPairs ?_ _
  rw [length_drop, length_take]
  omega

theorem BootSector.Ok.ensures_readAttrValue {boot : BootSector} (h : boot.Ok) (dev : SectorDevice)
    (hr : record.length < 2 ^ 32) (a : Attr) (cap : ℕ) :
    Ensures (readAttrValue dev boot record a cap) fun bs => bs.length ≤ max a.value.length cap := by
  refine .ite (fun _ => .pure (le_max_left _ _)) fun _ => ?_
  refine (ensures_runs hr a).bind fun runs _ => ?_
  refine (h.ensures_readFileAt 0 _).bind fun bytes hb => .pure ?_
  rw [length_append, length_replicate]
  omega

end Bedrock.Ntfs
