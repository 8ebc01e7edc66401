import Bedrock.Caps.Cap
import Bedrock.Lib.Wire

/-!
# Unispace/Schema — schemas and their wire form

Objects of the namespace describe the shape of their values by a schema, which travels as bytes: a
tag, and after it whatever the tag asks for.

    struct  0F | count | (len, name, schema)…
    list    10 | schema
    enum    11 | count | (value, len, name)…

Decoding undoes encoding, and whatever decodes is the encoding of what it decodes to, so every
schema has exactly one wire form.
-/

namespace Bedrock.Unispace

open Wire Nat

/-! ## The cursor -/

/-- A `Cursor`, as the bytes from its position on; its functions fail with an error of the
namespace. -/
abbrev CursorM := Reader UnispaceError

/-- `Cursor::read`. -/
def read (n : ℕ) : CursorM (List UInt8) := fun d =>
  if d.length < n then .error .decodeError else .ok (d.take n, d.drop n)

/-- `Cursor::read_u8`. -/
def readU8 : CursorM UInt8 := do
  let b ← read 1
  pure (b.headD 0)

/-- `Cursor::read_u32`. -/
def readU32 : CursorM UInt32 := do
  let b ← read 4
  pure (UInt32.ofNat (leNat b))

/-- `Cursor::read_u64`. -/
def readU64 : CursorM UInt64 := do
  let b ← read 8
  pure (UInt64.ofNat (leNat b))

/-- `Cursor::read_string`. -/
def readString : CursorM String := do
  let len ← readU32
  let b ← read len.toNat
  match String.fromUTF8? ⟨b.toArray⟩ with
  | some s => pure s
  | none => throw .decodeError

/-- `u32::to_le_bytes`. -/
def u32Bytes (n : UInt32) : List UInt8 := leBytes 4 n.toNat

/-- `u64::to_le_bytes`. -/
def u64Bytes (n : UInt64) : List UInt8 := leBytes 8 n.toNat

/-- `(n as u32).to_le_bytes()` for a length. -/
def lenBytes (n : ℕ) : List UInt8 := u32Bytes (UInt32.ofNat n)

/-- `str::as_bytes`. -/
def strBytes (s : String) : List UInt8 := s.toByteArray.data.toList

/-- `write_len_string`. -/
def writeLenString (s : String) : List UInt8 := lenBytes (strBytes s).length ++ strBytes s

/-! ## Schemas -/

/-- `Schema` and `OwnedSchema`: the shape of a value.  The two types of the source differ in who
owns the parts, and in nothing else. -/
inductive Schema
  | unit | bool | u8 | u16 | u32 | u64 | i8 | i16 | i32 | i64 | f32 | f64 | str | bytes | blob
  | struct (fields : List (String × Schema))
  | list (elem : Schema)
  | enum (vars : List (String × UInt32))

abbrev OwnedSchema := Schema

/-- `Schema::tag`. -/
def Schema.tag : Schema → UInt8
  | .unit => 0x00
  | .bool => 0x01
  | .u8 => 0x02
  | .u16 => 0x03
  | .u32 => 0x04
  | .u64 => 0x05
  | .i8 => 0x06
  | .i16 => 0x07
  | .i32 => 0x08
  | .i64 => 0x09
  | .f32 => 0x0A
  | .f64 => 0x0B
  | .str => 0x0C
  | .bytes => 0x0D
  | .blob => 0x0E
  | .struct _ => 0x0F
  | .list _ => 0x10
  | .enum _ => 0x11

/-- One variant of an enumeration on the wire. -/
def encodeVariant (v : String × UInt32) : List UInt8 := u32Bytes v.2 ++ writeLenString v.1

mutual

/-- `encode_schema`: the bytes that it appends. -/
def encodeSchema : Schema → List UInt8
  | .struct fields => 0x0F :: (lenBytes fields.length ++ encodeFields fields)
  | .list elem => 0x10 :: encodeSchema elem
  | .enum vars => 0x11 :: (lenBytes vars.length ++ vars.flatMap encodeVariant)
  | s => [s.tag]

/-- …and its loop over the fields of a struct. -/
def encodeFields : List (String × Schema) → List UInt8
  | [] => []
  | (name, ty) :: fields => writeLenString name ++ encodeSchema ty ++ encodeFields fields

end

/-- `encode_schema_owned`. -/
def encodeSchemaOwned (s : OwnedSchema) : List UInt8 := encodeSchema s

/-- One round of the loop of `decode_schema_at` over the fields… -/
def readField (inner : CursorM OwnedSchema) : CursorM (String × Schema) := do
  let name ← readString
  let ty ← inner
  pure (name, ty)

/-- …and over the variants. -/
def readVariant : CursorM (String × UInt32) := do
  let val ← readU32
  let name ← readString
  pure (name, val)

/-- `decode_schema_at` after the tag, with `inner` for the calls it makes itself. -/
def decodeTagged (inner : CursorM OwnedSchema) (tag : UInt8) : CursorM OwnedSchema :=
  match tag with
  | 0x00 => pure .unit
  | 0x01 => pure .bool
  | 0x02 => pure .u8
  | 0x03 => pure .u16
  | 0x04 => pure .u32
  | 0x05 => pure .u64
  | 0x06 => pure .i8
  | 0x07 => pure .i16
  | 0x08 => pure .i32
  | 0x09 => pure .i64
  | 0x0A => pure .f32
  | 0x0B => pure .f64
  | 0x0C => pure .str
  | 0x0D => pure .bytes
  | 0x0E => pure .blob
  | 0x0F => do
    let n ← readU32
    let fields ← times (readField inner) n.toNat
    pure (.struct fields)
  | 0x10 => do
    let elem ← inner
    pure (.list elem)
  | 0x11 => do
    let n ← readU32
    let vars ← times readVariant n.toNat
    pure (.enum vars)
  | _ => throw .decodeError

/-- `decode_schema_at`.  `fuel` bounds the nesting; every level takes a byte for its tag, so that
more fuel than bytes is never used up (`decodeSchemaAt_fuel`). -/
def decodeSchemaAt : ℕ → CursorM OwnedSchema
  | 0 => throw .decodeError
  | fuel + 1 => do
    let tag ← readU8
    decodeTagged (decodeSchemaAt fuel) tag

/-- `decode_schema_bytes`. -/
def decodeSchemaBytes (data : List UInt8) : Except UnispaceError OwnedSchema := do
  let (s, rest) ← (decodeSchemaAt (data.length + 1)).run data
  if rest ≠ [] then throw .decodeError else pure s

/-! ## Reading the parts -/

variable {d rest : List UInt8}

theorem read_eq_ok {n : ℕ} {b : List UInt8} :
    (read n).run d = .ok (b, rest) ↔ b.length = n ∧ d = b ++ rest := by
  change (if d.length < n then Except.error UnispaceError.decodeError
    else .ok (d.take n, d.drop n)) = _ ↔ _
  split_ifs with h
  · simp only [false_iff]
    rintro ⟨rfl, rfl⟩
    simp at h
  · rw [Except.ok.injEq, Prod.mk.injEq]
    constructor
    · rintro ⟨rfl, rfl⟩
      exact ⟨List.length_take_of_le (not_lt.mp h), (List.take_append_drop n d).symm⟩
    · rintro ⟨rfl, rfl⟩
      exact ⟨List.take_left, List.drop_left⟩

theorem reads_read (bs : List UInt8) : Reads (read bs.length) bs bs :=
  fun _ => read_eq_ok.mpr ⟨rfl, rfl⟩

theorem reads_readU8 (b : UInt8) : Reads readU8 [b] b := (reads_read [b]).map (·.headD 0)

theorem exact_readU8 : Exact readU8 (fun _ => True) fun b => [b] := by
  intro d b rest hrun
  obtain ⟨bs, d', h, hrun⟩ := run_bind_eq_ok.mp hrun
  obtain ⟨hlen, rfl⟩ := read_eq_ok.mp h
  obtain ⟨x, rfl⟩ := List.length_eq_one_iff.mp hlen
  obtain ⟨rfl, rfl⟩ := run_pure_eq_ok.mp hrun
  exact ⟨trivial, rfl⟩

/-- A number of `k` bytes: what was written is read. -/
theorem reads_le {α : Type} {k n : ℕ} {of : ℕ → α} {a : α} (h : of (n % 256 ^ k) = a) :
    Reads (read k >>= fun b => pure (of (leNat b)) : CursorM α) (leBytes k n) a := by
  have := (reads_read (leBytes k n)).map fun b => of (leNat b)
  rwa [length_leBytes, leNat_leBytes, h] at this

/-- …and it is read from nothing else. -/
theorem exact_le {α : Type} {k : ℕ} {of : ℕ → α} {out : α → ℕ} (h : ∀ n < 256 ^ k, out (of n) = n) :
    Exact (read k >>= fun b => pure (of (leNat b)) : CursorM α) (fun _ => True)
      fun a => leBytes k (out a) := by
  intro d a rest hrun
  obtain ⟨b, hread, rfl⟩ := run_map_eq_ok.mp hrun
  obtain ⟨rfl, rfl⟩ := read_eq_ok.mp hread
  refine ⟨trivial, ?_⟩
  show _ = leBytes b.length (out (of (leNat b))) ++ rest
  rw [h _ (leNat_lt b), leBytes_leNat]

theorem reads_readU32 (n : UInt32) : Reads readU32 (u32Bytes n) n := by
  refine reads_le ?_
  rw [mod_eq_of_lt (show n.toNat < 256 ^ 4 from n.toNat_lt), UInt32.ofNat_toNat]

theorem exact_readU32 : Exact readU32 (fun _ => True) u32Bytes :=
  exact_le fun n hn => (UInt32.toNat_ofNat' (n := n)).trans (mod_eq_of_lt hn)

theorem reads_readU64 (n : UInt64) : Reads readU64 (u64Bytes n) n := by
  refine reads_le ?_
  rw [mod_eq_of_lt (show n.toNat < 256 ^ 8 from n.toNat_lt), UInt64.ofNat_toNat]

theorem exact_readU64 : Exact readU64 (fun _ => True) u64Bytes :=
  exact_le fun n hn => (UInt64.toNat_ofNat' (n := n)).trans (mod_eq_of_lt hn)

theorem toNat_ofNat_len {n : ℕ} (h : n < 2 ^ 32) : (UInt32.ofNat n).toNat = n := by
  rw [UInt32.toNat_ofNat', mod_eq_of_lt h]

theorem lenBytes_toNat (n : UInt32) : lenBytes n.toNat = u32Bytes n := by
  rw [lenBytes, UInt32.ofNat_toNat]

theorem reads_lenRead {bs : List UInt8} (h : bs.length < 2 ^ 32) :
    Reads (readU32 >>= fun len => read len.toNat) (lenBytes bs.length ++ bs) bs := by
  refine (reads_readU32 _).bind ?_
  rw [toNat_ofNat_len h]
  exact reads_read bs

theorem exact_lenRead : Exact (readU32 >>= fun len => read len.toNat) (·.length < 2 ^ 32)
    fun bs => lenBytes bs.length ++ bs := by
  intro d bs rest hrun
  obtain ⟨len, d', h1, h2⟩ := run_bind_eq_ok.mp hrun
  obtain ⟨-, rfl⟩ := exact_readU32 h1
  obtain ⟨hlen, rfl⟩ := read_eq_ok.mp h2
  refine ⟨?_, ?_⟩
  · show bs.length < 2 ^ 32
    rw [hlen]
    exact len.toNat_lt
  · show _ = lenBytes bs.length ++ bs ++ rest
    rw [hlen, lenBytes_toNat, List.append_assoc]

theorem fromUTF8_strBytes (s : String) : String.fromUTF8? ⟨(strBytes s).toArray⟩ = some s := by
  have hs : (⟨(strBytes s).toArray⟩ : ByteArray) = s.toByteArray := by simp [strBytes]
  rw [hs, String.fromUTF8?, dif_pos s.isValidUTF8]
  rfl

theorem strBytes_of_fromUTF8 {bs : List UInt8} {s : String}
    (h : String.fromUTF8? ⟨bs.toArray⟩ = some s) : strBytes s = bs := by
  rw [String.fromUTF8?] at h
  split_ifs at h
  cases h
  rfl

theorem readString_eq : readString = (readU32 >>= fun len => read len.toNat) >>= fun b =>
    match String.fromUTF8? ⟨b.toArray⟩ with
    | some s => pure s
    | none => throw .decodeError := by
  rw [readString, bind_assoc]

theorem reads_readString {s : String} (h : (strBytes s).length < 2 ^ 32) :
    Reads readString (writeLenString s) s := by
  rw [readString_eq, writeLenString, ← List.append_nil (lenBytes _ ++ _)]
  refine (reads_lenRead h).bind ?_
  rw [fromUTF8_strBytes]
  exact Reads.pure s

theorem exact_readString :
    Exact readString (fun s => (strBytes s).length < 2 ^ 32) writeLenString := by
  intro d s rest hrun
  rw [readString_eq] at hrun
  obtain ⟨bs, d', h1, h2⟩ := run_bind_eq_ok.mp hrun
  obtain ⟨hlen, rfl⟩ := exact_lenRead h1
  cases hs : String.fromUTF8? ⟨bs.toArray⟩ with
  | none =>
    rw [hs] at h2
    exact absurd h2 (by rintro ⟨⟩)
  | some s' =>
    rw [hs] at h2
    obtain ⟨rfl, rfl⟩ := run_pure_eq_ok.mp h2
    obtain rfl := strBytes_of_fromUTF8 hs
    exact ⟨hlen, rfl⟩

/-! ## Schema and bytes -/

/-- A length or a count that its 32 bits on the wire can hold. -/
def fits (n : ℕ) : Bool := n < 2 ^ 32

mutual

/-- All lengths and counts of the schema fit their 32 bits. -/
def Schema.bounded : Schema → Bool
  | .struct fields => fits fields.length && boundedFields fields
  | .list elem => elem.bounded
  | .enum vars => fits vars.length && vars.all fun v => fits (strBytes v.1).length
  | _ => true

/-- …and of the fields of a struct. -/
def boundedFields : List (String × Schema) → Bool
  | [] => true
  | (name, ty) :: fields => fits (strBytes name).length && ty.bounded && boundedFields fields

end

theorem fits_iff {n : ℕ} : fits n = true ↔ n < 2 ^ 32 := by simp [fits]

theorem reads_readVariant {v : String × UInt32} (h : (strBytes v.1).length < 2 ^ 32) :
    Reads readVariant (encodeVariant v) v :=
  (reads_readU32 v.2).bind ((reads_readString h).map fun name => (name, v.2))

theorem exact_readVariant :
    Exact readVariant (fun v => (strBytes v.1).length < 2 ^ 32) encodeVariant := by
  intro d v rest hrun
  obtain ⟨val, d1, h1, hrun⟩ := run_bind_eq_ok.mp hrun
  obtain ⟨name, h2, rfl⟩ := run_map_eq_ok.mp hrun
  obtain ⟨-, rfl⟩ := exact_readU32 h1
  obtain ⟨hlen, rfl⟩ := exact_readString h2
  exact ⟨hlen, by rw [encodeVariant, List.append_assoc]⟩

theorem reads_counted {α : Type} {r : CursorM α} {as : List α} {bs : List UInt8}
    (hn : as.length < 2 ^ 32) (h : Reads (times r as.length) bs as) :
    Reads (readU32 >>= fun n => times r n.toNat) (lenBytes as.length ++ bs) as := by
  refine (reads_readU32 _).bind ?_
  rw [toNat_ofNat_len hn]
  exact h

theorem exact_counted {α : Type} {r : CursorM α} {P : α → Prop} {w : α → List UInt8}
    (h : Exact r P w) : Exact (readU32 >>= fun n => times r n.toNat)
      (fun as => as.length < 2 ^ 32 ∧ ∀ a ∈ as, P a)
      fun as => lenBytes as.length ++ as.flatMap w := by
  intro d as rest hrun
  obtain ⟨n, d', h1, h2⟩ := run_bind_eq_ok.mp hrun
  obtain ⟨-, rfl⟩ := exact_readU32 h1
  obtain ⟨hlen, hP, rfl⟩ := h.times _ h2
  refine ⟨⟨?_, hP⟩, ?_⟩
  · rw [hlen]
    exact n.toNat_lt
  · show _ = lenBytes as.length ++ as.flatMap w ++ rest
    rw [hlen, lenBytes_toNat, List.append_assoc]

theorem decodeTagged_struct (inner : CursorM OwnedSchema) : decodeTagged inner 0x0F =
    (readU32 >>= fun n => times (readField inner) n.toNat) >>= fun fs => pure (.struct fs) := by
  rw [bind_assoc]
  rfl

theorem decodeTagged_enum (inner : CursorM OwnedSchema) : decodeTagged inner 0x11 =
    (readU32 >>= fun n => times readVariant n.toNat) >>= fun vs => pure (.enum vs) := by
  rw [bind_assoc]
  rfl

theorem reads_tagged {s : Schema} {tag : UInt8} {bs : List UInt8} {fuel : ℕ}
    (h : Reads (decodeTagged (decodeSchemaAt fuel) tag) bs s) :
    Reads (decodeSchemaAt (fuel + 1)) (tag :: bs) s :=
  (reads_readU8 tag).bind h

mutual

/-- **A schema is read back from its encoding**… -/
theorem reads_encodeSchema {fuel : ℕ} : ∀ s : Schema, s.bounded = true →
    (encodeSchema s).length ≤ fuel → Reads (decodeSchemaAt fuel) (encodeSchema s) s := by
  intro s hb hf
  obtain _ | fuel := fuel
  · cases s <;> simp [encodeSchema] at hf
  cases s with
  | struct fields =>
    simp only [Schema.bounded, Bool.and_eq_true, fits_iff] at hb
    simp only [encodeSchema, List.length_cons, List.length_append] at hf ⊢
    refine reads_tagged ?_
    rw [decodeTagged_struct]
    exact (reads_counted hb.1 (reads_encodeFields fields hb.2 (by omega))).map _
  | list elem =>
    simp only [Schema.bounded] at hb
    simp only [encodeSchema, List.length_cons] at hf ⊢
    exact reads_tagged ((reads_encodeSchema elem hb (by omega)).map Schema.list)
  | enum vars =>
    simp only [Schema.bounded, Bool.and_eq_true, fits_iff, List.all_eq_true] at hb
    simp only [encodeSchema]
    refine reads_tagged ?_
    rw [decodeTagged_enum]
    exact (reads_counted hb.1 (Reads.times fun v hv => reads_readVariant (hb.2 v hv))).map _
  | _ => exact reads_tagged (Reads.pure _)

/-- …and so are the fields of a struct. -/
theorem reads_encodeFields {fuel : ℕ} : ∀ fields : List (String × Schema),
    boundedFields fields = true → (encodeFields fields).length ≤ fuel →
    Reads (times (readField (decodeSchemaAt fuel)) fields.length) (encodeFields fields) fields
  | [], _, _ => Reads.pure []
  | (name, ty) :: fields, hb, hf => by
    simp only [boundedFields, Bool.and_eq_true, fits_iff] at hb
    simp only [encodeFields, List.length_append] at hf ⊢
    have hty : Reads (decodeSchemaAt fuel) (encodeSchema ty) ty :=
      reads_encodeSchema ty hb.1.2 (by omega)
    have hfield : Reads (readField (decodeSchemaAt fuel)) (writeLenString name ++ encodeSchema ty)
        (name, ty) := (reads_readString hb.1.1).bind (hty.map fun ty => (name, ty))
    exact hfield.bind ((reads_encodeFields fields hb.2 (by omega)).map ((name, ty) :: ·))

end

theorem encodeFields_eq : ∀ fields : List (String × Schema),
    encodeFields fields = fields.flatMap fun f => writeLenString f.1 ++ encodeSchema f.2
  | [] => rfl
  | (name, ty) :: fields => by
    rw [encodeFields, encodeFields_eq fields, List.flatMap_cons]

theorem boundedFields_iff : ∀ {fields : List (String × Schema)}, boundedFields fields = true ↔
    ∀ f ∈ fields, (strBytes f.1).length < 2 ^ 32 ∧ f.2.bounded = true
  | [] => by simp [boundedFields]
  | (name, ty) :: fields => by
    have ih : boundedFields fields = true ↔
        ∀ f ∈ fields, (strBytes f.1).length < 2 ^ 32 ∧ f.2.bounded = true := boundedFields_iff
    simp [boundedFields, ih, fits_iff]

theorem exact_readField {inner : CursorM OwnedSchema}
    (h : Exact inner (·.bounded = true) encodeSchema) :
    Exact (readField inner) (fun f => (strBytes f.1).length < 2 ^ 32 ∧ f.2.bounded = true)
      fun f => writeLenString f.1 ++ encodeSchema f.2 := by
  intro d f rest hrun
  obtain ⟨name, d1, h1, hrun⟩ := run_bind_eq_ok.mp hrun
  obtain ⟨ty, h2, rfl⟩ := run_map_eq_ok.mp hrun
  obtain ⟨hlen, rfl⟩ := exact_readString h1
  obtain ⟨hb, rfl⟩ := h h2
  exact ⟨⟨hlen, hb⟩, by simp⟩

/-- What stands behind a tag, with the tag, is the encoding of what is read. -/
theorem exact_decodeTagged {inner : CursorM OwnedSchema}
    (h : Exact inner (·.bounded = true) encodeSchema) {tag : UInt8} {s : Schema}
    (hrun : (decodeTagged inner tag).run d = .ok (s, rest)) :
    s.bounded = true ∧ tag :: d = encodeSchema s ++ rest := by
  obtain rfl | hs := eq_or_ne tag 0x0F
  · rw [decodeTagged_struct] at hrun
    obtain ⟨fields, h1, rfl⟩ := run_map_eq_ok.mp hrun
    obtain ⟨⟨hlen, hP⟩, rfl⟩ := exact_counted (exact_readField h) h1
    rw [Schema.bounded, encodeSchema, Bool.and_eq_true, fits_iff, boundedFields_iff,
      encodeFields_eq]
    exact ⟨⟨hlen, hP⟩, rfl⟩
  obtain rfl | he := eq_or_ne tag 0x11
  · rw [decodeTagged_enum] at hrun
    obtain ⟨vars, h1, rfl⟩ := run_map_eq_ok.mp hrun
    obtain ⟨⟨hlen, hP⟩, rfl⟩ := exact_counted exact_readVariant h1
    rw [Schema.bounded, Bool.and_eq_true, fits_iff, List.all_eq_true]
    exact ⟨⟨hlen, fun v hv => fits_iff.mpr (hP v hv)⟩, rfl⟩
  obtain rfl | hl := eq_or_ne tag 0x10
  · obtain ⟨elem, h1, rfl⟩ := run_map_eq_ok.mp hrun
    obtain ⟨hb, rfl⟩ := h h1
    exact ⟨hb, rfl⟩
  -- the tags that stand alone
  unfold decodeTagged at hrun
  split at hrun
  all_goals first
    | exact absurd rfl hs
    | exact absurd rfl he
    | exact absurd rfl hl
    | (obtain ⟨rfl, rfl⟩ := run_pure_eq_ok.mp hrun; exact ⟨rfl, rfl⟩)
    | exact absurd hrun (by rintro ⟨⟩)

/-- **A schema is read from its encoding only.** -/
theorem exact_decodeSchemaAt : ∀ fuel, Exact (decodeSchemaAt fuel) (·.bounded = true) encodeSchema
  | 0, _, _, _, hrun => absurd hrun (by rintro ⟨⟩)
  | fuel + 1, d, s, rest, hrun => by
    obtain ⟨tag, d', h1, h2⟩ := run_bind_eq_ok.mp hrun
    obtain ⟨-, rfl⟩ := exact_readU8 h1
    exact exact_decodeTagged (exact_decodeSchemaAt fuel) h2

/-! ## Fuel -/

theorem readField_congr {inner inner' : CursorM OwnedSchema} {k : ℕ}
    (h : ∀ d : List UInt8, d.length ≤ k → inner.run d = inner'.run d) (hd : d.length ≤ k) :
    (readField inner).run d = (readField inner').run d :=
  bind_congr rfl fun _ d' hrun => bind_congr (h d' ((exact_readString.takes.le hrun).trans hd))
    fun _ _ _ => rfl

/-- The calls that `decode_schema_at` makes itself read shorter input. -/
theorem decodeTagged_congr {inner inner' : CursorM OwnedSchema} {k : ℕ}
    (hx : Exact inner (·.bounded = true) encodeSchema)
    (h : ∀ d : List UInt8, d.length ≤ k → inner.run d = inner'.run d) (hd : d.length ≤ k)
    (tag : UInt8) : (decodeTagged inner tag).run d = (decodeTagged inner' tag).run d := by
  obtain rfl | hs := eq_or_ne tag 0x0F
  · refine bind_congr rfl fun n d' hrun => bind_congr ?_ fun _ _ _ => rfl
    exact times_congr (exact_readField hx).takes (fun d hd => readField_congr h hd) n.toNat d'
      ((exact_readU32.takes.le hrun).trans hd)
  obtain rfl | hl := eq_or_ne tag 0x10
  · exact bind_congr (h d hd) fun _ _ _ => rfl
  unfold decodeTagged
  split <;> first | rfl | exact absurd rfl hs | exact absurd rfl hl

/-- **More fuel than bytes is never used up.** -/
theorem decodeSchemaAt_fuel : ∀ {fuel fuel' : ℕ} {d : List UInt8}, d.length < fuel →
    d.length < fuel' → (decodeSchemaAt fuel).run d = (decodeSchemaAt fuel').run d
  | fuel + 1, fuel' + 1, d, h, h' => by
    refine bind_congr rfl fun tag d' hrun => ?_
    have hlen := exact_readU8.takes hrun
    simp only [List.length_singleton] at hlen
    exact decodeTagged_congr (k := d'.length) (exact_decodeSchemaAt fuel)
      (fun d hd => decodeSchemaAt_fuel (by omega) (by omega)) le_rfl tag

/-! ## The wire form is unique -/

theorem decodeSchemaBytes_eq_ok {data : List UInt8} {s : OwnedSchema} :
    decodeSchemaBytes data = .ok s ↔ (decodeSchemaAt (data.length + 1)).run data = .ok (s, []) := by
  rw [decodeSchemaBytes]
  cases hrun : (decodeSchemaAt (data.length + 1)).run data with
  | error e => simp [bind, Except.bind]
  | ok p =>
    obtain ⟨s', rest⟩ := p
    by_cases hr : rest = [] <;>
      simp [bind, Except.bind, pure, Except.pure, hr]

/-- **Schemas and their encodings correspond one to one**: every schema whose lengths fit is read
back from its encoding, and whatever is accepted is the encoding of the schema it is read as. -/
theorem schema_wire_bijective :
    (∀ s : OwnedSchema, s.bounded = true → decodeSchemaBytes (encodeSchemaOwned s) = .ok s) ∧
      ∀ (d : List UInt8) (s : OwnedSchema), decodeSchemaBytes d = .ok s →
        s.bounded = true ∧ encodeSchemaOwned s = d := by
  constructor
  · intro s hs
    exact decodeSchemaBytes_eq_ok.mpr (reads_encodeSchema s hs (le_succ _)).nil
  · intro d s hrun
    obtain ⟨hb, he⟩ := exact_decodeSchemaAt _ (decodeSchemaBytes_eq_ok.mp hrun)
    rw [List.append_nil] at he
    exact ⟨hb, he.symm⟩

/-- A struct of a list and an enumeration goes over the wire and back. -/
theorem colours_wire : decodeSchemaBytes (encodeSchemaOwned
    (.struct [("k", .list .u16), ("colour", .enum [("red", 1), ("blue", 2)])])) =
      .ok (.struct [("k", .list .u16), ("colour", .enum [("red", 1), ("blue", 2)])]) :=
  schema_wire_bijective.1 _ (by decide)

end Bedrock.Unispace
