import Bedrock.Unispace.Schema

/-!
# Unispace/Payload — values on the wire

A payload carries no tags: a value is written as its schema says, and read back by the same schema.
The two directions were written one by one, and for the 16-bit integers they disagree:

              u8   u16   u32   u64      i8   i16   i32   i64
    written    1     2     4     8       1     2     4     8
    read       1     4     4     8       1     4     4     8     bytes

So a value comes back exactly if it holds no 16-bit integer.
-/

namespace Bedrock.Unispace

open Wire

/-- A runtime value; the names of fields and variants live in the schema. -/
inductive Value
  | unit
  | bool (b : Bool)
  | u64 (n : UInt64)
  | i64 (n : Int64)
  | f64 (f : Float)
  | str (s : String)
  | bytes (b : List UInt8)
  | list (items : List Value)
  | struct (vals : List Value)
  | enum (d : UInt32)

/-! ## Writing -/

/-- `u16::to_le_bytes`. -/
def u16Bytes (n : UInt16) : List UInt8 := leBytes 2 n.toNat

/-- The loop over the items of a list: what `f` writes for each, in order. -/
def encodeItems (f : Value → Except UnispaceError (List UInt8)) :
    List Value → Except UnispaceError (List UInt8)
  | [] => .ok []
  | v :: vs => do
    let b ← f v
    let bs ← encodeItems f vs
    pure (b ++ bs)

/-- A scalar within its range, or a mismatch. -/
def ranged (inRange : Prop) [Decidable inRange] (b : List UInt8) :
    Except UnispaceError (List UInt8) :=
  if inRange then .ok b else .error .schemaMismatch

mutual

/-- What `encode_value` and `encode_value_owned` append for a value of a schema. -/
def encodeValueAt : Schema → Value → Except UnispaceError (List UInt8)
  | .unit, .unit => .ok []
  | .bool, .bool b => .ok [b.toUInt8]
  | .u8, .u64 n => ranged (n ≤ 0xFF) [n.toUInt8]
  | .u16, .u64 n => ranged (n ≤ 0xFFFF) (u16Bytes n.toUInt16)
  | .u32, .u64 n => ranged (n ≤ 0xFFFFFFFF) (u32Bytes n.toUInt32)
  | .u64, .u64 n => .ok (u64Bytes n)
  | .i8, .i64 n => ranged (-0x80 ≤ n ∧ n ≤ 0x7F) [n.toInt8.toUInt8]
  | .i16, .i64 n => ranged (-0x8000 ≤ n ∧ n ≤ 0x7FFF) (u16Bytes n.toInt16.toUInt16)
  | .i32, .i64 n => ranged (-0x80000000 ≤ n ∧ n ≤ 0x7FFFFFFF) (u32Bytes n.toInt32.toUInt32)
  | .i64, .i64 n => .ok (u64Bytes n.toUInt64)
  | .f32, .f64 f => .ok (u32Bytes f.toFloat32.toBits)
  | .f64, .f64 f => .ok (u64Bytes f.toBits)
  | .str, .str s => .ok (writeLenString s)
  | .bytes, .bytes b => .ok (lenBytes b.length ++ b)
  | .blob, .bytes b => .ok b
  | .struct fields, .struct vals =>
    if vals.length ≠ fields.length then .error .schemaMismatch else encodeFieldsAt fields vals
  | .list elem, .list items => do
    let body ← encodeItems (encodeValueAt elem) items
    pure (lenBytes items.length ++ body)
  | .enum vars, .enum d => ranged (vars.any (·.2 == d) = true) (u32Bytes d)
  | _, _ => .error .schemaMismatch

/-- …and for the fields of a struct, side by side with their values. -/
def encodeFieldsAt : List (String × Schema) → List Value → Except UnispaceError (List UInt8)
  | (_, ty) :: fields, v :: vals => do
    let b ← encodeValueAt ty v
    let bs ← encodeFieldsAt fields vals
    pure (b ++ bs)
  | _, _ => .ok []

end

/-- `encode_value`. -/
def encodeValue (v : Value) (schema : Schema) : Except UnispaceError (List UInt8) :=
  encodeValueAt schema v

/-- `encode_value_owned`. -/
def encodeValueOwned (v : Value) (schema : OwnedSchema) : Except UnispaceError (List UInt8) :=
  encodeValueAt schema v

/-! ## Reading -/

mutual

/-- `decode_value_at` and `decode_value_owned_at`. -/
def decodeValueAt : Schema → CursorM Value
  | .unit => pure .unit
  | .bool => do
    let b ← readU8
    pure (.bool (b != 0))
  | .u8 => do
    let b ← readU8
    pure (.u64 b.toUInt64)
  | .u16 => do
    let n ← readU32
    pure (.u64 (n.toUInt64 &&& 0xFFFF))
  | .u32 => do
    let n ← readU32
    pure (.u64 n.toUInt64)
  | .u64 => do
    let n ← readU64
    pure (.u64 n)
  | .i8 => do
    let b ← readU8
    pure (.i64 b.toInt8.toInt64)
  | .i16 => do
    let n ← readU32
    pure (.i64 n.toUInt16.toInt16.toInt64)
  | .i32 => do
    let n ← readU32
    pure (.i64 n.toInt32.toInt64)
  | .i64 => do
    let n ← readU64
    pure (.i64 n.toInt64)
  | .f32 => do
    let n ← readU32
    pure (.f64 (Float32.ofBits n).toFloat)
  | .f64 => do
    let n ← readU64
    pure (.f64 (Float.ofBits n))
  | .str => do
    let s ← readString
    pure (.str s)
  | .bytes => do
    let len ← readU32
    let b ← read len.toNat
    pure (.bytes b)
  | .blob => do
    let d ← get
    let b ← read d.length
    pure (.bytes b)
  | .struct fields => do
    let vals ← decodeFieldsAt fields
    pure (.struct vals)
  | .list elem => do
    let n ← readU32
    let items ← times (decodeValueAt elem) n.toNat
    pure (.list items)
  | .enum vars => do
    let disc ← readU32
    if vars.any (·.2 == disc) then pure (.enum disc) else throw .schemaMismatch

/-- …and their loops over the fields of a struct. -/
def decodeFieldsAt : List (String × Schema) → CursorM (List Value)
  | [] => pure []
  | (_, ty) :: fields => do
    let v ← decodeValueAt ty
    let vs ← decodeFieldsAt fields
    pure (v :: vs)

end

/-- What `decode_value` and `decode_value_owned` do with the bytes. -/
def decodeAll (data : List UInt8) (schema : Schema) : Except UnispaceError Value := do
  let (v, rest) ← (decodeValueAt schema).run data
  if rest ≠ [] then throw .decodeError else pure v

/-- `decode_value`. -/
def decodeValue (data : List UInt8) (schema : Schema) : Except UnispaceError Value :=
  decodeAll data schema

/-- `decode_value_owned`. -/
def decodeValueOwned (data : List UInt8) (schema : OwnedSchema) : Except UnispaceError Value :=
  decodeAll data schema

/-! ## The values in question -/

mutual

/-- No float type occurs. -/
def Schema.noFloat : Schema → Bool
  | .f32 => false
  | .f64 => false
  | .struct fields => noFloatFields fields
  | .list elem => elem.noFloat
  | _ => true

def noFloatFields : List (String × Schema) → Bool
  | [] => true
  | (_, ty) :: fields => ty.noFloat && noFloatFields fields

end

mutual

/-- A blob, which takes all the bytes that are left, occurs at most as the very last thing that is
decoded, and only if the schema itself stands `last`. -/
def Schema.blobOnly (last : Bool) : Schema → Bool
  | .blob => last
  | .struct fields => blobOnlyFields last fields
  | .list elem => elem.blobOnly false
  | _ => true

def blobOnlyFields (last : Bool) : List (String × Schema) → Bool
  | [] => true
  | (_, ty) :: fields =>
    ty.blobOnly (last && fields.isEmpty) && blobOnlyFields last fields

end

mutual

/-- All lengths and counts of the value fit 32 bits. -/
def Value.bounded : Value → Bool
  | .str s => fits (strBytes s).length
  | .bytes b => fits b.length
  | .list items => fits items.length && boundedValues items
  | .struct vals => boundedValues vals
  | _ => true

def boundedValues : List Value → Bool
  | [] => true
  | v :: vs => v.bounded && boundedValues vs

end

mutual

/-- The 16-bit integers in a value of a schema. -/
def shorts : Schema → Value → ℕ
  | .u16, _ => 1
  | .i16, _ => 1
  | .struct fields, .struct vals => shortsFields fields vals
  | .list elem, .list items => (items.map (shorts elem)).sum
  | _, _ => 0

def shortsFields : List (String × Schema) → List Value → ℕ
  | (_, ty) :: fields, v :: vals => shorts ty v + shortsFields fields vals
  | _, _ => 0

end

/-! ## Scalars -/

variable {bs : List UInt8}

theorem ranged_eq_ok {p : Prop} [Decidable p] {b : List UInt8} :
    ranged p b = .ok bs ↔ p ∧ b = bs := by
  rw [ranged]
  split_ifs with h <;> simp [h]

theorem reads_bool (b : Bool) : Reads (decodeValueAt .bool) [b.toUInt8] (.bool b) := by
  have h := (reads_readU8 b.toUInt8).map fun x => Value.bool (x != 0)
  have hb : (b.toUInt8 != 0) = b := by cases b <;> decide
  rwa [hb] at h

theorem reads_u8 {n : UInt64} (h : n ≤ 0xFF) : Reads (decodeValueAt .u8) [n.toUInt8] (.u64 n) := by
  have hn : n.toUInt8.toUInt64 = n := by
    have := UInt64.le_iff_toNat_le.mp h
    rw [← UInt64.toNat_inj]
    simp at *
    omega
  have hr := (reads_readU8 n.toUInt8).map fun b => Value.u64 b.toUInt64
  rwa [hn] at hr

theorem reads_u32 {n : UInt64} (h : n ≤ 0xFFFFFFFF) :
    Reads (decodeValueAt .u32) (u32Bytes n.toUInt32) (.u64 n) := by
  have hn : n.toUInt32.toUInt64 = n := by
    have := UInt64.le_iff_toNat_le.mp h
    rw [← UInt64.toNat_inj]
    simp at *
    omega
  have hr := (reads_readU32 n.toUInt32).map fun k => Value.u64 k.toUInt64
  rwa [hn] at hr

/-- Narrowing a signed number in range and widening it again. -/
theorem bmod_eq_self {n : ℤ} {k : ℕ} (hk : 0 < k) (h : -(2 ^ (k - 1) : ℤ) ≤ n ∧ n < 2 ^ (k - 1)) :
    n.bmod (2 ^ k) = n := by
  have hk : (2 : ℤ) ^ k = 2 * 2 ^ (k - 1) := by
    rw [← pow_succ', Nat.sub_add_cancel hk]
  refine Int.bmod_eq_of_le_mul_two ?_ ?_ <;> push_cast <;> omega

theorem reads_i8 {n : Int64} (h : -0x80 ≤ n ∧ n ≤ 0x7F) :
    Reads (decodeValueAt .i8) [n.toInt8.toUInt8] (.i64 n) := by
  have hn : n.toInt8.toUInt8.toInt8.toInt64 = n := by
    have h1 := Int64.le_iff_toInt_le.mp h.1
    have h2 := Int64.le_iff_toInt_le.mp h.2
    rw [← Int64.toInt_inj]
    simp at *
    exact bmod_eq_self (k := 8) (by decide) ⟨by omega, by omega⟩
  have hr := (reads_readU8 n.toInt8.toUInt8).map fun b => Value.i64 b.toInt8.toInt64
  rwa [hn] at hr

theorem reads_i32 {n : Int64} (h : -0x80000000 ≤ n ∧ n ≤ 0x7FFFFFFF) :
    Reads (decodeValueAt .i32) (u32Bytes n.toInt32.toUInt32) (.i64 n) := by
  have hn : n.toInt32.toUInt32.toInt32.toInt64 = n := by
    have h1 := Int64.le_iff_toInt_le.mp h.1
    have h2 := Int64.le_iff_toInt_le.mp h.2
    rw [← Int64.toInt_inj]
    simp at *
    exact bmod_eq_self (k := 32) (by decide) ⟨by omega, by omega⟩
  have hr := (reads_readU32 n.toInt32.toUInt32).map fun b => Value.i64 b.toInt32.toInt64
  rwa [hn] at hr

theorem reads_i64 (n : Int64) : Reads (decodeValueAt .i64) (u64Bytes n.toUInt64) (.i64 n) := by
  have hr := (reads_readU64 n.toUInt64).map fun k => Value.i64 k.toInt64
  rwa [show n.toUInt64.toInt64 = n by simp] at hr

theorem reads_bytes {b : List UInt8} (h : b.length < 2 ^ 32) :
    Reads (decodeValueAt .bytes) (lenBytes b.length ++ b) (.bytes b) := by
  have hr := (reads_lenRead h).map Value.bytes
  rwa [bind_assoc] at hr

theorem readsBefore_blob (b : List UInt8) :
    ReadsBefore (· = []) (decodeValueAt .blob) b (.bytes b) := by
  rintro rest rfl
  rw [List.append_nil]
  exact run_bind_eq_ok.mpr ⟨b, b, rfl, ((reads_read b).map Value.bytes).nil⟩

theorem reads_enum {vars : List (String × UInt32)} {d : UInt32} (h : vars.any (·.2 == d) = true) :
    Reads (decodeValueAt (.enum vars)) (u32Bytes d) (.enum d) := by
  refine (reads_readU32 d).bind ?_
  rw [if_pos h]
  exact Reads.pure _

/-! ## Without 16-bit integers a value comes back -/

theorem encodeItems_cons {f : Value → Except UnispaceError (List UInt8)} {v : Value}
    {vs : List Value} (h : encodeItems f (v :: vs) = .ok bs) :
    ∃ b bs', f v = .ok b ∧ encodeItems f vs = .ok bs' ∧ bs = b ++ bs' := by
  rw [encodeItems] at h
  cases hb : f v with
  | error e => simp [hb, bind, Except.bind] at h
  | ok b =>
    cases hbs : encodeItems f vs with
    | error e => simp [hb, hbs, bind, Except.bind] at h
    | ok bs' =>
      simp only [hb, hbs, bind, Except.bind, pure, Except.pure, Except.ok.injEq] at h
      exact ⟨b, bs', rfl, rfl, h.symm⟩

theorem encodeFieldsAt_cons {name : String} {ty : Schema} {fields : List (String × Schema)}
    {v : Value} {vals : List Value}
    (h : encodeFieldsAt ((name, ty) :: fields) (v :: vals) = .ok bs) :
    ∃ b bs', encodeValueAt ty v = .ok b ∧ encodeFieldsAt fields vals = .ok bs' ∧
      bs = b ++ bs' := by
  rw [encodeFieldsAt] at h
  cases hb : encodeValueAt ty v with
  | error e => simp [hb, bind, Except.bind] at h
  | ok b =>
    cases hbs : encodeFieldsAt fields vals with
    | error e => simp [hb, hbs, bind, Except.bind] at h
    | ok bs' =>
      simp only [hb, hbs, bind, Except.bind, pure, Except.pure, Except.ok.injEq] at h
      exact ⟨b, bs', rfl, rfl, h.symm⟩

theorem encodeValueAt_list {elem : Schema} {items : List Value}
    (h : encodeValueAt (.list elem) (.list items) = .ok bs) :
    ∃ body, encodeItems (encodeValueAt elem) items = .ok body ∧
      bs = lenBytes items.length ++ body := by
  rw [encodeValueAt] at h
  cases hb : encodeItems (encodeValueAt elem) items with
  | error e => simp [hb] at h
  | ok body =>
    simp only [hb, bind, Except.bind, pure, Except.pure, Except.ok.injEq] at h
    exact ⟨body, rfl, h.symm⟩

theorem encodeValueAt_struct {fields : List (String × Schema)} {vals : List Value}
    (h : encodeValueAt (.struct fields) (.struct vals) = .ok bs) :
    vals.length = fields.length ∧ encodeFieldsAt fields vals = .ok bs := by
  rw [encodeValueAt] at h
  split_ifs at h with hlen
  exact ⟨not_not.mp hlen, h⟩

theorem reads_encodeItems {f : Value → Except UnispaceError (List UInt8)} {r : CursorM Value} :
    ∀ {items : List Value} {bs : List UInt8}, encodeItems f items = .ok bs →
      (∀ v ∈ items, ∀ b, f v = .ok b → Reads r b v) → Reads (times r items.length) bs items
  | [], bs, h, _ => by
    cases h
    exact Reads.pure []
  | v :: vs, bs, h, hr => by
    obtain ⟨b, bs', hb, hbs, rfl⟩ := encodeItems_cons h
    exact (hr v (by simp) b hb).bind ((reads_encodeItems hbs fun w hw =>
      hr w (List.mem_cons_of_mem _ hw)).map (v :: ·))

theorem boundedValues_iff : ∀ {vs : List Value},
    boundedValues vs = true ↔ ∀ v ∈ vs, v.bounded = true
  | [] => by simp [boundedValues]
  | v :: vs => by
    have ih : boundedValues vs = true ↔ ∀ v ∈ vs, v.bounded = true := boundedValues_iff
    simp [boundedValues, ih]

/-- What may follow a value: nothing, if it stands last. -/
def Follows (last : Bool) (rest : List UInt8) : Prop := last = true → rest = []

mutual

/-- **A value without 16-bit integers is read back**… -/
theorem reads_encodeValueAt : ∀ (s : Schema) {last : Bool}, s.noFloat = true →
    s.blobOnly last = true → ∀ {v : Value} {bs : List UInt8}, encodeValueAt s v = .ok bs →
    v.bounded = true → shorts s v = 0 → ReadsBefore (Follows last) (decodeValueAt s) bs v := by
  intro s last hf hl v bs h hb hs
  cases s with
  | f32 | f64 => exact absurd hf (by simp [Schema.noFloat])
  | u16 | i16 => exact absurd hs (by simp [shorts])
  | unit =>
    cases v with
    | unit =>
      cases h
      exact (Reads.pure _).before
    | _ => simp [encodeValueAt] at h
  | bool =>
    cases v with
    | bool b =>
      cases h
      exact (reads_bool b).before
    | _ => simp [encodeValueAt] at h
  | u8 =>
    cases v with
    | u64 n =>
      obtain ⟨hr, rfl⟩ := ranged_eq_ok.mp h
      exact (reads_u8 hr).before
    | _ => simp [encodeValueAt] at h
  | u32 =>
    cases v with
    | u64 n =>
      obtain ⟨hr, rfl⟩ := ranged_eq_ok.mp h
      exact (reads_u32 hr).before
    | _ => simp [encodeValueAt] at h
  | u64 =>
    cases v with
    | u64 n =>
      cases h
      exact ((reads_readU64 n).map Value.u64).before
    | _ => simp [encodeValueAt] at h
  | i8 =>
    cases v with
    | i64 n =>
      obtain ⟨hr, rfl⟩ := ranged_eq_ok.mp h
      exact (reads_i8 hr).before
    | _ => simp [encodeValueAt] at h
  | i32 =>
    cases v with
    | i64 n =>
      obtain ⟨hr, rfl⟩ := ranged_eq_ok.mp h
      exact (reads_i32 hr).before
    | _ => simp [encodeValueAt] at h
  | i64 =>
    cases v with
    | i64 n =>
      cases h
      exact (reads_i64 n).before
    | _ => simp [encodeValueAt] at h
  | str =>
    cases v with
    | str t =>
      cases h
      exact ((reads_readString (fits_iff.mp hb)).map Value.str).before
    | _ => simp [encodeValueAt] at h
  | bytes =>
    cases v with
    | bytes b =>
      cases h
      exact (reads_bytes (fits_iff.mp hb)).before
    | _ => simp [encodeValueAt] at h
  | blob =>
    cases v with
    | bytes b =>
      obtain rfl := Except.ok.inj h
      exact fun rest hrest => readsBefore_blob b (hrest hl)
    | _ => simp [encodeValueAt] at h
  | enum vars =>
    cases v with
    | enum d =>
      obtain ⟨hr, rfl⟩ := ranged_eq_ok.mp h
      exact (reads_enum hr).before
    | _ => simp [encodeValueAt] at h
  | struct fields =>
    cases v with
    | struct vals =>
      obtain ⟨hlen, hbs⟩ := encodeValueAt_struct h
      exact (reads_encodeFieldsAt fields hf hl hlen hbs (boundedValues_iff.mp hb) hs).map _
    | _ => simp [encodeValueAt] at h
  | list elem =>
    cases v with
    | list items =>
      obtain ⟨body, hbody, rfl⟩ := encodeValueAt_list h
      simp only [Value.bounded, Bool.and_eq_true, fits_iff, boundedValues_iff] at hb
      simp only [shorts, List.sum_eq_zero_iff, List.mem_map, forall_exists_index, and_imp,
        forall_apply_eq_imp_iff₂] at hs
      have hitems : ∀ v ∈ items, ∀ b, encodeValueAt elem v = .ok b →
          Reads (decodeValueAt elem) b v := fun v hv b hvb => by
        have hl' : elem.blobOnly false = true := hl
        exact (reads_encodeValueAt elem hf hl' hvb (hb.2 v hv) (hs v hv)).reads
          fun rest hlast => absurd hlast (by decide)
      have hread := (reads_counted hb.1 (reads_encodeItems hbody hitems)).map Value.list
      rw [bind_assoc] at hread
      exact hread.before
    | _ => simp [encodeValueAt] at h

/-- …and so are the fields of a struct. -/
theorem reads_encodeFieldsAt : ∀ (fields : List (String × Schema)) {last : Bool},
    noFloatFields fields = true → blobOnlyFields last fields = true →
    ∀ {vals : List Value} {bs : List UInt8}, vals.length = fields.length →
    encodeFieldsAt fields vals = .ok bs → (∀ v ∈ vals, v.bounded = true) →
    shortsFields fields vals = 0 → ReadsBefore (Follows last) (decodeFieldsAt fields) bs vals
  | [], last, _, _, vals, bs, hlen, h, _, _ => by
    obtain rfl : vals = [] := List.eq_nil_of_length_eq_zero hlen
    cases h
    exact (Reads.pure []).before
  | (name, ty) :: fields, last, hf, hl, [], bs, hlen, _, _, _ => by simp at hlen
  | (name, ty) :: fields, last, hf, hl, v :: vals, bs, hlen, h, hb, hs => by
    obtain ⟨b, bs', hv, hvals, rfl⟩ := encodeFieldsAt_cons h
    simp only [noFloatFields, Bool.and_eq_true] at hf
    simp only [blobOnlyFields, Bool.and_eq_true] at hl
    simp only [shortsFields, Nat.add_eq_zero_iff] at hs
    have hhead := reads_encodeValueAt ty hf.1 hl.1 hv (hb v (by simp)) hs.1
    have hlen' : vals.length = fields.length := by simpa using hlen
    have htail := reads_encodeFieldsAt fields hf.2 hl.2 hlen' hvals
      (fun w hw => hb w (List.mem_cons_of_mem _ hw)) hs.2
    refine hhead.bind (htail.map (v :: ·)) fun rest hrest hlast => ?_
    -- the field stands last only if there is none behind it
    obtain ⟨hlast', hnil⟩ := Bool.and_eq_true_iff.mp hlast
    obtain rfl : fields = [] := List.isEmpty_iff.mp hnil
    obtain rfl : vals = [] := List.eq_nil_of_length_eq_zero hlen'
    cases hvals
    exact hrest hlast'

end

/-! ## Counting bytes -/

mutual

/-- The bytes that `decode_value_at` takes for a value that it returns. -/
def taken : Schema → Value → ℕ
  | .bool, _ | .u8, _ | .i8, _ => 1
  | .u16, _ | .u32, _ | .i16, _ | .i32, _ | .f32, _ | .enum _, _ => 4
  | .u64, _ | .i64, _ | .f64, _ => 8
  | .str, .str s => 4 + (strBytes s).length
  | .bytes, .bytes b => 4 + b.length
  | .blob, .bytes b => b.length
  | .struct fields, .struct vals => takenFields fields vals
  | .list elem, .list items => 4 + (items.map (taken elem)).sum
  | _, _ => 0

def takenFields : List (String × Schema) → List Value → ℕ
  | (_, ty) :: fields, v :: vals => taken ty v + takenFields fields vals
  | _, _ => 0

end

theorem length_u32Bytes (n : UInt32) : (u32Bytes n).length = 4 := length_leBytes 4 _

theorem takes_u8 {g : UInt8 → Value} {size : Value → ℕ} (h : ∀ b, size (g b) = 1) :
    Takes (readU8 >>= fun b => pure (g b)) size := exact_readU8.takes.map h

theorem length_of_readU32 {d rest : List UInt8} {n : UInt32}
    (h : readU32.run d = .ok (n, rest)) : d.length = 4 + rest.length :=
  (exact_readU32.takes h).trans (congrArg (· + rest.length) (length_u32Bytes n))

theorem takes_u32 {g : UInt32 → Value} {size : Value → ℕ} (h : ∀ n, size (g n) = 4) :
    Takes (readU32 >>= fun n => pure (g n)) size :=
  exact_readU32.takes.map fun n => (h n).trans (length_u32Bytes n).symm

theorem takes_u64 {g : UInt64 → Value} {size : Value → ℕ} (h : ∀ n, size (g n) = 8) :
    Takes (readU64 >>= fun n => pure (g n)) size :=
  exact_readU64.takes.map fun n => (h n).trans (length_leBytes 8 _).symm

mutual

theorem takes_decodeValueAt : ∀ s : Schema, Takes (decodeValueAt s) (taken s) := by
  intro s
  cases s with
  | bool | u8 | i8 => exact takes_u8 fun _ => rfl
  | u16 | u32 | i16 | i32 | f32 => exact takes_u32 fun _ => rfl
  | u64 | i64 | f64 => exact takes_u64 fun _ => rfl
  | unit =>
    intro d v rest hrun
    obtain ⟨rfl, rfl⟩ := run_pure_eq_ok.mp hrun
    simp [taken]
  | str =>
    refine exact_readString.takes.map fun s => ?_
    rw [taken, writeLenString, List.length_append, lenBytes, length_u32Bytes]
  | bytes =>
    have h : Takes ((readU32 >>= fun len => read len.toNat) >>= fun b => pure (.bytes b))
        (taken .bytes) := exact_lenRead.takes.map fun b => by
      rw [taken, List.length_append, lenBytes, length_u32Bytes]
    rwa [bind_assoc] at h
  | blob =>
    intro d v rest hrun
    obtain ⟨d', d'', hget, hrun⟩ := run_bind_eq_ok.mp hrun
    obtain ⟨rfl, rfl⟩ : d = d' ∧ d = d'' := by simpa [get, getThe, MonadStateOf.get, StateT.get,
      StateT.run, pure, Except.pure] using hget
    obtain ⟨b, hread, rfl⟩ := run_map_eq_ok.mp hrun
    obtain ⟨-, rfl⟩ := read_eq_ok.mp hread
    rw [taken, List.length_append]
  | enum vars =>
    intro d v rest hrun
    obtain ⟨disc, d', hread, hrun⟩ := run_bind_eq_ok.mp hrun
    split_ifs at hrun
    · obtain ⟨rfl, rfl⟩ := run_pure_eq_ok.mp hrun
      rw [length_of_readU32 hread, taken]
    · exact absurd hrun (by rintro ⟨⟩)
  | struct fields => exact (takes_decodeFieldsAt fields).map fun _ => by rw [taken]
  | list elem =>
    intro d v rest hrun
    obtain ⟨n, d1, hread, hrun⟩ := run_bind_eq_ok.mp hrun
    obtain ⟨items, htimes, rfl⟩ := run_map_eq_ok.mp hrun
    rw [length_of_readU32 hread, ((takes_decodeValueAt elem).times n.toNat htimes).2, taken,
      Nat.add_assoc]

theorem takes_decodeFieldsAt : ∀ fields : List (String × Schema),
    Takes (decodeFieldsAt fields) (takenFields fields)
  | [], d, vals, rest, hrun => by
    obtain ⟨rfl, rfl⟩ := run_pure_eq_ok.mp hrun
    simp [takenFields]
  | (name, ty) :: fields, d, vals, rest, hrun => by
    obtain ⟨v, d1, hv, hrun⟩ := run_bind_eq_ok.mp hrun
    obtain ⟨vs, hvs, rfl⟩ := run_map_eq_ok.mp hrun
    rw [takes_decodeValueAt ty hv, takes_decodeFieldsAt fields hvs, takenFields, Nat.add_assoc]

end

theorem length_encodeItems {f : Value → Except UnispaceError (List UInt8)} {size short : Value → ℕ}
    (h : ∀ v b, f v = .ok b → b.length + 2 * short v = size v) :
    ∀ {items : List Value} {bs : List UInt8}, encodeItems f items = .ok bs →
      bs.length + 2 * (items.map short).sum = (items.map size).sum
  | [], bs, he => by
    cases he
    rfl
  | v :: vs, bs, he => by
    obtain ⟨b, bs', hb, hbs, rfl⟩ := encodeItems_cons he
    have hv := h v b hb
    have hvs := length_encodeItems h hbs
    simp only [List.length_append, List.map_cons, List.sum_cons]
    omega

mutual

/-- `encode_value` writes two bytes less for each 16-bit integer. -/
theorem length_encodeValueAt : ∀ (s : Schema) {v : Value} {bs : List UInt8},
    encodeValueAt s v = .ok bs → bs.length + 2 * shorts s v = taken s v := by
  intro s v bs h
  cases s with
  | struct fields =>
    cases v with
    | struct vals => exact length_encodeFieldsAt fields (encodeValueAt_struct h).2
    | _ => simp [encodeValueAt] at h
  | list elem =>
    cases v with
    | list items =>
      obtain ⟨body, hbody, rfl⟩ := encodeValueAt_list h
      have hbs : body.length + 2 * (items.map (shorts elem)).sum =
          (items.map (taken elem)).sum :=
        length_encodeItems (fun v b hv => length_encodeValueAt elem hv) hbody
      rw [shorts, taken, List.length_append, lenBytes, length_u32Bytes]
      omega
    | _ => simp [encodeValueAt] at h
  | _ =>
    -- a scalar: one length against another
    cases v <;> simp only [encodeValueAt, ranged_eq_ok, reduceCtorEq, Except.ok.injEq] at h
    all_goals first
      | (subst h; simp [taken, shorts, writeLenString, lenBytes, length_u32Bytes, u64Bytes])
      | (obtain ⟨-, rfl⟩ := h; simp [taken, shorts, length_u32Bytes, u16Bytes])

theorem length_encodeFieldsAt : ∀ (fields : List (String × Schema)) {vals : List Value}
    {bs : List UInt8}, encodeFieldsAt fields vals = .ok bs →
    bs.length + 2 * shortsFields fields vals = takenFields fields vals
  | [], vals, bs, h => by
    cases h
    rfl
  | (name, ty) :: fields, [], bs, h => by
    cases h
    rfl
  | (name, ty) :: fields, v :: vals, bs, h => by
    obtain ⟨b, bs', hb, hbs, rfl⟩ := encodeFieldsAt_cons h
    have hv := length_encodeValueAt ty hb
    have hvs := length_encodeFieldsAt fields hbs
    simp only [List.length_append, shortsFields, takenFields]
    omega

end

/-! ## The round trip -/

theorem decodeAll_eq_ok {data : List UInt8} {s : Schema} {v : Value} :
    decodeAll data s = .ok v ↔ (decodeValueAt s).run data = .ok (v, []) := by
  rw [decodeAll]
  cases hrun : (decodeValueAt s).run data with
  | error e => simp [bind, Except.bind]
  | ok p =>
    obtain ⟨v', rest⟩ := p
    by_cases hr : rest = [] <;>
      simp [bind, Except.bind, pure, Except.pure, hr]

/-- **What was written comes back exactly if it holds no 16-bit integer.** -/
theorem decodeAll_iff {s : Schema} {v : Value} {bs : List UInt8} (hf : s.noFloat = true)
    (hl : s.blobOnly true = true) (hb : v.bounded = true) (h : encodeValueAt s v = .ok bs) :
    decodeAll bs s = .ok v ↔ shorts s v = 0 := by
  rw [decodeAll_eq_ok]
  constructor
  · intro hrun
    have hread := takes_decodeValueAt s hrun
    have hwrite := length_encodeValueAt s h
    omega
  · intro hs
    have hread := reads_encodeValueAt s hf hl h hb hs
    have hrun : (decodeValueAt s).run (bs ++ []) = .ok (v, []) := hread fun _ => rfl
    rwa [List.append_nil] at hrun

/-- **A payload round trip succeeds exactly for the values without a 16-bit integer**, with the
static schemas and with the owned ones. -/
theorem payload_roundTrip_iff (s : Schema) (v : Value) (bs : List UInt8)
    (hf : s.noFloat = true) (hl : s.blobOnly true = true) (hb : v.bounded = true) :
    (encodeValue v s = .ok bs → (decodeValue bs s = .ok v ↔ shorts s v = 0)) ∧
      (encodeValueOwned v s = .ok bs → (decodeValueOwned bs s = .ok v ↔ shorts s v = 0)) :=
  ⟨decodeAll_iff hf hl hb, decodeAll_iff hf hl hb⟩

/-- A struct of a list of numbers, a text and a blob comes back. -/
theorem report_roundTrip :
    let s : Schema := .struct [("xs", .list .i32), ("name", .str), ("rest", .blob)]
    let v : Value := .struct [.list [.i64 (-1), .i64 5], .str "ab", .bytes [1, 2, 3]]
    ∃ bs, encodeValue v s = .ok bs ∧ decodeValue bs s = .ok v :=
  ⟨_, rfl, ((payload_roundTrip_iff _ _ _ (by decide) (by decide) (by decide)).1 rfl).mpr
    (by decide)⟩

/-- A 16-bit number is written as two bytes, from which it is not read. -/
theorem u16_lost : encodeValue (.u64 5) .u16 = .ok [5, 0] ∧
    decodeValue [5, 0] .u16 = .error .decodeError ∧ encodeValueOwned (.u64 5) .u16 = .ok [5, 0] ∧
    decodeValueOwned [5, 0] .u16 = .error .decodeError :=
  ⟨rfl, rfl, rfl, rfl⟩

end Bedrock.Unispace
