import Bedrock.Lib.Overlay
import Bedrock.Unispace.Payload

/-!
# Unispace/FileWrite — writing a file through the object namespace

The fourth argument of a write is a word that each object reads in its own way.  A file reads it as

    bit 0       append at the end
    bits 1‥7    reserved
    bits 8‥63   the position; position 0 empties the file first

and tests `0x1FE` for the reserved bits, which is bits 1 to 8: an odd position is refused.  There
are two ways in, with the bytes as they came and with a decoded value.
-/

namespace Bedrock.Unispace

/-- The files of a drive: what `write_at` reports as written is laid over the old contents, and
`truncate` to zero empties the file; neither touches another file. -/
structure Drive (F σ : Type) where
  contents : σ → F → List UInt8
  truncate : σ → F → ℕ → Except VfsError Unit × σ
  writeAt : σ → F → ℕ → List UInt8 → Except VfsError ℕ × σ
  truncate_zero : ∀ s f s', truncate s f 0 = (.ok (), s') →
    contents s' f = [] ∧ ∀ g, g ≠ f → contents s' g = contents s g
  writeAt_ok : ∀ s f pos bytes n s', writeAt s f pos bytes = (.ok n, s') →
    n ≤ bytes.length ∧ contents s' f = overlay 0 (contents s f) pos (bytes.take n) ∧
      ∀ g, g ≠ f → contents s' g = contents s g

section File

variable {F σ : Type} (k : Drive F σ)

/-- `size`. -/
def Drive.size (s : σ) (f : F) : ℕ := (k.contents s f).length

/-- The loop of `write_bytes_at`.  Each round writes a byte at least, so as many rounds as there are
bytes are enough. -/
def writeLoop (f : F) : ℕ → σ → ℕ → List UInt8 → Except UnispaceError Unit × σ
  | 0, s, _, _ => (.ok (), s)
  | fuel + 1, s, pos, bytes =>
    if bytes = [] then (.ok (), s)
    else
      match k.writeAt s f pos bytes with
      | (.error e, s) => (.error (.vfs e), s)
      | (.ok n, s) =>
        if n = 0 then (.error (.vfs .ioError), s)
        else writeLoop f fuel s (pos + n) (bytes.drop n)

/-- `write_bytes_at`. -/
def writeBytesAt (s : σ) (f : F) (start : ℕ) (bytes : List UInt8) : Except UnispaceError Unit × σ :=
  writeLoop k f bytes.length s start bytes

/-- `write_value_flags`. -/
def writeValueFlags (s : σ) (f : F) (v : Value) (flags : ℕ) : Except UnispaceError Unit × σ :=
  match v with
  | .bytes bytes =>
    if flags &&& 0x1 ≠ 0 then
      if flags &&& 0x1FE ≠ 0 then (.error .unsupported, s)
      else writeBytesAt k s f (k.size s f) bytes
    else if flags &&& 0x1FE ≠ 0 then (.error .unsupported, s)
    else if flags >>> 8 = 0 then
      match k.truncate s f 0 with
      | (.error e, s) => (.error (.vfs e), s)
      | (.ok _, s) => writeBytesAt k s f (flags >>> 8) bytes
    else writeBytesAt k s f (flags >>> 8) bytes
  | _ => (.error .schemaMismatch, s)

/-- `write_blob_flags`. -/
def writeBlobFlags (s : σ) (f : F) (data : List UInt8) (flags : ℕ) :
    Except UnispaceError Unit × σ :=
  if flags &&& 0x1 ≠ 0 then
    if flags &&& 0x1FE ≠ 0 then (.error .unsupported, s)
    else writeBytesAt k s f (k.size s f) data
  else if flags &&& 0x1FE ≠ 0 then (.error .unsupported, s)
  else if flags >>> 8 = 0 then
    match k.truncate s f 0 with
    | (.error e, s) => (.error (.vfs e), s)
    | (.ok _, s) => writeBytesAt k s f (flags >>> 8) data
  else writeBytesAt k s f (flags >>> 8) data

/-- What `write_parsed` does once it has found a file: the bytes as they are, or decoded if the file
`declines` them. -/
def writeFile (declines : Bool) (s : σ) (f : F) (data : List UInt8) (flags : ℕ) :
    Except UnispaceError Unit × σ :=
  if declines then
    match decodeValue data .blob with
    | .error e => (.error e, s)
    | .ok v => writeValueFlags k s f v flags
  else writeBlobFlags k s f data flags

/-! ## What a write leaves behind -/

variable {k} {f : F} {s s' : σ} {pos : ℕ} {bytes data : List UInt8}

/-- Only this file may have changed. -/
def Others (k : Drive F σ) (f : F) (s s' : σ) : Prop :=
  ∀ g, g ≠ f → k.contents s' g = k.contents s g

theorem Others.trans {s'' : σ} (h : Others k f s s') (h' : Others k f s' s'') :
    Others k f s s'' := fun g hg => (h' g hg).trans (h g hg)

/-- **A loop that succeeds lays all the bytes over the file.** -/
theorem writeLoop_ok : ∀ (fuel : ℕ) (s : σ) (pos : ℕ) (bytes : List UInt8), bytes.length ≤ fuel →
    writeLoop k f fuel s pos bytes = (.ok (), s') →
    k.contents s' f = overlay 0 (k.contents s f) pos bytes ∧ Others k f s s'
  | 0, s, pos, bytes, hle, h => by
    obtain rfl := List.length_eq_zero_iff.mp (Nat.le_zero.mp hle)
    obtain rfl := (Prod.mk.inj h).2
    exact ⟨rfl, fun _ _ => rfl⟩
  | fuel + 1, s, pos, bytes, hle, h => by
    rw [writeLoop] at h
    by_cases hnil : bytes = []
    · obtain rfl := (Prod.mk.inj h).2
      rw [hnil]
      exact ⟨rfl, fun _ _ => rfl⟩
    rw [if_neg hnil] at h
    split at h
    next => cases (Prod.mk.inj h).1
    next n s1 hw =>
      by_cases hn : n = 0
      · rw [if_pos hn] at h
        cases (Prod.mk.inj h).1
      rw [if_neg hn] at h
      obtain ⟨hlen, hcontents, hothers⟩ := k.writeAt_ok s f pos bytes n s1 hw
      have hrest : (bytes.drop n).length ≤ fuel := by
        rw [List.length_drop]
        omega
      obtain ⟨hcontents', hothers'⟩ := writeLoop_ok fuel s1 (pos + n) (bytes.drop n) hrest h
      refine ⟨?_, Others.trans hothers hothers'⟩
      have htake : (bytes.take n).length = n := by rw [List.length_take]; omega
      have happ : overlay 0 (overlay 0 (k.contents s f) pos (bytes.take n))
          (pos + (bytes.take n).length) (bytes.drop n) =
            overlay 0 (k.contents s f) pos (bytes.take n ++ bytes.drop n) := overlay_append
      rw [htake, List.take_append_drop, ← hcontents] at happ
      rw [hcontents', happ]

theorem writeBytesAt_ok (h : writeBytesAt k s f pos bytes = (.ok (), s')) :
    k.contents s' f = overlay 0 (k.contents s f) pos bytes ∧ Others k f s s' :=
  writeLoop_ok bytes.length s pos bytes le_rfl h

theorem decodeValue_blob (data : List UInt8) : decodeValue data .blob = .ok (.bytes data) := by
  have hread : (read data.length).run data = .ok (data, []) :=
    read_eq_ok.mpr ⟨rfl, (List.append_nil data).symm⟩
  have hat : (decodeValueAt .blob).run data = .ok (.bytes data, []) := by
    show (read data.length >>= fun b => pure (Value.bytes b)).run data = _
    rw [StateT.run_bind, hread]
    rfl
  rw [decodeValue, decodeAll, hat]
  rfl

/-- Both ways in are one. -/
theorem writeFile_eq (declines : Bool) (flags : ℕ) :
    writeFile k declines s f data flags = writeBlobFlags k s f data flags := by
  cases declines with
  | false => rfl
  | true => rw [writeFile, decodeValue_blob]; rfl

/-- **A positioned write that succeeds** lays the bytes over the file, which it empties first if the
position is zero. -/
theorem writeFile_ok {declines : Bool} {flags : ℕ} (hbit : flags % 2 = 0)
    (h : writeFile k declines s f data flags = (.ok (), s')) : k.contents s' f =
      overlay 0 (if flags >>> 8 = 0 then [] else k.contents s f) (flags >>> 8) data ∧
    Others k f s s' := by
  rw [writeFile_eq, writeBlobFlags, Nat.and_one_is_mod, if_neg (by omega)] at h
  split_ifs at h with hres hzero
  · cases (Prod.mk.inj h).1
  · split at h
    next => cases (Prod.mk.inj h).1
    next s1 htrunc =>
      obtain ⟨hempty, hothers⟩ := k.truncate_zero s f s1 htrunc
      obtain ⟨hcontents, hothers'⟩ := writeBytesAt_ok h
      rw [if_pos hzero, hcontents, hempty]
      exact ⟨rfl, Others.trans hothers hothers'⟩
  · obtain ⟨hcontents, hothers⟩ := writeBytesAt_ok h
    rw [if_neg hzero, hcontents]
    exact ⟨rfl, hothers⟩

end File

end Bedrock.Unispace
