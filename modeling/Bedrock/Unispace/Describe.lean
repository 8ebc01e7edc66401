import Bedrock.Caps.Introspect
import Bedrock.Unispace.Schema

/-!
# Unispace/Describe — descriptions of objects and methods on the wire

    P:method   len, name | input | output
    P:desc     kind | value schema | count | (len, name | input | output)…

The decoder does not look at the kind.
-/

namespace Bedrock

/-- `ObjectKind::tag`. -/
def ObjectKind.tag : ObjectKind → UInt8
  | .file => 0
  | .dir => 1
  | .device => 2
  | .service => 3

namespace Unispace

open Wire

/-- `MethodDesc` and `OwnedMethodDesc`. -/
abbrev Method := MethodDesc OwnedSchema

/-- `encode_method_desc`, and the same for owned descriptors. -/
def encodeMethodDesc (m : Method) : List UInt8 :=
  writeLenString (String.ofList m.name) ++ (encodeSchema m.input ++ encodeSchema m.output)

def encodeTable (methods : List Method) : List UInt8 :=
  lenBytes methods.length ++ methods.flatMap encodeMethodDesc

/-- The bytes of what `encode_object_desc_filtered` has chosen. -/
def encodeObjectDesc (o : ObjectDesc OwnedSchema) : List UInt8 :=
  o.kind.tag :: (encodeSchema o.schema ++ encodeTable o.methods)

/-- One round of the loop of `decode_object_bytes`, and all that `decode_method_bytes` reads. -/
def readDesc (fuel : ℕ) : CursorM Method := do
  let name ← readString
  let input ← decodeSchemaAt fuel
  let output ← decodeSchemaAt fuel
  pure ⟨name.toList, input, output⟩

def readObject (fuel : ℕ) : CursorM (UInt8 × OwnedSchema × List Method) := do
  let kind ← readU8
  let value ← decodeSchemaAt fuel
  let n ← readU32
  let methods ← times (readDesc fuel) n.toNat
  pure (kind, value, methods)

/-- A reader that has to take all the bytes; its fuel is more than it can use. -/
def readAll {α : Type} (r : ℕ → CursorM α) (data : List UInt8) : Except UnispaceError α := do
  let (a, rest) ← (r (data.length + 1)).run data
  if rest ≠ [] then throw .decodeError else pure a

/-- `decode_method_bytes`. -/
def decodeMethodBytes : List UInt8 → Except UnispaceError Method := readAll readDesc

/-- `decode_object_bytes`. -/
def decodeObjectBytes : List UInt8 → Except UnispaceError (UInt8 × OwnedSchema × List Method) :=
  readAll readObject

/-- All lengths of the description fit their 32 bits. -/
def MethodBounded (m : Method) : Prop :=
  (strBytes (String.ofList m.name)).length < 2 ^ 32 ∧ m.input.bounded = true ∧
    m.output.bounded = true

def TableBounded (methods : List Method) : Prop :=
  methods.length < 2 ^ 32 ∧ ∀ m ∈ methods, MethodBounded m

variable {fuel : ℕ}

theorem readAll_eq_ok {α : Type} {r : ℕ → CursorM α} {data : List UInt8} {a : α} :
    readAll r data = .ok a ↔ (r (data.length + 1)).run data = .ok (a, []) := by
  rw [readAll]
  cases hrun : (r (data.length + 1)).run data with
  | error e => simp [bind, Except.bind]
  | ok p =>
    obtain ⟨a', rest⟩ := p
    by_cases hr : rest = [] <;> simp [bind, Except.bind, pure, Except.pure, hr]

theorem reads_readDesc {m : Method} (h : MethodBounded m)
    (hf : (encodeMethodDesc m).length ≤ fuel) :
    Reads (readDesc fuel) (encodeMethodDesc m) m := by
  simp only [encodeMethodDesc, List.length_append] at hf
  refine (reads_readString h.1).bind ((reads_encodeSchema m.input h.2.1 (by omega)).bind ?_)
  have hout := (@reads_encodeSchema fuel m.output h.2.2 (by omega)).map
    (MethodDesc.mk (String.ofList m.name).toList m.input)
  rwa [String.toList_ofList] at hout ⊢

theorem exact_readDesc (fuel : ℕ) : Exact (readDesc fuel) MethodBounded encodeMethodDesc := by
  intro d m rest hrun
  obtain ⟨name, d', h1, hrun⟩ := run_bind_eq_ok.mp hrun
  obtain ⟨input, d'', h2, hrun⟩ := run_bind_eq_ok.mp hrun
  obtain ⟨output, h3, rfl⟩ := run_map_eq_ok.mp hrun
  obtain ⟨hname, rfl⟩ := exact_readString h1
  obtain ⟨hin, rfl⟩ := exact_decodeSchemaAt fuel h2
  obtain ⟨hout, rfl⟩ := exact_decodeSchemaAt fuel h3
  simp only [MethodBounded, encodeMethodDesc, String.ofList_toList]
  exact ⟨⟨hname, hin, hout⟩, by simp⟩

theorem readObject_eq : readObject fuel = readU8 >>= fun kind => decodeSchemaAt fuel >>=
    fun value => (readU32 >>= fun n => times (readDesc fuel) n.toNat) >>=
      fun methods => pure (kind, value, methods) := by
  simp only [bind_assoc]
  rfl

theorem reads_readObject (kind : UInt8) {value : OwnedSchema} {methods : List Method}
    (hv : value.bounded = true) (ht : TableBounded methods)
    (hf : (encodeSchema value ++ encodeTable methods).length ≤ fuel) :
    Reads (readObject fuel) (kind :: (encodeSchema value ++ encodeTable methods))
      (kind, value, methods) := by
  rw [List.length_append, encodeTable, List.length_append, List.length_flatMap] at hf
  rw [readObject_eq]
  refine (reads_readU8 kind).bind ((reads_encodeSchema value hv (by omega)).bind ?_)
  refine (reads_counted ht.1 (Reads.times fun m hm => reads_readDesc (ht.2 m hm) ?_)).map _
  have := List.single_le_sum (fun _ _ => Nat.zero_le _) _
    (List.mem_map_of_mem (f := fun m => (encodeMethodDesc m).length) hm)
  omega

theorem exact_readObject (fuel : ℕ) : Exact (readObject fuel)
    (fun o => o.2.1.bounded = true ∧ TableBounded o.2.2)
    fun o => o.1 :: (encodeSchema o.2.1 ++ encodeTable o.2.2) := by
  intro d o rest hrun
  rw [readObject_eq] at hrun
  obtain ⟨kind, d', h1, hrun⟩ := run_bind_eq_ok.mp hrun
  obtain ⟨value, d'', h2, hrun⟩ := run_bind_eq_ok.mp hrun
  obtain ⟨methods, h3, rfl⟩ := run_map_eq_ok.mp hrun
  obtain ⟨-, rfl⟩ := exact_readU8 h1
  obtain ⟨hv, rfl⟩ := exact_decodeSchemaAt fuel h2
  obtain ⟨ht, rfl⟩ := exact_counted (exact_readDesc fuel) h3
  exact ⟨⟨hv, ht⟩, by simp [encodeTable]⟩

/-- **Descriptions and their wire forms correspond one to one**: those of methods, and those of
objects up to kinds that no object has. -/
theorem describe_wire :
    (∀ m, MethodBounded m → decodeMethodBytes (encodeMethodDesc m) = .ok m) ∧
    (∀ d m, decodeMethodBytes d = .ok m → MethodBounded m ∧ encodeMethodDesc m = d) ∧
    (∀ o : ObjectDesc OwnedSchema, o.schema.bounded = true → TableBounded o.methods →
      decodeObjectBytes (encodeObjectDesc o) = .ok (o.kind.tag, o.schema, o.methods)) ∧
    ∀ d kind value methods, decodeObjectBytes d = .ok (kind, value, methods) →
      value.bounded = true ∧ TableBounded methods ∧
        d = kind :: (encodeSchema value ++ encodeTable methods) := by
  refine ⟨fun m hm => ?_, fun d m hrun => ?_, fun o hv ht => ?_, fun d _ _ _ hrun => ?_⟩
  · exact readAll_eq_ok.mpr (reads_readDesc hm (Nat.le_succ _)).nil
  · obtain ⟨hm, he⟩ := exact_readDesc _ (readAll_eq_ok.mp hrun)
    exact ⟨hm, by rw [he, List.append_nil]⟩
  · refine readAll_eq_ok.mpr (reads_readObject _ hv ht ?_).nil
    rw [encodeObjectDesc, List.length_cons]
    omega
  · obtain ⟨⟨hv, ht⟩, he⟩ := exact_readObject _ (readAll_eq_ok.mp hrun)
    exact ⟨hv, ht, by rw [he, List.append_nil]⟩

theorem describe_wire_dir : decodeObjectBytes (encodeObjectDesc
    ⟨.dir, .list .str, [⟨['r', 'm'], .str, .unit⟩]⟩) =
      .ok (1, .list .str, [⟨['r', 'm'], .str, .unit⟩]) :=
  describe_wire.2.2.1 _ rfl ⟨by decide, by simp [MethodBounded]; decide⟩

end Unispace

end Bedrock
