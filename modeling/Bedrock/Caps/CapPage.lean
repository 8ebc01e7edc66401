import Bedrock.Unispace.Schema

/-!
# Caps/CapPage — the capabilities of a process, as a page

`serialize_to_page` packs capabilities into a window of `CAP_SLOT_SIZE` bytes, one record after the
other, and puts their number in front:

    count | len path 0… | len method 0… | perm 0 0 0 | len path 0… | FFFFFFFF | perm 0 0 0 | ⋯

A text is filled up to a multiple of four bytes, of which the layout in the docstring knows nothing:

    written       a / b c d 0 0 0      documented       a / b c d

A record is written while the window has 20 bytes beside its texts, more than it takes; so a list
that would just fit is cut (`fitting_cut`).  The page reads as documented exactly where neither
shows (`documented_iff`).
-/

namespace Bedrock

open Wire Unispace List Option

/-- `CAP_SLOT_SIZE`. -/
def capSlotSize : ℕ := 16384

def textBytes (s : Str) : List UInt8 := strBytes (String.ofList s)

def Perm.byte : Perm → UInt8
  | .r => 1
  | .rw => 3

/-- `Perm::from_u8`. -/
def Perm.ofByte (b : UInt8) : Option Perm :=
  if b = 1 then some .r else if b = 3 then some .rw else none

/-! ## Writing -/

/-- The bounce buffer, `off` and `n_written`. -/
structure CapWriter where
  buf : List UInt8
  off : ℕ
  count : ℕ

namespace CapWriter

/-- Bytes go to the offset, and the offset past them; a write outside the buffer has no result. -/
def put (bytes : List UInt8) (w : CapWriter) : Option CapWriter :=
  if w.off + bytes.length ≤ w.buf.length then
    some { w with
      buf := w.buf.take w.off ++ bytes ++ w.buf.drop (w.off + bytes.length)
      off := w.off + bytes.length }
  else none

/-- Zeros up to the next multiple of four. -/
def pad (n : ℕ) : List UInt8 := List.replicate ((4 - n % 4) % 4) 0

def putText (s : Str) (w : CapWriter) : Option CapWriter := do
  let w ← w.put (lenBytes (textBytes s).length)
  let w ← w.put (textBytes s)
  w.put (pad w.off)

def putMethod : Option Str → CapWriter → Option CapWriter
  | some m, w => w.putText m
  | none, w => w.put (u32Bytes 0xFFFFFFFF)

/-- One round of the loop, past its test. -/
def putCap (c : Cap) (w : CapWriter) : Option CapWriter := do
  let w ← w.putText c.path
  let w ← w.putMethod c.method
  let w ← w.put [c.perm.byte]
  let w ← w.put [0, 0, 0]
  some { w with count := w.count + 1 }

/-- What the test asks of the window for a record. -/
def need (c : Cap) : ℕ :=
  8 + (textBytes c.path).length + 8 + (c.method.elim 0 fun m => (textBytes m).length) + 4

def putCaps : List Cap → CapWriter → Option CapWriter
  | [], w => some w
  | c :: cs, w =>
    if capSlotSize < w.off + need c then some w else (w.putCap c).bind (putCaps cs)

end CapWriter

open CapWriter

/-- `serialize_to_page`: the bytes of the window after it. -/
def serializeToPage (caps : List Cap) : Option (List UInt8) := do
  let w ← putCaps caps ⟨List.replicate capSlotSize 0, 4, 0⟩
  let w ← { w with off := 0 }.put (lenBytes w.count)
  some w.buf

/-! ## Reading -/

/-- The layout of the docstring: nothing stands behind a text. -/
def unfilled (_ : ℕ) : List UInt8 := []

variable (fill : ℕ → List UInt8)

/-- A text behind its length, with what fills it up. -/
def readText (len : UInt32) : CursorM Str := do
  let b ← read len.toNat
  let _ ← read (fill len.toNat).length
  match String.fromUTF8? ⟨b.toArray⟩ with
  | some s => pure s.toList
  | none => throw .decodeError

def readMethod : CursorM (Option Str) := do
  let len ← readU32
  if len = 0xFFFFFFFF then pure none
  else do
    let m ← readText fill len
    pure (some m)

def readCap : CursorM Cap := do
  let len ← readU32
  let path ← readText fill len
  let method ← readMethod fill
  let b ← readU8
  let _ ← read 3
  match Perm.ofByte b with
  | some perm => pure ⟨path, method, perm⟩
  | none => throw .decodeError

/-- The capabilities of a page, as many as it counts. -/
def readPage : CursorM (List Cap) := do
  let n ← readU32
  times (readCap fill) n.toNat

/-! ## Records -/

def textRecord (s : Str) : List UInt8 :=
  lenBytes (textBytes s).length ++ (textBytes s ++ fill (textBytes s).length)

def methodRecord (m : Option Str) : List UInt8 := m.elim (u32Bytes 0xFFFFFFFF) (textRecord fill)

def capRecord (c : Cap) : List UInt8 :=
  textRecord fill c.path ++ (methodRecord fill c.method ++ ([c.perm.byte] ++ [0, 0, 0]))

variable {s : Str} {c : Cap} {pre bytes : List UInt8} {k off : ℕ}

@[simp] theorem length_lenBytes (n : ℕ) : (lenBytes n).length = 4 := length_leBytes _ _

theorem length_textRecord :
    (textRecord pad s).length = 4 + (textBytes s).length + (4 - (textBytes s).length % 4) % 4 := by
  simp [textRecord, pad]
  omega

/-- A record takes whole words, and at most 8 bytes less than the test asks for. -/
theorem length_capRecord (c : Cap) : (capRecord pad c).length % 4 = 0 ∧
    (capRecord pad c).length ≤ need c ∧ need c ≤ (capRecord pad c).length + 8 := by
  cases hm : c.method <;>
    simp only [need, capRecord, methodRecord, hm, Option.elim, length_append,
      length_textRecord, u32Bytes, length_leBytes, length_cons, length_nil] <;> omega

theorem reads_readText (h : (textBytes s).length < 2 ^ 32) :
    Reads (readText fill (UInt32.ofNat (textBytes s).length))
      (textBytes s ++ fill (textBytes s).length) s := by
  rw [readText, toNat_ofNat_len h]
  refine (reads_read _).bind ?_
  rw [textBytes, fromUTF8_strBytes]
  simpa using (reads_read _).map fun _ => s

theorem reads_readMethod (m : Option Str) (h : ∀ s ∈ m, (textBytes s).length < 2 ^ 32 - 1) :
    Reads (readMethod fill) (methodRecord fill m) m := by
  cases m with
  | none =>
    exact (reads_readU32 _).bind (Reads.pure none)
  | some s =>
    have hlen : (textBytes s).length < 2 ^ 32 - 1 := h s rfl
    refine (reads_readU32 _).bind ?_
    rw [if_neg fun heq => ?_]
    · exact (reads_readText fill (by omega)).map some
    · have hnat := congrArg UInt32.toNat heq
      exact absurd hnat (by simp; omega)

/-- **A record is read back.** -/
theorem reads_readCap (h : need c ≤ capSlotSize) : Reads (readCap fill) (capRecord fill c) c := by
  unfold capSlotSize need at h
  have hmethod : ∀ s ∈ c.method, (textBytes s).length < 2 ^ 32 - 1 := by
    intro s hs
    rw [mem_def.mp hs, Option.elim] at h
    omega
  have hperm : Perm.ofByte c.perm.byte = some c.perm := by cases c.perm <;> rfl
  refine (reads_readU32 _).bind ((reads_readText fill (by omega)).bind ?_)
  refine (reads_readMethod fill c.method hmethod).bind ((reads_readU8 _).bind ?_)
  rw [hperm]
  exact (reads_read [0, 0, 0]).map fun _ => c

/-! ## The writer -/

namespace CapWriter

/-- Nothing is written from the offset on. -/
def fresh (pre : List UInt8) (k : ℕ) : CapWriter :=
  ⟨pre ++ List.replicate (capSlotSize - pre.length) 0, pre.length, k⟩

theorem put_fresh (h : pre.length + bytes.length ≤ capSlotSize) :
    (fresh pre k).put bytes = some (fresh (pre ++ bytes) k) := by
  have hsub : capSlotSize - pre.length - bytes.length = capSlotSize - (pre ++ bytes).length := by
    rw [length_append]
    omega
  have hdrop : (pre ++ List.replicate (capSlotSize - pre.length) (0 : UInt8)).drop
      (pre.length + bytes.length) = List.replicate (capSlotSize - (pre ++ bytes).length) 0 := by
    rw [drop_append, drop_of_length_le (by omega), nil_append, drop_replicate,
      Nat.add_sub_cancel_left, hsub]
  rw [put, fresh, if_pos (by simp; omega)]
  simp only [take_left', hdrop, fresh, length_append]

theorem putText_fresh (hpre : pre.length % 4 = 0)
    (h : pre.length + (textRecord pad s).length ≤ capSlotSize) :
    (fresh pre k).putText s = some (fresh (pre ++ textRecord pad s) k) := by
  rw [length_textRecord] at h
  have hpad : pad (fresh (pre ++ lenBytes (textBytes s).length ++ textBytes s) k).off =
      pad (textBytes s).length := by
    simp only [pad, fresh, length_append, length_lenBytes]
    congr 2
    omega
  rw [putText, put_fresh (by simp; omega)]
  simp only [bind_eq_bind, bind_some]
  rw [put_fresh (by simp; omega), bind_some, hpad, put_fresh (by simp [pad]; omega),
    textRecord]
  simp only [append_assoc]

theorem putMethod_fresh {m : Option Str} (hpre : pre.length % 4 = 0)
    (h : pre.length + (methodRecord pad m).length ≤ capSlotSize) :
    (fresh pre k).putMethod m = some (fresh (pre ++ methodRecord pad m) k) := by
  cases m with
  | none => exact put_fresh h
  | some m => exact putText_fresh hpre h

theorem putCap_fresh (hpre : pre.length % 4 = 0) (h : pre.length + need c ≤ capSlotSize) :
    (fresh pre k).putCap c = some (fresh (pre ++ capRecord pad c) (k + 1)) := by
  have hle := (length_capRecord c).2.1
  simp only [capRecord, length_append, length_cons, length_nil] at hle
  have hmod : (pre ++ textRecord pad c.path).length % 4 = 0 := by
    rw [length_append, length_textRecord]
    omega
  rw [putCap, putText_fresh hpre (by omega)]
  simp only [bind_eq_bind, bind_some]
  rw [putMethod_fresh hmod (by simp; omega), bind_some, put_fresh (by simp; omega),
    bind_some, put_fresh (by simp; omega), bind_some, capRecord]
  simp only [fresh, append_assoc]

/-- The capabilities that pass the test, from an offset on. -/
def fitting (off : ℕ) : List Cap → List Cap
  | [] => []
  | c :: cs =>
    if capSlotSize < off + need c then [] else c :: fitting (off + (capRecord pad c).length) cs

theorem fitting_spec : ∀ (cs : List Cap) {off : ℕ}, off ≤ capSlotSize →
    fitting off cs <+: cs ∧ (∀ c ∈ fitting off cs, need c ≤ capSlotSize) ∧
    (fitting off cs).length ≤ ((fitting off cs).flatMap (capRecord pad)).length ∧
    off + ((fitting off cs).flatMap (capRecord pad)).length ≤ capSlotSize
  | [], _, h => ⟨⟨_, rfl⟩, nofun, le_rfl, h⟩
  | c :: cs, off, h => by
    have hrecord := length_capRecord c
    rw [fitting]
    split_ifs with htest
    · exact ⟨⟨_, rfl⟩, nofun, le_rfl, h⟩
    · obtain ⟨hpre, hneed, hlen, hle⟩ :=
        fitting_spec cs (show off + (capRecord pad c).length ≤ capSlotSize by omega)
      have hpos : 20 ≤ need c := by unfold need; omega
      refine ⟨cons_prefix_cons.mpr ⟨rfl, hpre⟩, forall_mem_cons.mpr ⟨by omega, hneed⟩, ?_⟩
      rw [flatMap_cons, length_append, length_cons]
      omega

/-- **The loop writes the records of the capabilities that pass.** -/
theorem putCaps_fresh : ∀ {cs : List Cap} {pre : List UInt8} {k : ℕ}, pre.length % 4 = 0 →
    putCaps cs (fresh pre k) = some (fresh (pre ++ (fitting pre.length cs).flatMap (capRecord pad))
      (k + (fitting pre.length cs).length))
  | [], pre, k, _ => by simp [putCaps, fitting]
  | c :: cs, pre, k, hpre => by
    rw [putCaps, fitting, show (fresh pre k).off = pre.length from rfl]
    split_ifs with htest
    · simp
    · have hmod : (pre ++ capRecord pad c).length % 4 = 0 := by
        have := (length_capRecord c).1
        rw [length_append]
        omega
      rw [putCap_fresh hpre (by omega), bind_some, putCaps_fresh hmod, length_append]
      simp only [flatMap_cons, append_assoc, length_cons, Nat.add_assoc, Nat.add_comm 1]

/-- Every capability passes exactly if the last one does. -/
theorem length_fitting_iff : ∀ (cs : List Cap) {off : ℕ}, (fitting off cs).length = cs.length ↔
    ∀ c ∈ cs.getLast?, off + (cs.dropLast.flatMap (capRecord pad)).length + need c ≤ capSlotSize
  | [], _ => by simp [fitting]
  | [c], off => by simp [fitting, apply_ite List.length]
  | c :: d :: cs, off => by
    rw [getLast?_cons_cons, dropLast_cons_of_ne_nil (cons_ne_nil d cs), flatMap_cons,
      length_append, length_cons, fitting, ← Nat.add_assoc]
    split_ifs with htest
    · -- the record of `c` takes at most 8 bytes less than the test asks for, and the last cap asks
      -- for 20
      refine iff_of_false (by simp) fun hall => ?_
      have hlast := hall _ (getLast?_eq_some_getLast (cons_ne_nil d cs))
      have hneed : 20 ≤ need ((d :: cs).getLast (cons_ne_nil d cs)) := by unfold need; omega
      have := (length_capRecord c).2.2
      omega
    · rw [length_cons, Nat.add_right_cancel_iff, length_fitting_iff (d :: cs)]

end CapWriter

/-- The window: the count, the records that pass, and zeros. -/
theorem serializeToPage_eq (caps : List Cap) : ∃ n, serializeToPage caps =
    some (lenBytes (fitting 4 caps).length ++
      ((fitting 4 caps).flatMap (capRecord pad) ++ List.replicate n 0)) ∧
    4 + ((fitting 4 caps).flatMap (capRecord pad)).length + n = capSlotSize := by
  have hle := (fitting_spec caps (show 4 ≤ capSlotSize by decide)).2.2.2
  have hstart : (⟨List.replicate capSlotSize 0, 4, 0⟩ : CapWriter) =
      fresh (List.replicate 4 0) 0 := by
    rfl
  refine ⟨_, ?_, Nat.add_sub_cancel' hle⟩
  rw [serializeToPage, hstart, putCaps_fresh (by simp)]
  simp only [bind_eq_bind, bind_some]
  rw [put, if_pos (by simp [fresh])]
  simp only [fresh, Nat.zero_add, take_zero, nil_append, length_lenBytes, append_assoc,
    drop_left' (length_replicate (n := 4)), length_append, length_replicate, bind_some]

theorem length_fitting_lt (caps : List Cap) : (fitting 4 caps).length < 2 ^ 32 := by
  have := fitting_spec caps (show 4 ≤ capSlotSize by decide)
  unfold capSlotSize at this
  omega

theorem count_page (caps : List Cap) (bytes : List UInt8) :
    leNat ((lenBytes (fitting 4 caps).length ++ bytes).take 4) = (fitting 4 caps).length := by
  rw [take_left' (length_lenBytes _), lenBytes, u32Bytes, leNat_leBytes,
    toNat_ofNat_len (length_fitting_lt caps)]
  exact Nat.mod_eq_of_lt (length_fitting_lt caps)

/-- **The page holds the first capabilities of the list, in order**: the window is never left, and
all of them are there exactly if the last one still finds what the test asks for. -/
theorem serializeToPage_prefix (caps : List Cap) : ∃ page k, serializeToPage caps = some page ∧
    page.length = capSlotSize ∧ leNat (page.take 4) = k ∧
    (∃ rest, (readPage pad).run page = .ok (caps.take k, rest)) ∧
    (k = caps.length ↔ ∀ c ∈ caps.getLast?,
      4 + (caps.dropLast.flatMap (capRecord pad)).length + need c ≤ capSlotSize) := by
  obtain ⟨n, hpage, hlen⟩ := serializeToPage_eq caps
  obtain ⟨hpre, hneed, -, -⟩ := fitting_spec caps (show 4 ≤ capSlotSize by decide)
  refine ⟨_, _, hpage, ?_, count_page caps _, ?_, length_fitting_iff caps⟩
  · rw [length_append, length_append, length_lenBytes, length_replicate]
    omega
  · rw [← prefix_iff_eq_take.mp hpre]
    exact ⟨_, reads_counted (length_fitting_lt caps)
      (Reads.times fun c hc => reads_readCap pad (hneed c hc)) _⟩

/-! ## The documented layout -/

/-- Its texts take whole words, so that nothing fills them up. -/
def Whole (c : Cap) : Prop :=
  (textBytes c.path).length % 4 = 0 ∧ ∀ m ∈ c.method, (textBytes m).length % 4 = 0

/-- Behind the records of `before`, `c` finds the bytes that the test asks for. -/
def Room (before : List Cap) (c : Cap) : Prop :=
  4 + (before.flatMap (capRecord pad)).length + need c ≤ capSlotSize

/-- **The page of a list, read by the layout of the docstring**: it holds the first capabilities of
the list, as many as it counts, and all of them if the records fit. -/
def Documented (caps : List Cap) : Prop :=
  ∃ page k, serializeToPage caps = some page ∧ page.length = capSlotSize ∧
    leNat (page.take 4) = k ∧ (∃ rest, (readPage unfilled).run page = .ok (caps.take k, rest)) ∧
    (4 + (caps.flatMap (capRecord unfilled)).length ≤ capSlotSize → k = caps.length)

theorem pad_eq_nil {n : ℕ} (h : n % 4 = 0) : pad n = [] := by simp [pad, h]

/-- What fills a text up starts with a zero. -/
theorem pad_eq_cons {n : ℕ} (h : n % 4 ≠ 0) : ∃ k < 3, pad n = 0 :: List.replicate k 0 := by
  refine ⟨(4 - n % 4) % 4 - 1, by omega, ?_⟩
  rw [← replicate_succ, pad]
  congr 1
  omega

theorem Whole.capRecord_eq (h : Whole c) : capRecord pad c = capRecord unfilled c := by
  obtain ⟨hpath, hmethod⟩ := h
  rw [capRecord, capRecord, textRecord, textRecord, pad_eq_nil hpath]
  cases hm : c.method with
  | none => rfl
  | some m =>
    simp only [methodRecord, Option.elim, textRecord, pad_eq_nil (hmethod m hm)]
    rfl

theorem eq_nil_of_textBytes (h : textBytes s = []) : s = [] := by
  have hs := fromUTF8_strBytes (String.ofList s)
  rw [← textBytes, h] at hs
  exact String.ofList_injective (Option.some.inj (hs.symm.trans (fromUTF8_strBytes "")))

theorem textBytes_of_readText {len : UInt32} {d rest : List UInt8}
    (h : (readText unfilled len).run d = .ok (s, rest)) : (textBytes s).length = len.toNat := by
  obtain ⟨b, d1, hb, h⟩ := run_bind_eq_ok.mp h
  obtain ⟨-, d2, -, h⟩ := run_bind_eq_ok.mp h
  obtain ⟨hlen, -⟩ := read_eq_ok.mp hb
  split at h
  · rename_i t ht
    obtain ⟨rfl, -⟩ := run_pure_eq_ok.mp h
    rw [textBytes, String.ofList_toList, strBytes_of_fromUTF8 ht, hlen]
  · cases h

/-- The word that starts with the zeros behind a text is a method's length only if that is 0. -/
theorem readMethod_zero {m : Option Str} {d rest : List UInt8} {j : ℕ} (hj : j < 3)
    (hm : ∀ t ∈ m, 0 < (textBytes t).length ∧ (textBytes t).length ≤ capSlotSize) :
    (readMethod unfilled).run (0 :: List.replicate j 0 ++ (methodRecord pad m ++ d)) ≠
      .ok (m, rest) := by
  intro h
  obtain ⟨len, d1, hlen, h⟩ := run_bind_eq_ok.mp h
  have hword := congrArg (fun bs => leNat (bs.take 4)) (exact_readU32 hlen).2
  simp only [u32Bytes, take_left' (length_leBytes 4 _), leNat_leBytes,
    Nat.mod_eq_of_lt (show len.toNat < 256 ^ 4 from len.toNat_lt)] at hword
  cases m with
  | none =>
    split_ifs at h with hnone
    · rw [hnone, cons_append, take_succ_cons, leNat] at hword
      have : (0xFFFFFFFF : UInt32).toNat = 4294967295 := rfl
      have : (0 : UInt8).toNat = 0 := rfl
      omega
    · obtain ⟨t, -, hnone⟩ := run_map_eq_ok.mp h
      cases hnone
  | some t =>
    obtain ⟨hpos, hle⟩ := hm t rfl
    split_ifs at h with hnone
    · exact absurd (run_pure_eq_ok.mp h).1 (by simp)
    obtain ⟨t', ht', heq⟩ := run_map_eq_ok.mp h
    obtain rfl := Option.some.inj heq
    have hsize := textBytes_of_readText ht'
    have hbytes : ∀ n : ℕ, (UInt8.ofNat n).toNat = n % 256 := fun n => UInt8.toNat_ofNat'
    unfold capSlotSize at hle
    simp only [methodRecord, Option.elim, textRecord, lenBytes, u32Bytes,
      toNat_ofNat_len (show (textBytes t').length < 2 ^ 32 by omega), leBytes] at hword
    interval_cases j <;>
      simp [leNat, hbytes] at hword <;> omega

/-- **By the documented layout a valid capability is read from its record only if its texts take
whole words**: otherwise the zeros behind the path are taken for the start of the method's length,
or those behind the method for the permission. -/
theorem whole_of_readCap (hv : validateCap c = .ok ()) (hneed : need c ≤ capSlotSize)
    {rest rest' : List UInt8}
    (h : (readCap unfilled).run (capRecord pad c ++ rest) = .ok (c, rest')) : Whole c := by
  have hm : ∀ t ∈ c.method, 0 < (textBytes t).length ∧ (textBytes t).length ≤ capSlotSize := by
    intro t ht
    rw [need, mem_def.mp ht, Option.elim] at hneed
    refine ⟨length_pos_of_ne_nil fun hnil => ?_, by omega⟩
    obtain rfl := eq_nil_of_textBytes hnil
    unfold validateCap at hv
    rw [mem_def.mp ht] at hv
    split_ifs at hv with _ hbad
    exact hbad rfl
  have htext : ∀ t : Str, (textBytes t).length ≤ capSlotSize →
      Reads (readText unfilled (UInt32.ofNat (textBytes t).length)) (textBytes t) t := by
    intro t ht
    unfold capSlotSize at ht
    simpa [unfilled] using reads_readText unfilled (s := t) (by omega)
  have hpath : (textBytes c.path).length ≤ capSlotSize := by
    unfold need at hneed
    omega
  rw [readCap, capRecord, textRecord, append_assoc, append_assoc, append_assoc, lenBytes,
    (reads_readU32 _).run_bind, (htext _ hpath).run_bind] at h
  obtain ⟨m, d, hmethod, h⟩ := run_bind_eq_ok.mp h
  obtain ⟨b, d', hb, h⟩ := run_bind_eq_ok.mp h
  obtain ⟨-, d'', -, h⟩ := run_bind_eq_ok.mp h
  split at h
  case h_2 => cases h
  rename_i perm hperm
  obtain ⟨heq, -⟩ := run_pure_eq_ok.mp h
  obtain rfl : c.method = m := by rw [heq]
  by_cases hwhole : (textBytes c.path).length % 4 = 0
  · refine ⟨hwhole, fun t ht => ?_⟩
    by_contra hne
    obtain ⟨j, -, hpad⟩ := pad_eq_cons hne
    have hreads := reads_readMethod unfilled c.method fun t ht => by
      have := (hm t ht).2
      unfold capSlotSize at this
      omega
    have hsplit : methodRecord pad c.method = methodRecord unfilled c.method ++
        0 :: List.replicate j 0 := by
      rw [mem_def.mp ht]
      simp [methodRecord, textRecord, unfilled, hpad]
    rw [pad_eq_nil hwhole, nil_append, hsplit, append_assoc, append_assoc, hreads] at hmethod
    cases hmethod
    obtain ⟨-, hzero⟩ := exact_readU8 hb
    obtain rfl : 0 = b := (cons.inj hzero).1
    cases hperm
  · obtain ⟨j, hj, hpad⟩ := pad_eq_cons hwhole
    rw [hpad, append_assoc] at hmethod
    exact absurd hmethod (readMethod_zero hj hm)

theorem whole_of_times : ∀ {cs : List Cap} {rest rest' : List UInt8},
    (∀ c ∈ cs, validateCap c = .ok ()) → (∀ c ∈ cs, need c ≤ capSlotSize) →
    (times (readCap unfilled) cs.length).run (cs.flatMap (capRecord pad) ++ rest) =
      .ok (cs, rest') → ∀ c ∈ cs, Whole c
  | [], _, _, _, _, _ => nofun
  | c :: cs, rest, rest', hv, hneed, h => by
    obtain ⟨hvc, hvs⟩ := forall_mem_cons.mp hv
    obtain ⟨hneedc, hneeds⟩ := forall_mem_cons.mp hneed
    rw [length_cons, times, flatMap_cons, append_assoc] at h
    obtain ⟨a, d, hc, h⟩ := run_bind_eq_ok.mp h
    obtain ⟨as, has, heq⟩ := run_map_eq_ok.mp h
    obtain ⟨rfl, rfl⟩ := cons.inj heq
    have hwhole := whole_of_readCap hvc hneedc hc
    rw [hwhole.capRecord_eq, reads_readCap unfilled hneedc] at hc
    cases hc
    exact forall_mem_cons.mpr ⟨hwhole, whole_of_times hvs hneeds has⟩

theorem mem_fitting_iff : ∀ {cs : List Cap} {off : ℕ}, c ∈ fitting off cs ↔
    ∃ before after, cs = before ++ c :: after ∧
      off + (before.flatMap (capRecord pad)).length + need c ≤ capSlotSize
  | [], _ => by simp [fitting]
  | d :: cs, off => by
    have hrecord := (length_capRecord d).2.2
    have hneed : 20 ≤ need c := by
      unfold need
      omega
    rw [fitting]
    split_ifs with htest
    · refine iff_of_false (by simp) ?_
      rintro ⟨before, after, heq, hle⟩
      cases before with
      | nil =>
        obtain ⟨rfl, -⟩ := cons.inj heq
        simp at hle
        omega
      | cons e before =>
        obtain ⟨rfl, -⟩ := cons.inj heq
        rw [flatMap_cons, length_append] at hle
        omega
    · rw [mem_cons, mem_fitting_iff]
      constructor
      · rintro (rfl | ⟨before, after, rfl, hle⟩)
        · exact ⟨[], cs, rfl, by simpa using not_lt.mp htest⟩
        · refine ⟨d :: before, after, rfl, ?_⟩
          rw [flatMap_cons, length_append]
          omega
      · rintro ⟨before, after, heq, hle⟩
        cases before with
        | nil => exact .inl (cons.inj heq).1.symm
        | cons e before =>
          obtain ⟨rfl, rfl⟩ := cons.inj heq
          rw [flatMap_cons, length_append] at hle
          exact .inr ⟨before, after, rfl, by omega⟩

theorem Documented.whole {caps : List Cap} (hv : ∀ c ∈ caps, validateCap c = .ok ())
    (h : Documented caps) : ∀ c ∈ fitting 4 caps, Whole c := by
  obtain ⟨page, k, hpage', -, rfl, ⟨rest, hrun⟩, -⟩ := h
  obtain ⟨n, hpage, -⟩ := serializeToPage_eq caps
  obtain ⟨hpre, hneed, -, -⟩ := fitting_spec caps (show 4 ≤ capSlotSize by decide)
  obtain rfl := Option.some.inj (hpage.symm.trans hpage')
  rw [count_page, ← prefix_iff_eq_take.mp hpre, readPage, lenBytes, (reads_readU32 _).run_bind,
    toNat_ofNat_len (length_fitting_lt caps)] at hrun
  exact whole_of_times (fun c hc => hv c (hpre.subset hc)) hneed hrun

/-- **The page of valid capabilities reads as documented exactly if every one that finds room has
texts of whole words, and the last one finds room if the records fit.** -/
theorem documented_iff {caps : List Cap} (hv : ∀ c ∈ caps, validateCap c = .ok ()) :
    Documented caps ↔
      (∀ before c after, caps = before ++ c :: after → Room before c → Whole c) ∧
      (4 + (caps.flatMap (capRecord unfilled)).length ≤ capSlotSize →
        ∀ c ∈ caps.getLast?, Room caps.dropLast c) := by
  obtain ⟨page, k, hpage, hlen, hk, -, hlast⟩ := serializeToPage_prefix caps
  obtain ⟨hpre, hneed, -, -⟩ := fitting_spec caps (show 4 ≤ capSlotSize by decide)
  constructor
  · intro h
    refine ⟨fun before c after heq hroom => h.whole hv c (mem_fitting_iff.mpr ?_), ?_⟩
    · exact ⟨before, after, heq, hroom⟩
    · obtain ⟨page', k', hpage', -, hk', -, hall⟩ := h
      obtain rfl := Option.some.inj (hpage.symm.trans hpage')
      exact fun hfit => hlast.mp (hk.symm.trans (hk'.trans (hall hfit)))
  · rintro ⟨hwhole, hroom⟩
    obtain ⟨n, hpage', -⟩ := serializeToPage_eq caps
    obtain rfl := Option.some.inj (hpage.symm.trans hpage')
    refine ⟨_, k, hpage, hlen, hk, ?_, fun hfit => hlast.mpr (hroom hfit)⟩
    rw [← hk, count_page, ← prefix_iff_eq_take.mp hpre]
    refine ⟨_, reads_counted (length_fitting_lt caps) (Reads.times fun c hc => ?_) _⟩
    obtain ⟨before, after, heq, hle⟩ := mem_fitting_iff.mp hc
    rw [(hwhole before c after heq hle).capRecord_eq]
    exact reads_readCap unfilled (hneed c hc)

instance (c : Cap) : Decidable (Whole c) := inferInstanceAs (Decidable (_ ∧ _))

/-- Two capabilities whose texts are whole words. -/
def wholeCaps : List Cap := [⟨"a/bc".toList, some "read".toList, .rw⟩, ⟨[], none, .r⟩]

theorem wholeCaps_documented : Documented wholeCaps := by
  have hwhole : ∀ c ∈ wholeCaps, Whole c := by decide +kernel
  refine (documented_iff (by decide +kernel)).mpr ⟨fun before c after heq _ => hwhole c ?_, ?_⟩
  · rw [heq]
    exact mem_append_cons_self
  · rintro - c hc
    obtain rfl : ⟨[], none, .r⟩ = c := Option.some.inj hc
    show _ ≤ capSlotSize
    decide +kernel

/-- `a/bcd` is filled up with three zeros, which the docstring's reader takes for the start of the
method's length. -/
def filledCap : Cap := ⟨"a/bcd".toList, some "m".toList, .rw⟩

theorem filledCap_not_documented : validateCap filledCap = .ok () ∧ ¬ Documented [filledCap] := by
  refine ⟨by decide +kernel, fun h => ?_⟩
  have hwhole := h.whole (by decide +kernel) filledCap (by decide +kernel)
  revert hwhole
  decide +kernel

/-- A list of valid capabilities that takes the whole window is cut: the last of its records of 12
bytes does not find the 20 bytes of the test. -/
theorem fitting_cut : ∃ caps : List Cap, (∀ c ∈ caps, validateCap c = .ok ()) ∧
    4 + (caps.flatMap (capRecord pad)).length = capSlotSize ∧
    ∃ page, serializeToPage caps = some page ∧ leNat (page.take 4) < caps.length := by
  have hrecord : (capRecord pad ⟨[], none, .r⟩).length = 12 := by decide +kernel
  have hneed : need ⟨[], none, .r⟩ = 20 := by decide +kernel
  obtain ⟨n, hpage, -⟩ := serializeToPage_eq (List.replicate 1365 ⟨[], none, .r⟩)
  refine ⟨_, fun c hc => ?_, ?_, _, hpage, ?_⟩
  · rw [eq_of_mem_replicate hc]
    rfl
  · simp [-List.reduceReplicate, hrecord, capSlotSize]
  · rw [count_page]
    refine (fitting_spec _ (show 4 ≤ capSlotSize by decide)).1.length_le.lt_of_ne fun heq => ?_
    have := (length_fitting_iff _).mp heq ⟨[], none, .r⟩ getLast?_replicate
    simp [-List.reduceReplicate, hrecord, hneed, capSlotSize] at this

end Bedrock
