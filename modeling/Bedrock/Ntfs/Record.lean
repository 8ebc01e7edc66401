import Bedrock.Caps.Cap
import Bedrock.Lib.Bytes
import Bedrock.Lib.Outcome

/-!
# Ntfs/Record — the update sequence of a record

A record of several sectors is protected against torn writes: the last word of each sector is saved
in an array inside the record and replaced by the update sequence number.

    sector 0 … tail₀ | sector 1 … tail₁ | …          array: usn, tail₀, tail₁, …
    sector 0 …  usn  | sector 1 …  usn  | …

The loop that puts the words back begins at sector 1 with the first saved word, the one of sector 0:
each sector gets the word of the sector before it, and sector 0 none (`shifted`).
-/

namespace Bedrock.Ntfs

open Outcome List

/-- `uN_at`, with the error that every caller makes of a field outside the bytes. -/
def fieldAt (k : ℕ) (d : List UInt8) (o : ℕ) : Outcome VfsError ℕ := do
  let e ← word (o + k)
  failIf (d.length < e) .ioError
  pure (natAt k d o)

def u16At : List UInt8 → ℕ → Outcome VfsError ℕ := fieldAt 2
def u32At : List UInt8 → ℕ → Outcome VfsError ℕ := fieldAt 4
def u64At : List UInt8 → ℕ → Outcome VfsError ℕ := fieldAt 8

/-- The loop of `usa_fixup`: so many sectors are left, from `sector` on, and `idx` is the place of
the next saved word. -/
def restoreTails (sectorSize usn : ℕ) : ℕ → ℕ → ℕ → List UInt8 → Outcome VfsError (List UInt8)
  | 0, _, _, data => pure data
  | n + 1, sector, idx, data => do
    let next ← word (sector * sectorSize + sectorSize)
    let tail ← sub next 2
    let behind ← word (tail + 2)
    failIf (data.length < behind) .ioError
    let tailVal ← u16At data tail
    failIf (tailVal ≠ usn) .ioError
    let saved ← u16At data idx
    let data ← setAt data tail (UInt8.ofNat saved)
    let data ← setAt data (tail + 1) (UInt8.ofNat (saved / 256))
    restoreTails sectorSize usn n (sector + 1) (idx + 2) data

/-- `usa_fixup`. -/
def usaFixup (data : List UInt8) (sectorSize : ℕ) : Outcome VfsError (List UInt8) := do
  let usaOff ← u16At data 0x04
  let usaCount ← u16At data 0x06
  failIf (usaOff < 0x08 ∨ usaCount < 1) .ioError
  let sectors ← div data.length sectorSize
  failIf (data.length % sectorSize ≠ 0 ∨ data.length < sectorSize) .ioError
  failIf (data.length < usaOff + usaCount * 2) .ioError
  let usn ← u16At data usaOff
  let tail ← sub sectorSize 2
  let tail0 ← u16At data tail
  failIf (tail0 ≠ usn) .ioError
  failIf (usaCount < sectors + 1) .ioError
  let tailsAvailable := (usaOff + usaCount * 2 - (usaOff + 2)) / 2
  failIf (tailsAvailable < sectors) .ioError
  restoreTails sectorSize usn (sectors - 1) 1 (usaOff + 2) data

/-! ## Fields -/

variable {data : List UInt8} {k o : ℕ}

theorem fieldAt_of_le (h : o + k ≤ data.length) (hd : data.length < 2 ^ 64) :
    fieldAt k data o = ok (natAt k data o) := by
  rw [fieldAt, word_of_lt (by omega), ok_bind, failIf_neg (by omega), ok_bind, pure_eq]

theorem ensures_fieldAt (h : o + k < 2 ^ 64) :
    Ensures (fieldAt k data o) fun v => o + k ≤ data.length ∧ v = natAt k data o := by
  refine (Ensures.word h).bind ?_
  rintro _ rfl
  refine Ensures.guard fun hl => ?_
  exact .pure ⟨by omega, rfl⟩

/-! ## One sector after the other -/

/-- The place of the last word of a sector. -/
def tailAt (sectorSize i : ℕ) : ℕ := i * sectorSize + sectorSize - 2

variable {ss usn n s idx : ℕ}

theorem tailAt_add_two (hss : 2 ≤ ss) (i : ℕ) : tailAt ss i + 2 = (i + 1) * ss := by
  rw [tailAt, Nat.succ_mul]
  omega

theorem tailAt_apart (hss : 2 ≤ ss) {i j : ℕ} (h : i < j) : tailAt ss i + 2 ≤ tailAt ss j := by
  have hij : (i + 1) * ss + ss ≤ (j + 1) * ss := by
    rw [← Nat.succ_mul]
    exact Nat.mul_le_mul_right ss (by omega)
  have hi := tailAt_add_two hss i
  have hj := tailAt_add_two hss j
  omega

theorem tailAt_le_length (hss : 2 ≤ ss) {i k : ℕ} (hi : i < k) : tailAt ss i + 2 ≤ k * ss := by
  rw [tailAt_add_two hss]
  exact Nat.mul_le_mul_right ss hi

/-- One sector of the loop, with everything in range. -/
theorem restoreTails_succ (hss : 2 ≤ ss) (hd : data.length < 2 ^ 64)
    (ht : tailAt ss s + 2 ≤ data.length) (hi : idx + 2 ≤ data.length) :
    restoreTails ss usn (n + 1) s idx data =
      if natAt 2 data (tailAt ss s) = usn then
        restoreTails ss usn n (s + 1) (idx + 2)
          (putWord data (tailAt ss s) (natAt 2 data idx))
      else err .ioError := by
  have hnext : s * ss + ss = tailAt ss s + 2 := by
    rw [tailAt]
    omega
  rw [restoreTails, hnext, word_of_lt (by omega), ok_bind, sub_of_le (by omega), ok_bind,
    Nat.add_sub_cancel, word_of_lt (by omega), ok_bind, failIf_neg (by omega), ok_bind, u16At,
    fieldAt_of_le ht hd, ok_bind]
  by_cases hu : natAt 2 data (tailAt ss s) = usn
  · rw [if_pos hu, failIf_neg (not_not_intro hu), ok_bind, fieldAt_of_le hi hd, ok_bind,
      setAt_of_lt (by omega), ok_bind, setAt_of_lt (by rw [length_set]; omega)]
    rfl
  · rw [if_neg hu, failIf_pos hu, err_bind]

/-- **The loop ends well only if each word is the number.** -/
theorem ensures_restoreTails (hss : 2 ≤ ss) : ∀ {n s idx : ℕ} {data : List UInt8},
    data.length < 2 ^ 64 → (s + n) * ss ≤ data.length → idx + 2 * n < 2 ^ 64 →
    Ensures (restoreTails ss usn n s idx data) fun d =>
      d.length = data.length ∧ ∀ i < n, natAt 2 data (tailAt ss (s + i)) = usn
  | 0, _, _, _, _, _, _ => .pure ⟨rfl, fun _ h => absurd h (Nat.not_lt_zero _)⟩
  | n + 1, s, idx, data, hd, ht, hi => by
    have hfirst : tailAt ss s + 2 ≤ data.length :=
      le_trans (tailAt_le_length hss (by omega)) ht
    have hnext : s * ss + ss = tailAt ss s + 2 := by
      rw [tailAt]
      omega
    refine (Ensures.word (by omega)).bind ?_
    rintro _ rfl
    refine (Ensures.sub (by omega)).bind ?_
    rintro _ rfl
    refine (Ensures.word (by omega)).bind ?_
    rintro _ rfl
    refine Ensures.guard fun _ => ?_
    refine (ensures_fieldAt (by omega)).bind ?_
    rintro _ ⟨-, rfl⟩
    refine .guard fun hu => ?_
    refine (ensures_fieldAt (by omega)).bind fun saved _ => ?_
    refine (Ensures.setAt (by omega) _).bind ?_
    rintro _ rfl
    refine (Ensures.setAt (by rw [length_set]; omega) _).bind ?_
    rintro _ rfl
    change Ensures (restoreTails ss usn n (s + 1) (idx + 2) (putWord data (tailAt ss s) saved)) _
    refine (ensures_restoreTails hss (by simpa using hd) ?_ (by omega)).mono ?_
    · rw [length_putWord, show s + 1 + n = s + (n + 1) by omega]
      exact ht
    · rintro d ⟨hlen, htails⟩
      refine ⟨by rw [hlen, length_putWord], fun i hin => ?_⟩
      obtain _ | i := i
      · exact not_not.mp hu
      · -- the word just written stands before all that are still to be looked at
        rw [show s + (i + 1) = s + 1 + i by omega, ← htails i (by omega),
          natAt_putWord_apart (.inr (tailAt_apart hss (by omega)))]

/-- If each word is the number, each gets the next word of the array. -/
theorem restoreTails_restores (hss : 2 ≤ ss) : ∀ {n s idx : ℕ} {data : List UInt8},
    data.length < 2 ^ 64 → (s + n) * ss ≤ data.length → idx + 2 * n ≤ data.length →
    (∀ i < n, natAt 2 data (tailAt ss (s + i)) = usn) →
    (∀ i < n, idx + 2 * n ≤ tailAt ss (s + i) ∨ tailAt ss (s + i) + 2 ≤ idx) →
    restoreTails ss usn n s idx data = ok (putWords
      ((List.range n).map fun i => (tailAt ss (s + i), natAt 2 data (idx + 2 * i))) data)
  | 0, _, _, _, _, _, _, _, _ => rfl
  | n + 1, s, idx, data, hd, ht, hi, hu, ha => by
    have hs : idx + 2 * (n + 1) ≤ tailAt ss s ∨ tailAt ss s + 2 ≤ idx := ha 0 (by omega)
    have hfirst : natAt 2 data (tailAt ss s) = usn := hu 0 (by omega)
    rw [restoreTails_succ hss hd (le_trans (tailAt_le_length hss (by omega)) ht) (by omega),
      if_pos hfirst, restoreTails_restores hss]
    · -- the words of the array still to be read are apart from the one just written
      have hread : ∀ i < n, natAt 2 (putWord data (tailAt ss s) (natAt 2 data idx))
          (idx + 2 + 2 * i) = natAt 2 data (idx + 2 * (i + 1)) := fun i hin => by
        rw [natAt_putWord_apart (by omega)]
        congr 1
        omega
      rw [range_succ_eq_map, map_cons, map_map, putWords_cons]
      congr 2
      refine map_congr_left fun i hin => ?_
      rw [hread i (mem_range.mp hin), Function.comp_apply,
        show s + 1 + i = s + i.succ by omega]
    · simpa using hd
    · rw [length_putWord, show s + 1 + n = s + (n + 1) by omega]
      exact ht
    · simp
      omega
    · intro i hin
      rw [natAt_putWord_apart (.inr (tailAt_apart hss (by omega))),
        show s + 1 + i = s + (i + 1) by omega]
      exact hu (i + 1) (by omega)
    · intro i hin
      have := ha (i + 1) (by omega)
      rw [show s + 1 + i = s + (i + 1) by omega]
      omega

/-! ## The fixup -/

/-- Where the array of a record is. -/
def usaOff (d : List UInt8) : ℕ := natAt 2 d 0x04

/-- …and how many words it has. -/
def usaCount (d : List UInt8) : ℕ := natAt 2 d 0x06

/-- **The fixup does not panic, and what passes it ends each sector in the number.** -/
theorem ensures_usaFixup (hss : 2 ≤ ss) (hd : data.length < 2 ^ 64) :
    Ensures (usaFixup data ss) fun d => d.length = data.length ∧
      ∀ i < data.length / ss, natAt 2 data (tailAt ss i) = natAt 2 data (usaOff data) := by
  refine (ensures_fieldAt (by omega)).bind ?_
  rintro _ ⟨-, rfl⟩
  refine (ensures_fieldAt (by omega)).bind ?_
  rintro _ ⟨-, rfl⟩
  refine Ensures.guard fun _ => ?_
  refine (Ensures.div (by omega)).bind ?_
  rintro _ rfl
  refine Ensures.guard fun hlen => ?_
  refine .guard fun hin => ?_
  refine (ensures_fieldAt (by omega)).bind ?_
  rintro _ ⟨-, rfl⟩
  refine (Ensures.sub hss).bind ?_
  rintro _ rfl
  refine (ensures_fieldAt (by omega)).bind ?_
  rintro _ ⟨-, rfl⟩
  refine .guard fun hfirst => ?_
  refine .guard fun hcount => ?_
  refine .guard fun _ => ?_
  have hpos : 0 < data.length / ss := Nat.div_pos (by omega) (by omega)
  refine (ensures_restoreTails hss hd ?_ (by omega)).mono ?_
  · rw [show 1 + (data.length / ss - 1) = data.length / ss by omega]
    exact Nat.div_mul_le_self _ _
  · rintro d ⟨hd', htails⟩
    refine ⟨hd', fun i hi => ?_⟩
    obtain _ | i := i
    · rw [show tailAt ss 0 = ss - 2 by rw [tailAt]; omega]
      exact not_not.mp hfirst
    · rw [show i + 1 = 1 + i by omega]
      exact htails i (by omega)

/-- The fixup of bytes that pass the checks before the loop. -/
theorem usaFixup_eq {k : ℕ} (hss : 10 ≤ ss) (hk : 0 < k) (hd : data.length < 2 ^ 64)
    (hlen : data.length = k * ss) (hoff : 8 ≤ usaOff data) (hcount : k + 1 ≤ usaCount data)
    (hin : usaOff data + usaCount data * 2 ≤ data.length) : usaFixup data ss =
      if natAt 2 data (tailAt ss 0) = natAt 2 data (usaOff data) then
        restoreTails ss (natAt 2 data (usaOff data)) (k - 1) 1 (usaOff data + 2) data
      else err .ioError := by
  have hone : ss ≤ data.length := by
    rw [hlen]
    exact Nat.le_mul_of_pos_left ss hk
  have hsect : data.length / ss = k := by
    rw [hlen, Nat.mul_div_cancel k (by omega)]
  have hmod : data.length % ss = 0 := by
    rw [hlen, Nat.mul_mod_left]
  have htail : ss - 2 = tailAt ss 0 := by
    rw [tailAt]
    omega
  have hsum : usaOff data + usaCount data * 2 - (usaOff data + 2) = (usaCount data - 1) * 2 := by
    omega
  rw [usaFixup, u16At, fieldAt_of_le (by omega) hd, ok_bind, fieldAt_of_le (by omega) hd, ok_bind]
  change failIf (usaOff data < 8 ∨ usaCount data < 1) _ >>= _ = _
  rw [failIf_neg (by omega), ok_bind, div_of_ne (by omega), ok_bind, failIf_neg (by omega), ok_bind]
  change failIf (data.length < usaOff data + usaCount data * 2) _ >>= _ = _
  rw [failIf_neg (by omega), ok_bind]
  change fieldAt 2 data (usaOff data) >>= _ = _
  rw [fieldAt_of_le (by omega) hd, ok_bind, sub_of_le (by omega), ok_bind, htail,
    fieldAt_of_le (by rw [← htail]; omega) hd, ok_bind, hsect]
  by_cases hu : natAt 2 data (tailAt ss 0) = natAt 2 data (usaOff data)
  · rw [if_pos hu, failIf_neg (not_not_intro hu), ok_bind]
    change failIf (usaCount data < k + 1) _ >>= _ = _
    rw [failIf_neg (by omega), ok_bind]
    change failIf ((usaOff data + usaCount data * 2 - (usaOff data + 2)) / 2 < k) _ >>= _ = _
    rw [hsum, Nat.mul_div_cancel _ (by decide), failIf_neg (by omega)]
    rfl
  · rw [if_neg hu, failIf_pos hu, err_bind]

/-! ## Records protected as the format defines

`usaFixup` is compared with what the writer of the record does. -/

/-- A record of `k` sectors with room for its array, which is apart from the words it saves. -/
structure Layout (r : List UInt8) (ss k : ℕ) : Prop where
  length_lt : r.length < 2 ^ 64
  length_eq : r.length = k * ss
  pos : 0 < k
  header : 10 ≤ ss
  off : 8 ≤ usaOff r
  count : k + 1 ≤ usaCount r
  inside : usaOff r + usaCount r * 2 ≤ r.length
  apart : ∀ i < k, tailAt ss i + 2 ≤ usaOff r ∨ usaOff r + 2 * (k + 1) ≤ tailAt ss i

/-- The words of the array. -/
def arrayWords (r : List UInt8) (ss k usn : ℕ) : List (ℕ × ℕ) :=
  (usaOff r, usn) :: (List.range k).map fun i => (usaOff r + 2 + 2 * i, natAt 2 r (tailAt ss i))

/-- The original record, with its array filled in. -/
def filled (r : List UInt8) (ss k usn : ℕ) : List UInt8 := putWords (arrayWords r ss k usn) r

/-- The record as it is written: the last word of each sector is the number. -/
def protect (r : List UInt8) (ss k usn : ℕ) : List UInt8 :=
  putWords ((List.range k).map fun i => (tailAt ss i, usn)) (filled r ss k usn)

section Protect

variable {r : List UInt8} {k u i p : ℕ}

variable (h : Layout r ss k)
include h

theorem Layout.tail_le (hi : i < k) : tailAt ss i + 2 ≤ r.length := by
  rw [h.length_eq]
  exact tailAt_le_length (le_trans (by decide) h.header) hi

theorem Layout.eight_le_tail (i : ℕ) : 8 ≤ tailAt ss i := by
  have := h.header
  rw [tailAt]
  omega

theorem Layout.array_le : usaOff r + 2 * (k + 1) ≤ r.length := by
  have := h.inside
  have := h.count
  omega

omit h in
theorem mem_arrayWords {x : ℕ × ℕ} (hx : x ∈ arrayWords r ss k u) :
    ∃ j ≤ k, x.1 = usaOff r + 2 * j := by
  obtain rfl | hx := mem_cons.mp hx
  · exact ⟨0, Nat.zero_le k, rfl⟩
  · obtain ⟨i, hi, rfl⟩ := mem_map.mp hx
    refine ⟨i + 1, mem_range.mp hi, ?_⟩
    change usaOff r + 2 + 2 * i = _
    omega

omit h in
theorem pairwise_arrayWords (r : List UInt8) (ss k u : ℕ) :
    (arrayWords r ss k u).Pairwise fun x y => x.1 + 2 ≤ y.1 ∨ y.1 + 2 ≤ x.1 := by
  refine pairwise_cons.mpr ⟨fun x hx => ?_, ?_⟩
  · obtain ⟨i, -, rfl⟩ := mem_map.mp hx
    exact .inl (by simp)
  · refine pairwise_map.mpr (pairwise_lt_range.imp fun hij => .inl ?_)
    simp only
    omega

omit h in
theorem pairwise_tails (hss : 2 ≤ ss) (f : ℕ → ℕ) (k s : ℕ) :
    ((List.range k).map fun i => (tailAt ss (s + i), f i)).Pairwise
      fun x y => x.1 + 2 ≤ y.1 ∨ y.1 + 2 ≤ x.1 :=
  pairwise_map.mpr
    (pairwise_lt_range.imp fun hij => .inl (tailAt_apart hss (by omega)))

omit h in
/-- The words of the array do not reach the header, nor the ends of the sectors. -/
theorem natAt_filled {n : ℕ} (hp : p + n ≤ usaOff r ∨ usaOff r + 2 * (k + 1) ≤ p) :
    natAt n (filled r ss k u) p = natAt n r p :=
  natAt_putWords_apart fun x hx => by
    obtain ⟨j, hj, hx⟩ := mem_arrayWords hx
    omega

omit h in
theorem natAt_protect_array {n : ℕ} (hp : ∀ i < k, p + n ≤ tailAt ss i ∨ tailAt ss i + 2 ≤ p) :
    natAt n (protect r ss k u) p = natAt n (filled r ss k u) p :=
  natAt_putWords_apart fun x hx => by
    obtain ⟨i, hi, rfl⟩ := mem_map.mp hx
    exact hp i (mem_range.mp hi)

theorem Layout.natAt_protect_header (hp : p + 2 ≤ 8) :
    natAt 2 (protect r ss k u) p = natAt 2 r p := by
  rw [natAt_protect_array fun i _ => .inl (le_trans hp (h.eight_le_tail i)),
    natAt_filled (.inl (le_trans hp h.off))]

theorem Layout.natAt_protect_tail (hu : u < 65536) (hi : i < k) :
    natAt 2 (protect r ss k u) (tailAt ss i) = u := by
  have hss : 2 ≤ ss := le_trans (by decide) h.header
  refine natAt_putWords ?_ (mem_map.mpr ⟨i, mem_range.mpr hi, rfl⟩) ?_ hu
  · simpa using pairwise_tails hss (fun _ => u) k 0
  · rw [filled, length_putWords]
    exact h.tail_le hi

/-- Entry `j` of the array of the protected record. -/
theorem Layout.natAt_protect_entry {j w : ℕ} (hj : j ≤ k)
    (hm : (usaOff r + 2 * j, w) ∈ arrayWords r ss k u) (hw : w < 65536) :
    natAt 2 (protect r ss k u) (usaOff r + 2 * j) = w := by
  rw [natAt_protect_array fun i hi => by
    have := h.apart i hi
    omega]
  refine natAt_putWords (pairwise_arrayWords r ss k u) hm ?_ hw
  have := h.array_le
  omega

/-- What the fixup makes of a protected record. -/
def shifted (r : List UInt8) (ss k u : ℕ) : List UInt8 :=
  putWords ((List.range (k - 1)).map fun i => (tailAt ss (1 + i), natAt 2 r (tailAt ss i)))
    (protect r ss k u)

theorem Layout.usaFixup_protect (hu : u < 65536) :
    usaFixup (protect r ss k u) ss = ok (shifted r ss k u) := by
  have hss : 2 ≤ ss := le_trans (by decide) h.header
  have hlen : (protect r ss k u).length = r.length := by
    rw [protect, filled, length_putWords, length_putWords]
  have hoff : usaOff (protect r ss k u) = usaOff r := h.natAt_protect_header (by decide)
  have hcount : usaCount (protect r ss k u) = usaCount r := h.natAt_protect_header (by decide)
  have husn : natAt 2 (protect r ss k u) (usaOff r) = u :=
    h.natAt_protect_entry (Nat.zero_le k) mem_cons_self hu
  have hk := h.pos
  have harray := h.array_le
  have hlt := h.length_lt
  rw [usaFixup_eq h.header h.pos (hlen ▸ hlt) (by rw [hlen, h.length_eq])
    (hoff ▸ h.off) (hcount ▸ h.count)
    (by rw [hoff, hcount, hlen]; exact h.inside), hoff, husn,
    if_pos (h.natAt_protect_tail hu h.pos), restoreTails_restores hss]
  · refine congrArg (fun ws => ok (putWords ws _)) (map_congr_left fun i hi => ?_)
    have hi := mem_range.mp hi
    rw [show usaOff r + 2 + 2 * i = usaOff r + 2 * (i + 1) by omega,
      h.natAt_protect_entry (by omega) (mem_cons_of_mem _ (mem_map.mpr
        ⟨i, mem_range.mpr (by omega), by
          rw [show usaOff r + 2 + 2 * i = usaOff r + 2 * (i + 1) by omega]⟩)) (natAt_lt 2 r _)]
  · rw [hlen]
    exact hlt
  · rw [hlen, h.length_eq, show 1 + (k - 1) = k by omega]
  · omega
  · exact fun i hi => h.natAt_protect_tail hu (by omega)
  · intro i hi
    have := h.apart (1 + i) (by omega)
    omega

theorem Layout.natAt_filled_tail (hi : i < k) :
    natAt 2 (filled r ss k u) (tailAt ss i) = natAt 2 r (tailAt ss i) :=
  natAt_filled (h.apart i hi)

theorem Layout.natAt_shifted_zero (hu : u < 65536) :
    natAt 2 (shifted r ss k u) (tailAt ss 0) = u := by
  refine Eq.trans (natAt_putWords_apart fun x hx => ?_) (h.natAt_protect_tail hu h.pos)
  obtain ⟨i, -, rfl⟩ := mem_map.mp hx
  exact .inl (tailAt_apart (le_trans (by decide) h.header) (by omega))

theorem Layout.natAt_shifted_succ (hi : i + 1 < k) :
    natAt 2 (shifted r ss k u) (tailAt ss (i + 1)) = natAt 2 r (tailAt ss i) := by
  refine natAt_putWords (pairwise_tails (le_trans (by decide) h.header) _ _ 1)
    (mem_map.mpr ⟨i, mem_range.mpr (by omega), by rw [Nat.add_comm 1 i]⟩) ?_
    (natAt_lt 2 r _)
  rw [protect, filled, length_putWords, length_putWords]
  exact h.tail_le hi

/-- **The record comes back only if no sector ended in anything but the number.** -/
theorem Layout.shifted_eq_filled_iff (hu : u < 65536) :
    shifted r ss k u = filled r ss k u ↔ ∀ i < k, natAt 2 r (tailAt ss i) = u := by
  constructor
  · intro heq i
    induction i with
    | zero =>
      intro hi
      rw [← h.natAt_filled_tail hi, ← heq, h.natAt_shifted_zero hu]
    | succ i ih =>
      intro hi
      rw [← h.natAt_filled_tail hi, ← heq, h.natAt_shifted_succ hi]
      exact ih (by omega)
  · intro hall
    have hlen : (filled r ss k u).length = r.length := by rw [filled, length_putWords]
    have hprotect : protect r ss k u = filled r ss k u := by
      refine putWords_of_natAt fun x hx => ?_
      obtain ⟨i, hi, rfl⟩ := mem_map.mp hx
      have hi := mem_range.mp hi
      rw [hlen, h.natAt_filled_tail hi, hall i hi]
      exact ⟨h.tail_le hi, rfl⟩
    rw [shifted, hprotect]
    refine putWords_of_natAt fun x hx => ?_
    obtain ⟨i, hi, rfl⟩ := mem_map.mp hx
    have hi := mem_range.mp hi
    rw [hlen, h.natAt_filled_tail (by omega), hall i (by omega), hall (1 + i) (by omega)]
    exact ⟨h.tail_le (by omega), rfl⟩

end Protect

/-- **The fixup of a protected record is the original exactly if the original ends each of its
sectors in the update sequence number**; and bytes with another word at the end of a sector are an
error. -/
theorem usaFixup_protect_iff (ss : ℕ) : (∀ (r : List UInt8) (k : ℕ) (usn : UInt16), Layout r ss k →
      (usaFixup (protect r ss k usn.toNat) ss = ok (filled r ss k usn.toNat) ↔
        ∀ i < k, natAt 2 r (tailAt ss i) = usn.toNat)) ∧
    ∀ data : List UInt8, data.length < 2 ^ 64 → 2 ≤ ss →
      (∃ i < data.length / ss, natAt 2 data (tailAt ss i) ≠ natAt 2 data (usaOff data)) →
      ∃ e, usaFixup data ss = err e := by
  refine ⟨fun r k usn h => ?_, fun data hd hss ⟨i, hi, hne⟩ => ?_⟩
  · rw [h.usaFixup_protect usn.toNat_lt, Outcome.ok.injEq]
    exact h.shifted_eq_filled_iff usn.toNat_lt
  · have hall := ensures_usaFixup hss hd
    cases hfix : usaFixup data ss with
    | ok d => exact absurd ((hall.of_ok hfix).2 i hi) hne
    | err e => exact ⟨e, rfl⟩
    | panic => exact absurd hfix hall.ne_panic

/-- A record of two sectors, all zero but for the array's place and the words at the two ends. -/
def twoSectors (w₀ w₁ : ℕ) : List UInt8 :=
  putWords [(0x04, 0x30), (0x06, 3), (510, w₀), (1022, w₁)] (List.replicate 1024 0)

theorem length_twoSectors (w₀ w₁ : ℕ) : (twoSectors w₀ w₁).length = 1024 := by
  rw [twoSectors, length_putWords, length_replicate]

theorem layout_twoSectors {w₀ w₁ : ℕ} (h : usaOff (twoSectors w₀ w₁) = 0x30)
    (h' : usaCount (twoSectors w₀ w₁) = 3) : Layout (twoSectors w₀ w₁) 512 2 where
  length_lt := by rw [length_twoSectors]; decide
  length_eq := length_twoSectors w₀ w₁
  pos := by decide
  header := by decide
  off := by rw [h]; decide
  count := by rw [h']
  inside := by rw [h, h', length_twoSectors]; decide
  apart := by rw [h]; decide

theorem usaFixup_protect_iff_zero :
    usaFixup (protect (twoSectors 7 7) 512 2 7) 512 = ok (filled (twoSectors 7 7) 512 2 7) ∧
    ∃ e, usaFixup (twoSectors 7 7) 512 = err e :=
  ⟨((usaFixup_protect_iff 512).1 (twoSectors 7 7) 2 7
      (layout_twoSectors (by decide +kernel) (by decide +kernel))).mpr (by decide +kernel),
    (usaFixup_protect_iff 512).2 (twoSectors 7 7) (by rw [length_twoSectors]; decide) (by decide)
      ⟨0, by decide +kernel, by decide +kernel⟩⟩

/-- Two sectors that end in 1 and 2, protected with the number 7, come back ending in 7 and 1. -/
theorem usaFixup_protect_ne : Layout (twoSectors 1 2) 512 2 ∧
    usaFixup (protect (twoSectors 1 2) 512 2 7) 512 =
      ok (putWords [(510, 7), (1022, 1)] (filled (twoSectors 1 2) 512 2 7)) ∧
    putWords [(510, 7), (1022, 1)] (filled (twoSectors 1 2) 512 2 7) ≠
      filled (twoSectors 1 2) 512 2 7 :=
  ⟨layout_twoSectors (by decide +kernel) (by decide +kernel), by decide +kernel,
    by decide +kernel⟩

end Bedrock.Ntfs
