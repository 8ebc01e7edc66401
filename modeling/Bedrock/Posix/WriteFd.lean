import Bedrock.Unispace.FileWrite

/-!
# Posix/WriteFd — `write` from the C library down to the file

The kernel has no descriptors: the library keeps a table of open descriptions, each with a path and
an offset, and writes a buffer as a row of positioned writes of at most a mebibyte.

    fd -▸ description -▸ (path, offset)        flags of a chunk: (offset + bytes before it) << 8

The file takes a position of zero as "empty the file first".  So a write at offset 0 leaves nothing
of a longer file behind (`truncated_tail`).
-/

namespace Bedrock.Posix

open Unispace List Option Function

/-! ## The system call -/

/-- `errno`: what an error is to the caller. -/
def errnoOf : UnispaceError → ℤ
  | .notFound => -2
  | .isADirectory => -21
  | .notADirectory => -20
  | .unsupported => -38
  | .invalidPath => -22
  | .decodeError => -22
  | .schemaMismatch => -22
  | .outOfMemory => -12
  | .badAddress => -14
  | .invalidArgument => -22
  | .accessDenied => -13
  | .methodNotFound => -38
  | .vfs _ => -5

theorem errnoOf_neg (e : UnispaceError) : errnoOf e < 0 := by
  cases e <;> exact Int.negSucc_lt_zero _

/-- The kernel: a drive, the regular file that a path leads to, and what a write to any other object
does. -/
structure Kernel (F σ : Type) where
  drive : Drive F σ
  file : List UInt8 → Option F
  other : σ → List UInt8 → List UInt8 → ℕ → ℤ × σ

/-- What else decides about one call: whether the path or the buffer is refused, with which error
the object is not found or not allowed, which way in the file takes, and whether the answer can be
copied out. -/
structure Env where
  refused : Option ℕ
  denied : Option UnispaceError
  declines : Bool
  faults : Bool

variable (l : Libc)

section Call

variable {F σ : Type} (k : Kernel F σ)

/-- `sys_write`.  The answer to a write of a file is empty. -/
def sysWrite (env : Env) (s : σ) (path data : List UInt8) (flags : ℕ) : ℤ × σ :=
  match env.refused with
  | some n => (-(n + 1), s)
  | none =>
    match k.file path with
    | none => k.other s path data flags
    | some f =>
      match env.denied with
      | some e => (errnoOf e, s)
      | none =>
        match writeFile k.drive env.declines s f data flags with
        | (.error e, s) => (errnoOf e, s)
        | (.ok _, s) => if env.faults then (-14, s) else (0, s)

/-! ## The library -/

def IO_CHUNK_BYTES : ℕ := 1024 * 1024

def EBADF : ℕ := 9

def EFAULT : ℕ := 14

def FD_POOL : ℕ := 32

structure FdEntry where
  desc : Option ℕ
  used : Bool

/-- The part of an open description that writing reads. -/
structure Desc where
  path : List UInt8
  offset : ℕ
  writable : Bool
  append : Bool

structure Libc where
  fds : ℕ → FdEntry
  descs : ℕ → Desc
  errno : ℕ

namespace Libc

/-- `fd_ref`. -/
def fdRef (fd : ℤ) : Option FdEntry :=
  if fd < 3 ∨ FD_POOL ≤ fd then none else some (l.fds fd.toNat)

/-- `errno::set`, with the result -1. -/
def fail (e : ℕ) : ℤ × Libc := (-1, { l with errno := e })

/-- `errno::ret`. -/
def ret (r : ℤ) : ℤ × Libc := if r < 0 then l.fail (-r).toNat else (r, l)

/-- `d.offset = offset`. -/
def setOffset (idx offset : ℕ) : Libc :=
  { l with descs := fun i => if i = idx then { l.descs i with offset := offset } else l.descs i }

/-- The offset that a descriptor stands at. -/
def offsetOf (fd : ℕ) : Option ℕ := (l.fds fd).desc.map fun idx => (l.descs idx).offset

end Libc

/-- The loop that the chunked writes share: `flagsOf` is the word for a chunk with so many bytes
before it.  Each round writes a byte at least. -/
def chunkLoop (env : ℕ → Env) (path : List UInt8) (flagsOf : ℕ → ℕ) : ℕ → ℕ → List UInt8 → σ → ℤ × σ
  | 0, _, _, s => (0, s)
  | fuel + 1, off, rest, s =>
    if rest = [] then (0, s)
    else
      let n := min rest.length IO_CHUNK_BYTES
      match sysWrite k (env off) s path (rest.take n) (flagsOf off) with
      | (r, s) =>
        if r < 0 then (r, s) else chunkLoop env path flagsOf fuel (off + n) (rest.drop n) s

/-- …and their result: the length of the data, or the first error. -/
def chunked (env : ℕ → Env) (path : List UInt8) (flagsOf : ℕ → ℕ) (data : List UInt8) (s : σ) :
    ℤ × σ :=
  match chunkLoop k env path flagsOf data.length 0 data s with
  | (r, s) => if r < 0 then (r, s) else (data.length, s)

/-- `chunked_write_append`. -/
def chunkedWriteAppend (env : ℕ → Env) (path data : List UInt8) (s : σ) : ℤ × σ :=
  chunked k env path (fun _ => 0x1) data s

/-- `chunked_write_positioned`. -/
def chunkedWritePositioned (env : ℕ → Env) (path data : List UInt8) (base : ℕ) (s : σ) : ℤ × σ :=
  chunked k env path (fun off => (base + off) * 2 ^ 8 % 2 ^ 64) data s

/-- `write_data`. -/
def writeData (env : ℕ → Env) (path data : List UInt8) (s : σ) : ℤ × σ :=
  chunked k env path (fun _ => 0) data s

/-- The paths of the standard streams. -/
def stdOut : List UInt8 := "/proc/self/std/out".toUTF8.toList

def stdErr : List UInt8 := "/proc/self/std/err".toUTF8.toList

/-- `write_fd`; `null` says that the buffer pointer is null. -/
def writeFd (env : ℕ → Env) (l : Libc) (s : σ) (fd : ℤ) (null : Bool) (data : List UInt8) :
    (ℤ × Libc) × σ :=
  if fd < 0 then (l.fail EBADF, s)
  else if 0 < data.length ∧ null then (l.fail EFAULT, s)
  else if fd = 1 then
    match writeData k env stdOut data s with
    | (r, s) => (l.ret r, s)
  else if fd = 2 then
    match writeData k env stdErr data s with
    | (r, s) => (l.ret r, s)
  else if fd = 0 then (l.fail EBADF, s)
  else
    match l.fdRef fd with
    | none => (l.fail EBADF, s)
    | some fe =>
      if fe.used = false then (l.fail EBADF, s)
      else
        match fe.desc with
        | none => (l.fail EBADF, s)
        | some idx =>
          let d := l.descs idx
          if d.writable = false then (l.fail EBADF, s)
          else if d.append then
            match chunkedWriteAppend k env d.path data s with
            | (r, s) => (l.ret r, s)
          else
            match chunkedWritePositioned k env d.path data d.offset s with
            | (r, s) =>
              ((if 0 ≤ r then l.setOffset idx (min (d.offset + r.toNat) (2 ^ 64 - 1))
                else l).ret r, s)

/-! ## What a write leaves behind -/

variable {k} {env : ℕ → Env} {path rest data : List UInt8} {f : F} {s s' : σ} {base off : ℕ} {r : ℤ}

/-- The file after a positioned write: emptied first at position zero. -/
def written (old : List UInt8) (pos : ℕ) (data : List UInt8) : List UInt8 :=
  overlay 0 (if pos = 0 then [] else old) pos data

theorem sysWrite_ok {e : Env} (hf : k.file path = some f) (hpos : base < 2 ^ 55)
    (h : sysWrite k e s path data (base * 2 ^ 8 % 2 ^ 64) = (r, s')) (hr : 0 ≤ r) :
    k.drive.contents s' f = written (k.drive.contents s f) base data ∧
      Others k.drive f s s' := by
  have hflags : base * 2 ^ 8 % 2 ^ 64 = base * 2 ^ 8 := Nat.mod_eq_of_lt (by omega)
  have hshift : (base * 2 ^ 8) >>> 8 = base := by
    rw [Nat.shiftRight_eq_div_pow, Nat.mul_div_cancel _ (by decide)]
  rw [hflags, sysWrite] at h
  split at h
  next n _ =>
    obtain rfl := (Prod.mk.inj h).1
    omega
  next =>
    rw [hf] at h
    dsimp only at h
    split at h
    next e _ =>
      have hneg := errnoOf_neg e
      rw [(Prod.mk.inj h).1] at hneg
      omega
    next =>
      split at h
      next e _ _ =>
        have hneg := errnoOf_neg e
        rw [(Prod.mk.inj h).1] at hneg
        omega
      next s1 hw =>
        obtain rfl : s1 = s' := by
          split_ifs at h
          · exact (Prod.mk.inj h).2
          · exact (Prod.mk.inj h).2
        have hok := writeFile_ok (by omega) hw
        rwa [hshift] at hok

/-- Data laid over what the data before it has written. -/
theorem overlay_written {old : List UInt8} {pos n : ℕ} (hn : n ≤ data.length) :
    overlay 0 (written old pos (data.take n)) (pos + n) (data.drop n) = written old pos data := by
  have happ : overlay 0 (written old pos (data.take n)) (pos + (data.take n).length)
      (data.drop n) = written old pos (data.take n ++ data.drop n) := overlay_append
  rwa [length_take, Nat.min_eq_left hn, take_append_drop] at happ

/-- **The loop**: the first chunk may empty the file, the others lay their bytes over it. -/
theorem chunkLoop_ok (hf : k.file path = some f) : ∀ (fuel off : ℕ) (rest : List UInt8) (s : σ),
    rest.length ≤ fuel → base + off + rest.length < 2 ^ 55 →
    chunkLoop k env path (fun off => (base + off) * 2 ^ 8 % 2 ^ 64) fuel off rest s = (r, s') →
    0 ≤ r → k.drive.contents s' f = (if rest = [] then k.drive.contents s f else
      written (k.drive.contents s f) (base + off) rest) ∧ Others k.drive f s s'
  | 0, off, rest, s, hle, _, h, _ => by
    obtain rfl := length_eq_zero_iff.mp (Nat.le_zero.mp hle)
    obtain rfl := (Prod.mk.inj h).2
    exact ⟨rfl, fun _ _ => rfl⟩
  | fuel + 1, off, rest, s, hle, hbound, h, hr => by
    rw [chunkLoop] at h
    by_cases hnil : rest = []
    · rw [if_pos hnil] at h
      obtain rfl := (Prod.mk.inj h).2
      rw [if_pos hnil]
      exact ⟨rfl, fun _ _ => rfl⟩
    have hlen : 0 < rest.length := length_pos_of_ne_nil hnil
    rw [if_neg hnil] at h
    dsimp only at h
    generalize hn : min rest.length IO_CHUNK_BYTES = n at h
    have hn' : 0 < n ∧ n ≤ rest.length := by
      unfold IO_CHUNK_BYTES at hn
      omega
    cases hw : sysWrite k (env off) s path (rest.take n) ((base + off) * 2 ^ 8 % 2 ^ 64) with
    | mk r1 s1 =>
      rw [hw] at h
      by_cases hneg : r1 < 0
      · rw [if_pos hneg] at h
        obtain rfl := (Prod.mk.inj h).1
        omega
      rw [if_neg hneg] at h
      obtain ⟨hcontents, hothers⟩ := sysWrite_ok hf (by omega) hw (by omega)
      have hdrop : (rest.drop n).length = rest.length - n := length_drop
      obtain ⟨hcontents', hothers'⟩ := chunkLoop_ok hf fuel (off + n) (rest.drop n) s1 (by omega)
        (by omega) h hr
      refine ⟨?_, Others.trans hothers hothers'⟩
      -- past its first chunk the loop never stands at the start of the file, so nothing is emptied
      have hrest : k.drive.contents s' f =
          overlay 0 (k.drive.contents s1 f) (base + off + n) (rest.drop n) := by
        rw [hcontents', ← Nat.add_assoc]
        split_ifs with hdone
        · rw [hdone, overlay_nil]
        · rw [written, if_neg (by omega)]
      rw [if_neg hnil, hrest, hcontents, overlay_written hn'.2]

/-- **A positioned write that succeeds** reports all the data, and has written it. -/
theorem chunkedWritePositioned_ok (hf : k.file path = some f) (hbound : base + data.length < 2 ^ 55)
    (h : chunkedWritePositioned k env path data base s = (r, s')) (hr : 0 ≤ r) : r = data.length ∧
      k.drive.contents s' f =
        (if data = [] then k.drive.contents s f else written (k.drive.contents s f) base data) ∧
      Others k.drive f s s' := by
  rw [chunkedWritePositioned, chunked] at h
  cases hl : chunkLoop k env path (fun off => (base + off) * 2 ^ 8 % 2 ^ 64) data.length 0 data s
    with
  | mk r1 s1 =>
    rw [hl] at h
    dsimp only at h
    by_cases hneg : r1 < 0
    · rw [if_pos hneg] at h
      obtain rfl := (Prod.mk.inj h).1
      omega
    rw [if_neg hneg] at h
    cases h
    exact ⟨rfl, chunkLoop_ok hf data.length 0 data s le_rfl hbound hl (by omega)⟩

/-- At the start of a file nothing is lost exactly if the file was no longer than the data. -/
theorem written_eq_overlay_iff (old data : List UInt8) (pos : ℕ) :
    written old pos data = overlay 0 old pos data ↔ pos ≠ 0 ∨ old.length ≤ data.length := by
  rw [written]
  split_ifs with hpos
  · rw [hpos, overlay_zero, overlay_zero, drop_nil, append_nil]
    constructor
    · intro h
      refine .inr (drop_eq_nil_iff.mp ?_)
      exact self_eq_append_right.mp h
    · rintro (h | h)
      · exact absurd rfl h
      · rw [drop_eq_nil_of_le h, append_nil]
  · exact iff_of_true rfl (.inl hpos)

/-! ## POSIX -/

/-- **What POSIX asks of a write that returns**: it returns the length of the data, which is laid
over the file at the offset; every descriptor of the description stands after it; no other file has
changed. -/
structure Overlaid (k : Kernel F σ) (l l' : Libc) (s s' : σ) (idx : ℕ) (f : F) (data : List UInt8)
    (r : ℤ) : Prop where
  count : r = data.length
  contents : k.drive.contents s' f =
    overlay 0 (k.drive.contents s f) (l.descs idx).offset data
  offset : ∀ fd, (l.fds fd).desc = some idx →
    l'.offsetOf fd = some ((l.descs idx).offset + data.length)
  others : Others k.drive f s s'

/-- What `write_fd` does with an open descriptor of a description that does not append. -/
theorem writeFd_cases (k : Kernel F σ) (env : ℕ → Env) (s : σ) (data : List UInt8) {l : Libc}
    {fd : ℤ} {idx : ℕ} (hfd : l.fdRef fd = some ⟨some idx, true⟩)
    (happend : (l.descs idx).append = false) (null : Bool) :
    (∃ e, writeFd k env l s fd null data = (l.fail e, s)) ∨
      ∃ r s',
        chunkedWritePositioned k env (l.descs idx).path data (l.descs idx).offset s = (r, s') ∧
        writeFd k env l s fd null data =
          ((if 0 ≤ r then
              l.setOffset idx (min ((l.descs idx).offset + r.toNat) (2 ^ 64 - 1))
            else l).ret r, s') := by
  have hge : 3 ≤ fd := by
    unfold Libc.fdRef at hfd
    split_ifs at hfd
    omega
  unfold writeFd
  rw [if_neg (by omega)]
  by_cases hnull : 0 < data.length ∧ null
  · exact .inl ⟨EFAULT, if_pos hnull⟩
  rw [if_neg hnull, if_neg (by omega), if_neg (by omega), if_neg (by omega), hfd]
  dsimp only
  by_cases hwritable : (l.descs idx).writable = false
  · exact .inl ⟨EBADF, if_pos hwritable⟩
  rw [if_neg hwritable, happend]
  exact .inr ⟨_, _, rfl, rfl⟩

/-- The offset of every descriptor of a description is set at once. -/
theorem offsetOf_setOffset {l : Libc} {fd idx : ℕ} (h : (l.fds fd).desc = some idx) (offset : ℕ) :
    (l.setOffset idx offset).offsetOf fd = some offset := by
  show ((l.fds fd).desc.map fun i =>
    (if i = idx then { l.descs i with offset := offset } else l.descs i).offset) = some offset
  rw [h, map_some, if_pos rfl]

/-- **A write to a file through an open descriptor that does not append either fails, and then no
offset moves, or returns; and then it is what POSIX asks for exactly if it did not start at the
start of a longer file.** -/
theorem writeFd_overlaid_iff {l l' : Libc} {fd : ℤ} {idx : ℕ}
    (hfd : l.fdRef fd = some ⟨some idx, true⟩) (happend : (l.descs idx).append = false)
    (hf : k.file (l.descs idx).path = some f)
    (hbound : (l.descs idx).offset + data.length < 2 ^ 55) {null : Bool}
    (h : writeFd k env l s fd null data = ((r, l'), s')) : (r = -1 ∧ l'.offsetOf = l.offsetOf) ∨
      0 ≤ r ∧ (Overlaid k l l' s s' idx f data r ↔
        (l.descs idx).offset ≠ 0 ∨ data = [] ∨
          (k.drive.contents s f).length ≤ data.length) := by
  obtain ⟨e, heq⟩ | ⟨r1, s1, hwrite, heq⟩ := writeFd_cases k env s data hfd happend null
  · obtain ⟨hl, -⟩ := Prod.mk.inj (heq.symm.trans h)
    obtain ⟨rfl, rfl⟩ := Prod.mk.inj hl
    exact .inl ⟨rfl, rfl⟩
  obtain ⟨hl, rfl⟩ := Prod.mk.inj (heq.symm.trans h)
  by_cases hneg : r1 < 0
  · rw [if_neg (by omega), Libc.ret, if_pos hneg] at hl
    obtain ⟨rfl, rfl⟩ := Prod.mk.inj hl
    exact .inl ⟨rfl, rfl⟩
  rw [if_pos (by omega), Libc.ret, if_neg hneg] at hl
  obtain ⟨rfl, rfl⟩ := Prod.mk.inj hl
  obtain ⟨hcount, hcontents, hothers⟩ := chunkedWritePositioned_ok hf hbound hwrite (by omega)
  have hoffset : ∀ fd, (l.fds fd).desc = some idx →
      (l.setOffset idx (min ((l.descs idx).offset + r1.toNat) (2 ^ 64 - 1))).offsetOf fd =
        some ((l.descs idx).offset + data.length) := by
    intro fd hdesc
    rw [offsetOf_setOffset hdesc, hcount, Int.toNat_natCast, Nat.min_eq_left (by omega)]
  have hiff : Overlaid k l _ s s1 idx f data r1 ↔
      k.drive.contents s1 f = overlay 0 (k.drive.contents s f) (l.descs idx).offset data :=
    ⟨Overlaid.contents, fun hc => ⟨hcount, hc, hoffset, hothers⟩⟩
  refine .inr ⟨by omega, hiff.trans ?_⟩
  rw [hcontents]
  split_ifs with hnil
  · rw [hnil]
    exact iff_of_true rfl (.inr (.inl rfl))
  · rw [written_eq_overlay_iff]
    exact ⟨fun h => h.imp_right .inr, fun h => h.imp_right fun h => h.resolve_left hnil⟩

end Call

/-! ## A longer file, written at its start -/

/-- A drive that does what is asked of it. -/
def idealDrive (F : Type) [DecidableEq F] : Drive F (F → List UInt8) where
  contents s f := s f
  truncate s f n := (.ok (), update s f ((s f).take n))
  writeAt s f pos bytes := (.ok bytes.length, update s f (overlay 0 (s f) pos bytes))
  truncate_zero s f s' h := by
    obtain rfl := (Prod.mk.inj h).2
    exact ⟨update_self .., fun g hg => update_of_ne hg ..⟩
  writeAt_ok s f pos bytes n s' h := by
    obtain ⟨hn, rfl⟩ := Prod.mk.inj h
    cases hn
    rw [take_length]
    exact ⟨le_rfl, update_self .., fun g hg => update_of_ne hg ..⟩

/-- The one path `a` leads to a file of it. -/
def oneFile : Kernel Bool (Bool → List UInt8) where
  drive := idealDrive Bool
  file path := if path = [97] then some true else none
  other s _ _ _ := (-2, s)

/-- The library with descriptor 3 open on the file and standing at `offset`. -/
def opened (offset : ℕ) : Libc where
  fds fd := if fd = 3 then ⟨some 0, true⟩ else ⟨none, false⟩
  descs _ := ⟨[97], offset, true, false⟩
  errno := 0

/-- Nothing is refused. -/
def smooth : ℕ → Env := fun _ => ⟨none, none, false, false⟩

/-- One byte written at the start of a file of three leaves a file of one byte. -/
theorem truncated_tail :
    (writeFd oneFile smooth (opened 0) (fun _ => [1, 2, 3]) 3 false [9]).1.1 = 1 ∧
      (writeFd oneFile smooth (opened 0) (fun _ => [1, 2, 3]) 3 false [9]).2 true = [9] ∧
      ¬ Overlaid oneFile (opened 0)
        (writeFd oneFile smooth (opened 0) (fun _ => [1, 2, 3]) 3 false [9]).1.2
        (fun _ => [1, 2, 3])
        (writeFd oneFile smooth (opened 0) (fun _ => [1, 2, 3]) 3 false [9]).2 0 true [9] 1 :=
  ⟨by decide +kernel, by decide +kernel, fun h => absurd h.contents (by decide +kernel)⟩

/-- …and two bytes written past its end are laid over the file, after a gap of one zero. -/
theorem writeFd_overlaid_iff_gap : Overlaid oneFile (opened 4)
        (writeFd oneFile smooth (opened 4) (fun _ => [1, 2, 3]) 3 false [8, 9]).1.2
        (fun _ => [1, 2, 3])
        (writeFd oneFile smooth (opened 4) (fun _ => [1, 2, 3]) 3 false [8, 9]).2 0 true [8, 9] 2 ∧
      (writeFd oneFile smooth (opened 4) (fun _ => [1, 2, 3]) 3 false [8, 9]).2 true =
        [1, 2, 3, 0, 8, 9] := by
  refine ⟨?_, by decide +kernel⟩
  have h := writeFd_overlaid_iff (k := oneFile) (f := true) (l := opened 4) rfl rfl rfl (by decide)
    (show writeFd oneFile smooth (opened 4) (fun _ => [1, 2, 3]) 3 false [8, 9] =
      ((2, (writeFd oneFile smooth (opened 4) (fun _ => [1, 2, 3]) 3 false [8, 9]).1.2),
        (writeFd oneFile smooth (opened 4) (fun _ => [1, 2, 3]) 3 false [8, 9]).2) from
      Prod.ext (Prod.ext (by decide +kernel) rfl) rfl)
  exact (h.resolve_left fun h => absurd h.1 (by decide)).2.mpr (.inl (by decide))

end Bedrock.Posix
