import Bedrock.Lib.Run

/-!
# Posix/Streams — the stream objects of the C library

A stream is a pointer to a `FILE` object: one of the three standard ones, or one of a pool.  The
object names the slot of the pool that `fclose` gives back.

    FILE * -▸ object -slot▸ FILE_USED

`fopen` fills the object of the lowest free slot, so that object and slot are one.  `freopen` fills
such an object and copies it with its slot, so the object a pointer leads to and the slot it holds
may part (`moved_not_exclusive`).
-/

namespace Bedrock.Stdio

open Function List Option

def FILE_POOL : ℕ := 16

inductive Ptr
  | std (i : Fin 3)
  | pool (k : ℕ)
  deriving DecidableEq

/-- A `FILE`; the defaults are `FILE_INIT`. -/
structure File where
  path : List UInt8 := []
  offset : ℕ := 0
  readable : Bool := false
  writable : Bool := false
  append : Bool := false
  slot : ℕ := 0
  eof : Bool := false
  error : Bool := false
  pushback : Int := -1

/-- The objects and the marks; `opened` are the pointers the program holds. -/
structure Streams where
  obj : Ptr → File
  used : ℕ → Bool
  errno : ℕ
  opened : List Ptr

/-- `parse_mode`: readable, writable, append, truncate. -/
def parseMode (m : List UInt8) : Option (Bool × Bool × Bool × Bool) :=
  match (m.filter (· ≠ 'b'.toUInt8)).take 4 |>.map (Char.ofNat ·.toNat) with
  | ['r'] => some (true, false, false, false)
  | ['w'] => some (false, true, false, true)
  | ['a'] => some (false, true, true, false)
  | ['r', '+'] => some (true, true, false, false)
  | ['w', '+'] => some (true, true, false, true)
  | ['a', '+'] => some (true, true, true, false)
  | _ => none

/-- The arguments of an open, and how it goes: whether one is null, what the path resolves to,
whether the file is there, and the error with which it cannot be created. -/
structure Open where
  null : Bool
  mode : List UInt8
  resolved : Option (List UInt8)
  found : Bool
  created : Option ℕ

/-- The open fails whichever slot is free. -/
def Open.fails (o : Open) : Bool :=
  match parseMode o.mode with
  | none => true
  | some (_, writable, append, truncate) => o.resolved.isNone ||
      !(o.found || writable && (truncate || append) && o.created.isNone)

namespace Streams

def freeSlot (s : Streams) : Option ℕ := (List.range FILE_POOL).find? fun i => !s.used i

/-- `fopen`, with the slot of the object it returns. -/
def fopen (s : Streams) (o : Open) : Option ℕ × Streams :=
  if o.null then (none, s)
  else
    match parseMode o.mode with
    | none => (none, { s with errno := 22 })
    | some (readable, writable, append, truncate) =>
      match s.freeSlot with
      | none => (none, { s with errno := 24 })
      | some i =>
        match o.resolved with
        | none => (none, { s with errno := 36 })
        | some path =>
          let f : File := { path, readable, writable, append, slot := i }
          let s := { s with obj := update s.obj (.pool i) f }
          -- the mark is taken back where the open fails
          if o.found then (some i, { s with used := update s.used i true })
          else if writable && (truncate || append) then
            match o.created with
            | none => (some i, { s with used := update s.used i true })
            | some e => (none, { s with errno := e })
          else (none, { s with errno := 2 })

/-- `fdopen` of a descriptor with this path, if it is one. -/
def fdopen (s : Streams) (null : Bool) (mode : List UInt8) (path : Option (List UInt8)) :
    Option ℕ × Streams :=
  if null then (none, { s with errno := 22 })
  else
    match path with
    | none => (none, { s with errno := 9 })
    | some path =>
      match parseMode mode with
      | none => (none, { s with errno := 22 })
      | some (readable, writable, append, _) =>
        match s.freeSlot with
        | none => (none, { s with errno := 24 })
        | some i =>
          let f : File := { path := path.takeWhile (· ≠ 0), readable, writable, append, slot := i }
          (some i, { s with obj := update s.obj (.pool i) f, used := update s.used i true })

def fclose (s : Streams) (p : Ptr) : Streams :=
  let idx := (s.obj p).slot
  { s with used := if idx < FILE_POOL then update s.used idx false else s.used }

/-- `freopen`; the flag says that the stream is open afterwards. -/
def freopen (s : Streams) (o : Open) (p : Ptr) : Bool × Streams :=
  if o.null then (true, { s with errno := 22 })
  else
    match (s.fclose p).fopen o with
    | (none, s) => (false, s)
    | (some n, s) =>
      let s := { s with obj := update s.obj p (s.obj (.pool n)) }
      let idx := (s.obj p).slot
      let newIdx := (s.obj (.pool n)).slot
      let s := if newIdx < FILE_POOL ∧ newIdx ≠ idx then
        { s with used := update s.used newIdx false } else s
      (true, { s with
        obj := update s.obj p { s.obj p with slot := idx }
        used := update s.used idx true })

end Streams

inductive Call
  | fopen (o : Open)
  | fdopen (null : Bool) (mode : List UInt8) (path : Option (List UInt8))
  | freopen (o : Open) (p : Ptr)
  | fclose (p : Ptr)

/-- The stream that a call is made on. -/
def Call.target : Call → Option Ptr
  | freopen _ p => some p
  | fclose p => some p
  | _ => none

namespace Streams

/-- The program holds what an open has returned. -/
def hold : Option ℕ × Streams → Streams
  | (none, s) => s
  | (some i, s) => { s with opened := .pool i :: s.opened }

/-- One call; only an open stream is closed. -/
def step (s : Streams) : Call → Option Streams
  | .fopen o => some (hold (s.fopen o))
  | .fdopen null mode path => some (hold (s.fdopen null mode path))
  | .freopen o p =>
    if p ∈ s.opened then
      let r := s.freopen o p
      some (if r.1 then r.2 else { r.2 with opened := s.opened.erase p })
    else none
  | .fclose p =>
    if p ∈ s.opened then some { s.fclose p with opened := s.opened.erase p } else none

/-- After `stdio_init`. -/
def init : Streams where
  obj
    | .std 0 => { path := "/proc/self/std/in".toUTF8.toList, readable := true, slot := 0xFFFF }
    | .std 1 => { path := "/proc/self/std/out".toUTF8.toList, writable := true, append := true,
                  slot := 0xFFFF }
    | .std 2 => { path := "/proc/self/std/err".toUTF8.toList, writable := true, append := true,
                  slot := 0xFFFF }
    | .pool _ => {}
  used _ := false
  errno := 0
  opened := [.std 0, .std 1, .std 2]

/-! ## Streams of their own -/

/-- **Open streams share nothing.** -/
structure Exclusive (s : Streams) : Prop where
  /-- No pointer is handed out while it is open. -/
  nodup : s.opened.Nodup
  /-- An object of the pool is the one of its slot… -/
  own : ∀ k, .pool k ∈ s.opened → (s.obj (.pool k)).slot = k ∧ k < FILE_POOL
  /-- …which is no other stream's… -/
  apart : ∀ p ∈ s.opened, ∀ q ∈ s.opened, (s.obj p).slot < FILE_POOL →
    (s.obj p).slot = (s.obj q).slot → p = q
  /-- …and marked while the stream is open, and only then. -/
  used : ∀ i < FILE_POOL, s.used i = true ↔ ∃ p ∈ s.opened, (s.obj p).slot = i

/-- Where `freopen` finds a free slot below the stream's own, the two part. -/
def Careful (s : Streams) : Call → Prop
  | .freopen o (.pool k) => o.null = true ∨ o.fails = true ∨ ∀ i < k, s.used i = true
  | _ => True

instance (s : Streams) : ∀ c, Decidable (Careful s c)
  | .freopen o (.pool k) => inferInstanceAs
      (Decidable (o.null = true ∨ o.fails = true ∨ ∀ i < k, s.used i = true))
  | .freopen _ (.std _) | .fopen _ | .fdopen .. | .fclose _ => isTrue trivial

/-- What an open does: nothing, fill an object in vain, or fill it and mark its slot. -/
inductive Opens (s : Streams) : Option ℕ × Streams → Prop
  | refused (e : ℕ) : Opens s (none, { s with errno := e })
  | undone (i e : ℕ) (f : File) : i < FILE_POOL → s.used i = false →
      Opens s (none, { s with obj := update s.obj (.pool i) f, errno := e })
  | done (i : ℕ) (f : File) : i < FILE_POOL → s.used i = false → f.slot = i →
      Opens s (some i, { s with obj := update s.obj (.pool i) f, used := update s.used i true })

variable {s s' t : Streams} {p q : Ptr} {o : Open} {c : Call}

theorem freeSlot_spec {i : ℕ} (h : s.freeSlot = some i) : i < FILE_POOL ∧ s.used i = false :=
  ⟨mem_range.mp (mem_of_find?_eq_some h), by simpa using find?_some h⟩

theorem opens_fopen (s : Streams) (o : Open) : Opens s (s.fopen o) := by
  unfold fopen
  split
  · exact .refused s.errno
  split
  · exact .refused 22
  split
  · exact .refused 24
  next i hi =>
    obtain ⟨hlt, hfree⟩ := freeSlot_spec hi
    split
    · exact .refused 36
    dsimp only
    split_ifs
    · exact .done i _ hlt hfree rfl
    · split
      · exact .done i _ hlt hfree rfl
      · exact .undone i _ _ hlt hfree
    · exact .undone i 2 _ hlt hfree

/-- An open that does not fail takes the lowest free slot. -/
theorem fopen_eq_some {i : ℕ} (h : (s.fopen o).1 = some i) :
    s.freeSlot = some i ∧ o.fails = false := by
  unfold fopen at h
  unfold Open.fails
  split at h
  · cases h
  split at h
  · cases h
  split at h
  · cases h
  rename_i hfree
  split at h
  · cases h
  rename_i hres
  dsimp only at h ⊢
  rw [hres]
  split_ifs at h with hfound hw
  · cases h
    exact ⟨hfree, by simp [hfound]⟩
  · split at h
    · rename_i hcreated
      cases h
      exact ⟨hfree, by simp [hw, hcreated]⟩
    · cases h

theorem opens_fdopen (s : Streams) (null : Bool) (mode : List UInt8) (path : Option (List UInt8)) :
    Opens s (s.fdopen null mode path) := by
  unfold fdopen
  split
  · exact .refused 22
  split
  · exact .refused 9
  split
  · exact .refused 22
  split
  · exact .refused 24
  next i hi => exact .done i _ (freeSlot_spec hi).1 (freeSlot_spec hi).2 rfl

namespace Exclusive

theorem congr (h : Exclusive s) (hused : s'.used = s.used) (hopen : s'.opened.Perm s.opened)
    (hobj : ∀ p ∈ s.opened, s'.obj p = s.obj p) : Exclusive s' where
  nodup := hopen.nodup_iff.mpr h.nodup
  own k hk := by
    have hk := hopen.mem_iff.mp hk
    rw [hobj _ hk]
    exact h.own k hk
  apart p hp q hq := by
    have hp := hopen.mem_iff.mp hp
    have hq := hopen.mem_iff.mp hq
    rw [hobj p hp, hobj q hq]
    exact h.apart p hp q hq
  used i hi := by
    rw [hused, h.used i hi]
    constructor
    · rintro ⟨p, hp, hslot⟩
      exact ⟨p, hopen.mem_iff.mpr hp, by rwa [hobj p hp]⟩
    · rintro ⟨p, hp, hslot⟩
      have hp := hopen.mem_iff.mp hp
      exact ⟨p, hp, by rwa [hobj p hp] at hslot⟩

/-- The object of a slot that is not marked is no open stream's. -/
theorem notMem_of_free (h : Exclusive s) {i : ℕ} (hlt : i < FILE_POOL) (hfree : s.used i = false) :
    .pool i ∉ s.opened := fun hi => by
  have hused := (h.used i hlt).mpr ⟨_, hi, (h.own i hi).1⟩
  cases hfree.symm.trans hused

/-- **A stream is closed.** -/
theorem close (h : Exclusive s) (hp : p ∈ s.opened) :
    Exclusive { s.fclose p with opened := s.opened.erase p } := by
  have hsub : ∀ q ∈ s.opened.erase p, q ∈ s.opened := fun q hq => mem_of_mem_erase hq
  refine ⟨h.nodup.erase p, fun k hk => h.own k (hsub _ hk),
    fun q hq r hr => h.apart q (hsub q hq) r (hsub r hr), fun i hi => ?_⟩
  have hused : (s.fclose p).used i = true ↔ i ≠ (s.obj p).slot ∧ s.used i = true := by
    simp only [fclose]
    split_ifs with hslot
    · by_cases heq : i = (s.obj p).slot <;> simp [heq]
    · simp only [iff_and_self]
      exact fun _ heq => hslot (heq ▸ hi)
  simp only [hused, h.used i hi, h.nodup.mem_erase_iff]
  constructor
  · rintro ⟨hne, q, hq, rfl⟩
    exact ⟨q, ⟨fun heq => hne (heq ▸ rfl), hq⟩, rfl⟩
  · rintro ⟨q, ⟨hne, hq⟩, rfl⟩
    exact ⟨fun heq => hne (h.apart q hq p hp hi heq), q, hq, rfl⟩

/-- **A stream takes a free slot.** -/
theorem enter (h : Exclusive s) {i : ℕ} {f : File} (hlt : i < FILE_POOL) (hfree : s.used i = false)
    (hslot : f.slot = i) (hp : p ∉ s.opened) (hown : ∀ k, p = .pool k → k = i) : Exclusive { s with
      obj := update s.obj p f, used := update s.used i true, opened := p :: s.opened } := by
  have hobj : ∀ q ∈ s.opened, update s.obj p f q = s.obj q := fun q hq =>
    update_of_ne (by rintro rfl; exact hp hq) _ _
  have hne : ∀ q ∈ s.opened, (s.obj q).slot ≠ i := fun q hq heq => by
    have hused := (h.used i hlt).mpr ⟨q, hq, heq⟩
    cases hfree.symm.trans hused
  refine ⟨nodup_cons.mpr ⟨hp, h.nodup⟩, fun k hk => ?_, fun q hq r hr hs heq => ?_,
    fun j hj => ?_⟩ <;> dsimp only at *
  · obtain rfl | hk := mem_cons.mp hk
    · obtain rfl := hown k rfl
      exact ⟨by rwa [update_self], hlt⟩
    · rw [hobj _ hk]
      exact h.own k hk
  · rcases mem_cons.mp hq with rfl | hq <;> rcases mem_cons.mp hr with rfl | hr
    · rfl
    · rw [update_self, hobj r hr, hslot] at heq
      exact absurd heq.symm (hne r hr)
    · rw [update_self, hobj q ‹_›, hslot] at heq
      exact absurd heq (hne q ‹_›)
    · rw [hobj q hq] at hs heq
      exact h.apart q hq r hr hs (hobj r hr ▸ heq)
  · by_cases hji : j = i
    · simp [hji, hslot]
    · simp only [update_of_ne hji, h.used j hj, mem_cons, exists_eq_or_imp, update_self, hslot,
        Ne.symm hji, false_or]
      exact exists_congr fun q => and_congr_right fun hq => by rw [hobj q hq]

end Exclusive

/-- A call leaves every other open stream its path, its mode and its position. -/
def Keeps (s : Streams) (c : Call) (s' : Streams) : Prop :=
  ∀ q ∈ s.opened, c.target ≠ some q → s'.obj q = s.obj q

theorem Opens.hold {r : Option ℕ × Streams} (ho : Opens s r) (h : Exclusive s) :
    Exclusive (hold r) ∧ ∀ q ∈ s.opened, (Streams.hold r).obj q = s.obj q := by
  cases ho with
  | refused e => exact ⟨h.congr rfl (.refl _) fun _ _ => rfl, fun _ _ => rfl⟩
  | undone i e f hlt hfree =>
    have hkeep : ∀ q ∈ s.opened, update s.obj (.pool i) f q = s.obj q := fun q hq =>
      update_of_ne (by rintro rfl; exact h.notMem_of_free hlt hfree hq) _ _
    exact ⟨h.congr rfl (.refl _) hkeep, hkeep⟩
  | done i f hlt hfree hslot =>
    have hn := h.notMem_of_free hlt hfree
    exact ⟨h.enter hlt hfree hslot hn fun k hk => (Ptr.pool.inj hk).symm,
      fun q hq => update_of_ne (by rintro rfl; exact hn hq) _ _⟩

/-- `freopen` that finds a slot leaves the stream with a copy of that slot's object. -/
theorem freopen_done {i : ℕ} {f : File} (hnull : ¬ o.null = true) (hslot : f.slot = i)
    (hr : (s.fclose p).fopen o = (some i, { s.fclose p with
      obj := update s.obj (.pool i) f, used := update (s.fclose p).used i true })) :
    s.freopen o p = (true, { s.fclose p with
      obj := update (update s.obj (.pool i) f) p f, used := update (s.fclose p).used i true }) := by
  subst hslot
  have hcopy : update (update s.obj (.pool f.slot) f) p f (.pool f.slot) = f := by
    by_cases hp : p = .pool f.slot <;> simp [update_apply]
  simp [freopen, hnull, hr, hcopy]

/-- A careful call opens the slot it has closed. -/
theorem fopen_of_careful {k i : ℕ} (h : Exclusive s) (hk : .pool k ∈ s.opened)
    (hc : Careful s (.freopen o (.pool k))) (hnull : ¬ o.null = true)
    (hi : ((s.fclose (.pool k)).fopen o).1 = some i) : i = k := by
  obtain ⟨hslot, hlt⟩ := h.own k hk
  obtain ⟨hfree, hok⟩ := fopen_eq_some hi
  have hbelow : ∀ j < k, s.used j = true :=
    (hc.resolve_left hnull).resolve_left (by simp [hok])
  have hused : (s.fclose (.pool k)).used = update s.used k false := by simp [fclose, hslot, hlt]
  unfold freeSlot at hfree
  rw [hused, find?_range_eq_some] at hfree
  obtain ⟨hfree, -, hfirst⟩ := hfree
  obtain hik | rfl | hik := Nat.lt_trichotomy i k
  · simp [update_of_ne (Nat.ne_of_lt hik), hbelow i hik] at hfree
  · rfl
  · exact absurd (hfirst k hik) (by simp)

theorem step_freopen (h : Exclusive s) (hc : Careful s (.freopen o p))
    (hs : step s (.freopen o p) = some s') : Exclusive s' ∧ Keeps s (.freopen o p) s' := by
  obtain ⟨hp, hs⟩ := ite_none_right_eq_some.mp hs
  cases hs
  by_cases hnull : o.null = true
  · simp only [freopen, hnull]
    exact ⟨h.congr rfl (.refl _) fun _ _ => rfl, fun _ _ _ => rfl⟩
  have hclose := h.close hp
  have hopens := opens_fopen (s.fclose p) o
  have herase : ∀ q ∈ s.opened, (Call.freopen o p).target ≠ some q → q ∈ s.opened.erase p :=
    fun q hq hqp => (mem_erase_of_ne (by rintro rfl; exact hqp rfl)).mpr hq
  generalize hr : (s.fclose p).fopen o = r at hopens
  cases hopens with
  | refused e =>
    simp only [freopen, hnull, hr]
    exact ⟨hclose.congr rfl (.refl _) fun _ _ => rfl, fun _ _ _ => rfl⟩
  | undone i e f hlt hfree =>
    have hkeep : ∀ q ∈ s.opened.erase p, update s.obj (.pool i) f q = s.obj q := fun q hq =>
      update_of_ne (by rintro rfl; exact hclose.notMem_of_free hlt hfree hq) _ _
    simp only [freopen, hnull, hr]
    exact ⟨hclose.congr rfl (.refl _) hkeep, fun q hq hqp => hkeep q (herase q hq hqp)⟩
  | done i f hlt hfree hslot =>
    have hkeep : ∀ q ∈ s.opened.erase p,
        update (update s.obj (.pool i) f) p f q = update s.obj p f q := fun q hq => by
      have hqi : q ≠ .pool i := by rintro rfl; exact hclose.notMem_of_free hlt hfree hq
      simp [update_apply, hqi]
    have henter := hclose.enter hlt hfree hslot h.nodup.not_mem_erase fun k hk => by
      subst hk
      exact (fopen_of_careful h hp hc hnull (by rw [hr])).symm
    simp only [freopen_done hnull hslot hr]
    refine ⟨henter.congr rfl (perm_cons_erase hp) fun q hq => ?_, fun q hq hqp => ?_⟩
    · obtain rfl | hq := mem_cons.mp hq
      · simp
      · exact hkeep q hq
    · have hqp' : q ≠ p := by rintro rfl; exact hqp rfl
      exact (hkeep q (herase q hq hqp)).trans (update_of_ne hqp' _ _)

/-- **A careful call leaves the streams their own.** -/
theorem Exclusive.step (h : Exclusive s) (hc : Careful s c) (hs : step s c = some s') :
    Exclusive s' ∧ Keeps s c s' := by
  cases c with
  | fopen o =>
    cases hs
    exact ⟨((opens_fopen s o).hold h).1, fun q hq _ => ((opens_fopen s o).hold h).2 q hq⟩
  | fdopen null mode path =>
    cases hs
    have hopen := (opens_fdopen s null mode path).hold h
    exact ⟨hopen.1, fun q hq _ => hopen.2 q hq⟩
  | freopen o p => exact step_freopen h hc hs
  | fclose p =>
    obtain ⟨hp, hs⟩ := ite_none_right_eq_some.mp hs
    cases hs
    exact ⟨h.close hp, fun _ _ _ => rfl⟩

theorem exclusive_init : Exclusive init where
  nodup := by decide
  own k hk := by simp [init] at hk
  apart p hp q hq hlt := by
    simp only [init, mem_cons, not_mem_nil, or_false] at hp
    rcases hp with rfl | rfl | rfl <;> exact absurd hlt (by decide)
  used i hi := by
    simp only [init, Bool.false_eq_true, false_iff]
    rintro ⟨p, hp, rfl⟩
    simp only [mem_cons, not_mem_nil, or_false] at hp
    rcases hp with rfl | rfl | rfl <;> exact absurd hi (by decide)

/-- **In every run of careful calls open streams share nothing, and a careful call changes none but
its own.** -/
theorem exclusive_of_careful (cs : List Call) (hcs : RunMeets step Careful init cs)
    (hrun : run step init cs = some s) :
    Exclusive s ∧ ∀ c s', Careful s c → step s c = some s' → Keeps s c s' := by
  have h := run_invariant Exclusive (fun _ _ _ h hc hs => (h.step hc hs).1) cs exclusive_init hcs
    hrun
  exact ⟨h, fun c s' hc hs => (h.step hc hs).2⟩

/-- An open that finds its file. -/
def opening (path mode : String) : Open :=
  ⟨false, mode.toUTF8.toList, some path.toUTF8.toList, true, none⟩

/-- A file is opened, the standard output redirected, and the file opened anew. -/
theorem redirected_exclusive : ∃ s, run step init [.fopen (opening "/A/a" "rb"),
      .freopen (opening "/A/b" "a+") (.std 1), .freopen (opening "/A/c" "w") (.pool 0)] = some s ∧
    s.opened.length = 4 ∧ Exclusive s :=
  exists_of_any (fun s => s.opened.length = 4) (by decide +kernel) fun _ hs hlen =>
    ⟨hlen, (exclusive_of_careful _ (by decide +kernel) hs).1⟩

/-- **A stream of the second slot is opened anew while the first is free**: its own object counts as
free, and the next open hands it out again. -/
theorem moved_not_exclusive : ∃ s, run step init [.fopen (opening "/A/a" "r"),
      .fopen (opening "/A/b" "r"), .fclose (.pool 0), .freopen (opening "/A/c" "r") (.pool 1),
      .fopen (opening "/A/d" "r")] = some s ∧ ¬ Exclusive s :=
  exists_of_any (fun s => ¬ s.opened.Nodup) (by decide +kernel) fun _ _ hdup h => hdup h.nodup

end Streams

end Bedrock.Stdio
