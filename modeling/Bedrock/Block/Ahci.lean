import Bedrock.Lib.Bits
import Bedrock.Block.Device

/-!
# Block/Ahci — a batch of requests on an AHCI port

`submit` takes as many requests as it has slots, writes a frame for each of them and waits for all
the slots together; after a failure it resets the port and tries once more.

    reqs --take--▸ slots --frames--▸ device --▸ counters
            |               |
            |               └- lba and count narrowed to the fields of the command
            └- the rest of the list is dropped

The counters cover the slots only.  A list reported all ok was carried out in full exactly if it
fits the slots and every request the fields of its frame (`AhciPort.complete_iff`).
-/

namespace Bedrock.Block

open List

/-- A request as the driver takes it apart: the address and length of its buffer, and whether the
address is physical. -/
structure DriverRequest where
  lba : ℕ
  count : ℕ
  bufAddr : ℕ
  bufSize : ℕ
  phys : Bool
  isWrite : Bool
  deriving DecidableEq, Repr

/-- The bytes that the request moves. -/
def DriverRequest.bytes (r : DriverRequest) : ℕ := r.count * SECTOR_BYTES

/-! ## Frames -/

/-- The five words of a register frame. -/
structure Fis where
  w0 : ℕ
  w1 : ℕ
  w2 : ℕ
  w3 : ℕ
  w4 : ℕ
  deriving DecidableEq, Repr

structure AhciPort where
  ncq : Bool
  lba48 : Bool
  nSlots : ℕ
  maxPrdt : ℕ
  nSlots_pos : 0 < nSlots

namespace AhciPort

def writeNcqFis (lba count tag cmd : ℕ) : Fis where
  w0 := 0x8027 ||| cmd <<< 16 ||| count <<< 24 % 2 ^ 32
  w1 := lba % 2 ^ 32 &&& 0xFFFFFF ||| 0x40 <<< 24
  w2 := (lba >>> 24 &&& 0xFF) ||| (lba >>> 32 &&& 0xFF) <<< 8 ||| (lba >>> 40 &&& 0xFF) <<< 16 |||
    (count >>> 8) <<< 24
  w3 := tag <<< 3
  w4 := 0

def writeStdFis (lba48 : Bool) (lba count cmd : ℕ) : Fis :=
  if lba48 then
    { w0 := 0x8027 ||| cmd <<< 16
      w1 := lba % 2 ^ 32 &&& 0xFFFFFF ||| 0xE0 <<< 24
      w2 := (lba >>> 24 &&& 0xFF) ||| (lba >>> 32 &&& 0xFF) <<< 8 ||| (lba >>> 40 &&& 0xFF) <<< 16
      w3 := (count &&& 0xFF) ||| (count >>> 8) <<< 8
      w4 := 0 }
  else
    { w0 := 0x8027 ||| cmd <<< 16
      w1 := lba % 2 ^ 32 &&& 0xFFFFFF ||| (0xE0 ||| (lba >>> 24 &&& 0x0F)) <<< 24
      w2 := 0
      w3 := count &&& 0xFF
      w4 := 0 }

/-- The frame of a request in a slot; `count as u16` comes first. -/
def fis (port : AhciPort) (tag : ℕ) (r : DriverRequest) : Fis :=
  if port.ncq then writeNcqFis r.lba (r.count % 2 ^ 16) tag (if r.isWrite then 0x61 else 0x60)
  else if port.lba48 then
    writeStdFis true r.lba (r.count % 2 ^ 16) (if r.isWrite then 0x35 else 0x25)
  else writeStdFis false r.lba (r.count % 2 ^ 16) (if r.isWrite then 0xCA else 0xC8)

end AhciPort

/-- What a frame tells the device to do. -/
structure Command where
  isWrite : Bool
  lba : ℕ
  count : ℕ
  deriving DecidableEq, Repr

/-- A count of zero stands for the largest one. -/
def orMost (most field : ℕ) : ℕ := if field = 0 then most else field

namespace Fis

/-- A queued command has its count in the features, -/
def queued (f : Fis) (isWrite : Bool) : Command :=
  ⟨isWrite, f.w1 % 2 ^ 24 + 2 ^ 24 * (f.w2 % 2 ^ 24),
    orMost 65536 (f.w0 / 2 ^ 24 % 2 ^ 8 + 2 ^ 8 * (f.w2 / 2 ^ 24 % 2 ^ 8))⟩

/-- a 48-bit one in the count registers, -/
def ext (f : Fis) (isWrite : Bool) : Command :=
  ⟨isWrite, f.w1 % 2 ^ 24 + 2 ^ 24 * (f.w2 % 2 ^ 24), orMost 65536 (f.w3 % 2 ^ 16)⟩

/-- and a 28-bit one has the low half of the device register as the top of the address. -/
def std (f : Fis) (isWrite : Bool) : Command :=
  ⟨isWrite, f.w1 % 2 ^ 24 + 2 ^ 24 * (f.w1 / 2 ^ 24 % 2 ^ 4), orMost 256 (f.w3 % 2 ^ 8)⟩

/-- The device reads a frame by its command byte. -/
def decode (f : Fis) : Option Command :=
  match f.w0 / 2 ^ 16 % 2 ^ 8 with
  | 0x60 => some (f.queued false)
  | 0x61 => some (f.queued true)
  | 0x25 => some (f.ext false)
  | 0x35 => some (f.ext true)
  | 0xC8 => some (f.std false)
  | 0xCA => some (f.std true)
  | _ => none

end Fis

/-! ### What the device makes of a frame -/

namespace AhciPort

/-- The bytes 3 to 5 of an address, spelt one by one, are its bits from 24 to 47. -/
theorem highAddress (lba : ℕ) : (lba >>> 24 &&& 0xFF) ||| (lba >>> 32 &&& 0xFF) <<< 8 |||
    (lba >>> 40 &&& 0xFF) <<< 16 = lba / 2 ^ 24 % 2 ^ 24 := by
  simp only [and_ones (show 0xFF = 2 ^ 8 - 1 from rfl), Nat.shiftRight_eq_div_pow]
  rw [or_shiftLeft_eq_add (Nat.mod_lt _ (by decide)), or_shiftLeft_eq_add (by omega)]
  omega

theorem lowAddress (lba dev : ℕ) : lba % 2 ^ 32 &&& 0xFFFFFF ||| dev <<< 24 =
    lba % 2 ^ 24 + 2 ^ 24 * dev := by
  rw [and_ones (show 0xFFFFFF = 2 ^ 24 - 1 from rfl),
    or_shiftLeft_eq_add (Nat.mod_lt _ (by decide))]
  omega

theorem commandWord (cmd : ℕ) : 0x8027 ||| cmd <<< 16 = 0x8027 + 2 ^ 16 * cmd :=
  or_shiftLeft_eq_add (by decide) cmd

theorem decode_writeNcqFis (lba tag : ℕ) {count : ℕ} (hcount : count < 2 ^ 16) (isWrite : Bool) :
    (writeNcqFis lba count tag (if isWrite then 0x61 else 0x60)).decode =
      some ⟨isWrite, lba % 2 ^ 48, orMost 65536 count⟩ := by
  have hw0 : ∀ cmd < 2 ^ 8, 0x8027 ||| cmd <<< 16 ||| count <<< 24 % 2 ^ 32 =
      0x8027 + 2 ^ 16 * cmd + 2 ^ 24 * (count % 2 ^ 8) := by
    intro cmd hcmd
    have hmod : count <<< 24 % 2 ^ 32 = (count % 2 ^ 8) <<< 24 := by
      rw [Nat.shiftLeft_eq, Nat.shiftLeft_eq]
      omega
    rw [hmod, commandWord, or_shiftLeft_eq_add (by omega)]
  have hw2 : (lba >>> 24 &&& 0xFF) ||| (lba >>> 32 &&& 0xFF) <<< 8 |||
      (lba >>> 40 &&& 0xFF) <<< 16 ||| (count >>> 8) <<< 24 =
        lba / 2 ^ 24 % 2 ^ 24 + 2 ^ 24 * (count / 2 ^ 8) := by
    rw [highAddress, or_shiftLeft_eq_add (Nat.mod_lt _ (by decide)), Nat.shiftRight_eq_div_pow]
  have hlba : (lba % 2 ^ 24 + 2 ^ 24 * 0x40) % 2 ^ 24 +
      2 ^ 24 * ((lba / 2 ^ 24 % 2 ^ 24 + 2 ^ 24 * (count / 2 ^ 8)) % 2 ^ 24) = lba % 2 ^ 48 := by
    omega
  have hc : ∀ cmd < 2 ^ 8, (0x8027 + 2 ^ 16 * cmd + 2 ^ 24 * (count % 2 ^ 8)) / 2 ^ 24 % 2 ^ 8 +
      2 ^ 8 * ((lba / 2 ^ 24 % 2 ^ 24 + 2 ^ 24 * (count / 2 ^ 8)) / 2 ^ 24 % 2 ^ 8) = count := by
    intro cmd hcmd
    omega
  have hcmd : ∀ cmd < 2 ^ 8,
      (0x8027 + 2 ^ 16 * cmd + 2 ^ 24 * (count % 2 ^ 8)) / 2 ^ 16 % 2 ^ 8 = cmd := by
    intro cmd hcmd
    omega
  cases isWrite with
  | false =>
    simp only [Fis.decode, Fis.queued, writeNcqFis, Bool.false_eq_true, if_false, lowAddress,
      hw0 0x60 (by decide), hw2, hcmd 0x60 (by decide), hlba, hc 0x60 (by decide)]
  | true =>
    simp only [Fis.decode, Fis.queued, writeNcqFis, if_true, lowAddress,
      hw0 0x61 (by decide), hw2, hcmd 0x61 (by decide), hlba, hc 0x61 (by decide)]

theorem decode_writeStdFis_ext (lba : ℕ) {count : ℕ} (hcount : count < 2 ^ 16) (isWrite : Bool) :
    (writeStdFis true lba count (if isWrite then 0x35 else 0x25)).decode =
      some ⟨isWrite, lba % 2 ^ 48, orMost 65536 count⟩ := by
  have hw3 : (count &&& 0xFF) ||| (count >>> 8) <<< 8 = count := by
    rw [and_ones (show 0xFF = 2 ^ 8 - 1 from rfl), or_shiftLeft_eq_add (Nat.mod_lt _ (by decide)),
      Nat.shiftRight_eq_div_pow]
    omega
  have hlba : (lba % 2 ^ 24 + 2 ^ 24 * 0xE0) % 2 ^ 24 + 2 ^ 24 * (lba / 2 ^ 24 % 2 ^ 24 % 2 ^ 24) =
      lba % 2 ^ 48 := by omega
  cases isWrite with
  | false =>
    simp only [Fis.decode, Fis.ext, writeStdFis, Bool.false_eq_true, if_false, if_true,
      lowAddress, commandWord, highAddress, hw3, hlba, Nat.mod_eq_of_lt hcount]
    rfl
  | true =>
    simp only [Fis.decode, Fis.ext, writeStdFis, if_true, lowAddress,
      commandWord, highAddress, hw3, hlba, Nat.mod_eq_of_lt hcount]
    rfl

theorem decode_writeStdFis_std (lba count : ℕ) (isWrite : Bool) :
    (writeStdFis false lba count (if isWrite then 0xCA else 0xC8)).decode =
      some ⟨isWrite, lba % 2 ^ 28, orMost 256 (count % 2 ^ 8)⟩ := by
  have hdev : 0xE0 ||| (lba >>> 24 &&& 0x0F) = 0xE0 + lba / 2 ^ 24 % 2 ^ 4 := by
    rw [and_ones (show 0x0F = 2 ^ 4 - 1 from rfl), Nat.shiftRight_eq_div_pow, Nat.or_comm]
    exact (or_shiftLeft_eq_add (Nat.mod_lt _ (by decide)) 0xE).trans (by omega)
  have hlba : (lba % 2 ^ 24 + 2 ^ 24 * (0xE0 + lba / 2 ^ 24 % 2 ^ 4)) % 2 ^ 24 +
      2 ^ 24 * ((lba % 2 ^ 24 + 2 ^ 24 * (0xE0 + lba / 2 ^ 24 % 2 ^ 4)) / 2 ^ 24 % 2 ^ 4) =
        lba % 2 ^ 28 := by omega
  cases isWrite with
  | false =>
    simp only [Fis.decode, Fis.std, writeStdFis, Bool.false_eq_true, if_false, lowAddress,
      commandWord, hdev, hlba, and_ones (show 0xFF = 2 ^ 8 - 1 from rfl), Nat.mod_mod]
    rfl
  | true =>
    simp only [Fis.decode, Fis.std, writeStdFis, if_true, Bool.false_eq_true, if_false,
      lowAddress, commandWord, hdev, hlba, and_ones (show 0xFF = 2 ^ 8 - 1 from rfl), Nat.mod_mod]
    rfl

/-- The largest count that a frame of the port holds… -/
def most (port : AhciPort) : ℕ := if port.ncq || port.lba48 then 65536 else 256

/-- …and the bits of its address. -/
def addressBits (port : AhciPort) : ℕ := if port.ncq || port.lba48 then 48 else 28

/-- **What the device is told to do**: the address and the count cut to their fields. -/
theorem decode_fis (port : AhciPort) (tag : ℕ) (r : DriverRequest) : (port.fis tag r).decode =
    some ⟨r.isWrite, r.lba % 2 ^ port.addressBits, orMost port.most (r.count % port.most)⟩ := by
  have hlt : r.count % 2 ^ 16 < 2 ^ 16 := Nat.mod_lt _ (by decide)
  rw [fis, most, addressBits]
  cases hn : port.ncq with
  | true => simpa using decode_writeNcqFis r.lba tag hlt r.isWrite
  | false =>
    cases hl : port.lba48 with
    | true => simpa using decode_writeStdFis_ext r.lba hlt r.isWrite
    | false =>
      have h8 : r.count % 2 ^ 16 % 2 ^ 8 = r.count % 256 := by omega
      have h := decode_writeStdFis_std r.lba (r.count % 2 ^ 16) r.isWrite
      rw [h8] at h
      exact h

/-! ## Preparing a command -/

/-- An entry of the table of memory regions: an address and a length less one. -/
structure PrdEntry where
  dba : ℕ
  dbc : ℕ
  deriving DecidableEq, Repr

/-- `build_prdt` with `k` entries left; `phys` says where a page of the buffer is. -/
def buildPrdt (phys : ℕ → Option ℕ) : ℕ → ℕ → ℕ → Option (List PrdEntry)
  | _, _, 0 => some []
  | 0, _, _ + 1 => none
  | k + 1, addr, rem + 1 =>
    match phys addr with
    | none => none
    | some pa =>
      let chunk := min (rem + 1) (4096 - addr % 4096)
      (buildPrdt phys k (addr + chunk) (rem + 1 - chunk)).map
        (⟨pa ||| addr % 4096, chunk - 1⟩ :: ·)

/-- Only the last entry asks for an interrupt. -/
def requestCompletion : List PrdEntry → List PrdEntry
  | [] => []
  | [e] => [{ e with dbc := e.dbc ||| 1 <<< 31 }]
  | e :: es => e :: requestCompletion es

/-- What becomes of a request that is given a slot: the words of its command, a refusal, or an
overflow in taking one from zero, which stops the kernel. -/
inductive Prepared
  | ready (fis : Fis) (prdt : List PrdEntry) (header : ℕ)
  | refused
  | panics
  deriving DecidableEq, Repr

/-- `prepare_cmd_inner`, on a table that has been built. -/
def finish (port : AhciPort) (tag : ℕ) (r : DriverRequest) : List PrdEntry → Prepared
  | [] => .panics
  | prdt => .ready (port.fis tag r) (requestCompletion prdt)
      (5 ||| (if r.isWrite then 1 <<< 6 else 0) ||| prdt.length <<< 16)

/-- `prepare_cmd` and `prepare_cmd_phys`, after the check of the buffer's length.  A null address
stands for the scratch page. -/
def prepare (port : AhciPort) (translate : ℕ → Option ℕ) (scratch tag : ℕ) (r : DriverRequest) :
    Prepared :=
  if r.bufSize < r.bytes then .refused
  else if r.bufAddr ≠ 0 then
    match buildPrdt (if r.phys then some else translate) port.maxPrdt r.bufAddr r.bytes with
    | none => .refused
    | some prdt => port.finish tag r prdt
  else if r.bytes = 0 then .panics
  else port.finish tag r [⟨scratch, r.bytes - 1⟩]

/-! ## Submission -/

/-- What the port shows of one attempt at a batch. -/
structure Attempt where
  /-- `virt_to_phys` while the commands are prepared. -/
  translate : ℕ → Option ℕ
  /-- A slot of the batch is still in use when the batch is kicked. -/
  active : Bool
  /-- The command in this slot has not finished by the deadline… -/
  pending : ℕ → Bool
  /-- …or has finished with an error, which sets the error bit of the port. -/
  failed : ℕ → Bool
  /-- The received frame shows an error. -/
  sdbError : Bool

/-- What the hardware does during a call. -/
structure Hardware where
  scratch : ℕ
  first : Attempt
  resetOk : Bool
  second : Attempt

inductive AhciError
  | slotStillActive | cmdError | timeout | sdbFisError | portResetFailed
  deriving DecidableEq, Repr

/-- A request with a slot, and the frame prepared for it. -/
structure Job where
  index : ℕ
  request : DriverRequest
  deriving DecidableEq, Repr

/-- A command that was given to the device: the place of its request in the list, its frame, and
whether it has finished without an error. -/
structure Issue where
  index : ℕ
  fis : Fis
  done : Bool
  deriving DecidableEq, Repr

/-- The jobs that are ready and the number of those that are refused, unless one stops the kernel.
The slot of a job is its index. -/
def prepareAll (port : AhciPort) (translate : ℕ → Option ℕ) (scratch : ℕ) :
    List Job → Option (List (Job × Fis) × ℕ)
  | [] => some ([], 0)
  | j :: js =>
    match port.prepare translate scratch j.index j.request with
    | .panics => none
    | .refused => (prepareAll port translate scratch js).map fun x => (x.1, x.2 + 1)
    | .ready fis _ _ => (prepareAll port translate scratch js).map fun x => ((j, fis) :: x.1, x.2)

namespace Attempt

variable (a : Attempt) (ready : List (Job × Fis))

def done (tag : ℕ) : Bool := !a.pending tag && !a.failed tag

/-- `kick_batch`, then `wait_slots`. -/
def submitBatch : Except AhciError Unit :=
  if a.active then .error .slotStillActive
  else if ready.any fun x => a.pending x.1.index then .error .timeout
  else if ready.any fun x => a.failed x.1.index then .error .cmdError
  else if a.sdbError then .error .sdbFisError
  else .ok ()

/-- The commands that the device was given. -/
def issues : List Issue :=
  if a.active then [] else ready.map fun x => ⟨x.1.index, x.2, a.done x.1.index⟩

end Attempt

/-- The commands that the port queues at once. -/
def slots (port : AhciPort) : ℕ := if port.ncq then port.nSlots else 1

/-- How many requests of a list are taken. -/
def taken (port : AhciPort) (reqs : List DriverRequest) : ℕ := min reqs.length port.slots

def jobs (port : AhciPort) (reqs : List DriverRequest) : List Job :=
  (reqs.take (port.taken reqs)).zipIdx.map fun x => ⟨x.2, x.1⟩

/-- The second attempt of `submit`, on the jobs that were ready in the first. -/
def retry (port : AhciPort) (hw : Hardware) (n bad : ℕ) (ready : List (Job × Fis)) :
    Option (Except AhciError IoCompletions × List Issue) :=
  let before := hw.first.issues ready
  if hw.resetOk = false then some (.error .portResetFailed, before)
  else
    match port.prepareAll hw.second.translate hw.scratch (ready.map Prod.fst) with
    | none => none
    | some (again, bad') =>
      if again = [] then some (.ok ⟨0, n⟩, before)
      else
        match hw.second.submitBatch again with
        | .ok () => some (.ok ⟨again.length, bad + bad'⟩, before ++ hw.second.issues again)
        | .error e => some (.error e, before ++ hw.second.issues again)

/-- `AhciPort::submit`: the answer and the commands issued, unless the kernel stops.  The lock is
held throughout and every way out gives the slots back, so all of them are free. -/
def submit (port : AhciPort) (hw : Hardware) (reqs : List DriverRequest) :
    Option (Except AhciError IoCompletions × List Issue) :=
  let n := port.taken reqs
  if n = 0 then some (.ok ⟨0, 0⟩, [])
  else
    match port.prepareAll hw.first.translate hw.scratch (port.jobs reqs) with
    | none => none
    | some (ready, bad) =>
      if ready = [] then some (.ok ⟨0, n⟩, [])
      else
        match hw.first.submitBatch ready with
        | .ok () => some (.ok ⟨ready.length, bad⟩, hw.first.issues ready)
        | .error _ => port.retry hw n bad ready

/-! ## Which requests are prepared -/

/-- The pages that the buffer touches. -/
def pages (addr size : ℕ) : ℕ := (addr % 4096 + size + 4095) / 4096

/-- The request is never given to the device: it moves nothing, its buffer is too short, or the
buffer touches more pages than the table has entries. -/
def Hopeless (port : AhciPort) (r : DriverRequest) : Prop :=
  r.count = 0 ∨ r.bufSize < r.bytes ∨ (r.bufAddr ≠ 0 ∧ port.maxPrdt < pages r.bufAddr r.bytes)

instance (port : AhciPort) (r : DriverRequest) : Decidable (port.Hopeless r) :=
  inferInstanceAs (Decidable (_ ∨ _))

theorem pages_succ (addr rem : ℕ) : pages addr (rem + 1) = if rem + 1 ≤ 4096 - addr % 4096 then 1
    else pages (addr + (4096 - addr % 4096)) (rem + 1 - (4096 - addr % 4096)) + 1 := by
  simp only [pages]
  split_ifs
  · omega
  · omega

theorem buildPrdt_zero (phys : ℕ → Option ℕ) (k addr : ℕ) : buildPrdt phys k addr 0 = some [] := by
  cases k <;> rfl

theorem pages_le_of_buildPrdt {phys : ℕ → Option ℕ} : ∀ {k addr rem : ℕ} {prdt : List PrdEntry},
    buildPrdt phys k addr rem = some prdt → 0 < rem → pages addr rem ≤ k ∧ prdt ≠ []
  | 0, addr, rem + 1, prdt, h, _ => by cases h
  | k + 1, addr, rem + 1, prdt, h, _ => by
    rw [buildPrdt] at h
    cases hp : phys addr with
    | none => simp [hp] at h
    | some pa =>
      simp only [hp, Option.map_eq_some_iff] at h
      obtain ⟨rest, hrest, rfl⟩ := h
      refine ⟨?_, cons_ne_nil _ _⟩
      rw [pages_succ]
      split_ifs with hle
      · omega
      · rw [Nat.min_eq_right (by omega)] at hrest
        have := (pages_le_of_buildPrdt hrest (by omega)).1
        omega

theorem buildPrdt_of_pages_le {phys : ℕ → Option ℕ} (hphys : ∀ a, (phys a).isSome) :
    ∀ {k addr rem : ℕ}, pages addr rem ≤ k → ∃ prdt, buildPrdt phys k addr rem = some prdt
  | k, addr, 0, _ => ⟨[], buildPrdt_zero phys k addr⟩
  | 0, addr, rem + 1, h => by
    rw [pages_succ] at h
    split_ifs at h <;> omega
  | k + 1, addr, rem + 1, h => by
    obtain ⟨pa, hpa⟩ := Option.isSome_iff_exists.mp (hphys addr)
    rw [pages_succ] at h
    have hrest : ∃ rest, buildPrdt phys k (addr + min (rem + 1) (4096 - addr % 4096))
        (rem + 1 - min (rem + 1) (4096 - addr % 4096)) = some rest := by
      split_ifs at h with hle
      · rw [Nat.min_eq_left hle, Nat.sub_self]
        exact ⟨[], buildPrdt_zero phys k _⟩
      · rw [Nat.min_eq_right (by omega)]
        exact buildPrdt_of_pages_le hphys (by omega)
    obtain ⟨rest, hrest⟩ := hrest
    simp only [buildPrdt, hpa, hrest, Option.map_some]
    exact ⟨_, rfl⟩

variable {port : AhciPort} {translate : ℕ → Option ℕ} {scratch tag : ℕ} {r : DriverRequest}

theorem bytes_eq_zero : r.bytes = 0 ↔ r.count = 0 := by
  simp [DriverRequest.bytes, SECTOR_BYTES]

theorem finish_ready {l : List PrdEntry} (h : l ≠ []) :
    ∃ prdt header, port.finish tag r l = .ready (port.fis tag r) prdt header := by
  cases l with
  | nil => exact absurd rfl h
  | cons e es => exact ⟨_, _, rfl⟩

theorem of_finish_ready {l prdt : List PrdEntry} {f : Fis} {header : ℕ}
    (h : port.finish tag r l = .ready f prdt header) : f = port.fis tag r ∧ l ≠ [] := by
  cases l with
  | nil => cases h
  | cons e es => exact ⟨(Prepared.ready.inj h).1.symm, cons_ne_nil _ _⟩

/-- A request that is ready is not hopeless, and its frame is as it should be. -/
theorem of_prepare_ready {f : Fis} {prdt : List PrdEntry} {header : ℕ}
    (h : port.prepare translate scratch tag r = .ready f prdt header) :
    f = port.fis tag r ∧ ¬ port.Hopeless r := by
  rw [prepare] at h
  split at h
  · cases h
  rename_i hsize
  split at h
  next haddr =>
    split at h
    · cases h
    rename_i l hl
    obtain ⟨hf, hne⟩ := of_finish_ready h
    have hcount : r.count ≠ 0 := fun h0 => hne (by
      rw [bytes_eq_zero.mpr h0, buildPrdt_zero] at hl
      exact (Option.some.inj hl).symm)
    have hpos : 0 < r.bytes := Nat.pos_of_ne_zero fun h0 => hcount (bytes_eq_zero.mp h0)
    have hpages := (pages_le_of_buildPrdt hl hpos).1
    exact ⟨hf, fun hh => hh.elim hcount fun h' => h'.elim hsize fun h'' => by omega⟩
  next haddr =>
    split at h
    · cases h
    rename_i hbytes
    exact ⟨(of_finish_ready h).1, fun hh => hh.elim (fun h0 => hbytes (bytes_eq_zero.mpr h0))
      fun h' => h'.elim hsize fun h'' => haddr h''.1⟩

/-- A request that is not hopeless is ready once every page of it can be found. -/
theorem prepare_of_not_hopeless (scratch tag : ℕ) (h : ¬ port.Hopeless r) : ∃ prdt header,
    port.prepare some scratch tag r = .ready (port.fis tag r) prdt header := by
  simp only [Hopeless, not_or, not_and] at h
  obtain ⟨hcount, hsize, hpages⟩ := h
  have hbytes : r.bytes ≠ 0 := fun h0 => hcount (bytes_eq_zero.mp h0)
  rw [prepare, if_neg hsize]
  by_cases haddr : r.bufAddr = 0
  · rw [if_neg (not_not.mpr haddr), if_neg hbytes]
    exact finish_ready (cons_ne_nil _ _)
  · have hall : ∀ a : ℕ, (some a).isSome := fun _ => rfl
    obtain ⟨prdt, hprdt⟩ := buildPrdt_of_pages_le hall (not_lt.mp (hpages haddr))
    rw [if_pos haddr, ite_self, hprdt]
    exact finish_ready (pages_le_of_buildPrdt hprdt (Nat.pos_of_ne_zero hbytes)).2

/-! ## What a batch that is reported all ok has done -/

/-- The frame that belongs to a job. -/
def ready (port : AhciPort) (j : Job) : Job × Fis := (j, port.fis j.index j.request)

theorem of_prepareAll : ∀ {js : List Job} {l : List (Job × Fis)} {bad : ℕ},
    port.prepareAll translate scratch js = some (l, bad) → bad = 0 →
      l = js.map port.ready ∧ ∀ j ∈ js, ¬ port.Hopeless j.request
  | [], l, bad, h, _ => by
    obtain ⟨rfl, -⟩ := Prod.mk.inj (Option.some.inj h)
    exact ⟨rfl, fun _ hj => absurd hj not_mem_nil⟩
  | j :: js, l, bad, h, hbad => by
    rw [prepareAll] at h
    split at h
    next => cases h
    next =>
      obtain ⟨x, -, hx⟩ := Option.map_eq_some_iff.mp h
      have := (Prod.mk.inj hx).2
      omega
    next f prdt header hf =>
      obtain ⟨⟨l', bad'⟩, hrest, hx⟩ := Option.map_eq_some_iff.mp h
      cases hx
      obtain ⟨rfl, hjs⟩ := of_prepareAll hrest hbad
      obtain ⟨rfl, hj⟩ := of_prepare_ready hf
      exact ⟨rfl, forall_mem_cons.mpr ⟨hj, hjs⟩⟩

theorem prepareAll_of_not_hopeless : ∀ {js : List Job}, (∀ j ∈ js, ¬ port.Hopeless j.request) →
    port.prepareAll some scratch js = some (js.map port.ready, 0)
  | [], _ => rfl
  | j :: js, h => by
    rw [forall_mem_cons] at h
    obtain ⟨prdt, header, hj⟩ := prepare_of_not_hopeless scratch j.index h.1
    simp only [prepareAll, hj, prepareAll_of_not_hopeless h.2, Option.map_some]
    rfl

/-- A batch whose wait was a success has been issued, and each of its commands is done. -/
theorem mem_issues_of_submitBatch {a : Attempt} {l : List (Job × Fis)}
    (h : a.submitBatch l = .ok ()) {x : Job × Fis} (hx : x ∈ l) :
    (⟨x.1.index, x.2, true⟩ : Issue) ∈ a.issues l := by
  rw [Attempt.submitBatch] at h
  split_ifs at h with hactive hpending hfailed hsdb
  have hp : a.pending x.1.index = false := by
    simpa using fun hp => hpending (any_eq_true.mpr ⟨x, hx, hp⟩)
  have hf : a.failed x.1.index = false := by
    simpa using fun hf => hfailed (any_eq_true.mpr ⟨x, hx, hf⟩)
  rw [Attempt.issues, if_neg hactive]
  exact mem_map.mpr ⟨x, hx, by simp [Attempt.done, hp, hf]⟩

variable {reqs : List DriverRequest}

theorem mem_jobs {j : Job} : j ∈ port.jobs reqs ↔
    j.index < port.taken reqs ∧ reqs[j.index]? = some j.request := by
  obtain ⟨i, r⟩ := j
  simp only [jobs, mem_map, Prod.exists, mem_zipIdx_iff_getElem?, Job.mk.injEq]
  constructor
  · rintro ⟨r', i', h, rfl, rfl⟩
    rw [getElem?_take] at h
    split_ifs at h with hi
    exact ⟨hi, h⟩
  · rintro ⟨hi, h⟩
    exact ⟨r, i, by rw [getElem?_take, if_pos hi]; exact h, rfl, rfl⟩

theorem jobs_length (reqs : List DriverRequest) : (port.jobs reqs).length = port.taken reqs := by
  simp [jobs, taken]

theorem not_allOk_zero (n : ℕ) : (IoCompletions.mk 0 n).allOk ≠ true := by
  simp [IoCompletions.allOk]

theorem errors_of_allOk {m bad : ℕ} (h : (IoCompletions.mk m bad).allOk = true) : bad = 0 := by
  have := of_decide_eq_true h
  exact this.1

/-- The second attempt, reported all ok, covers all the jobs it was given. -/
theorem retry_allOk {hw : Hardware} {n bad : ℕ} {l : List (Job × Fis)} {c : IoCompletions}
    {issued : List Issue} (h : port.retry hw n bad l = some (.ok c, issued))
    (hc : c.allOk = true) : bad = 0 ∧ ∀ j ∈ l.map Prod.fst, ¬ port.Hopeless j.request ∧
      (⟨j.index, port.fis j.index j.request, true⟩ : Issue) ∈ issued := by
  simp only [retry] at h
  split at h
  · simp at h
  split at h
  · cases h
  rename_i again bad' hagain
  split at h
  next =>
    obtain ⟨rfl, -⟩ := by simpa using h
    exact absurd hc (not_allOk_zero _)
  next =>
    split at h
    next hbatch =>
      obtain ⟨rfl, rfl⟩ := by simpa using h
      obtain ⟨hbad, hbad'⟩ := Nat.add_eq_zero_iff.mp (errors_of_allOk hc)
      obtain ⟨rfl, hjobs⟩ := of_prepareAll hagain hbad'
      refine ⟨hbad, fun j hj => ⟨hjobs j hj, mem_append_right _ ?_⟩⟩
      exact mem_issues_of_submitBatch hbatch (mem_map_of_mem (f := port.ready) hj)
    next => simp at h

/-- **A batch reported all ok has no hopeless request among those taken, and the command of each of
those was issued and is done.** -/
theorem submit_allOk {hw : Hardware} {c : IoCompletions}
    {issued : List Issue} (h : port.submit hw reqs = some (.ok c, issued)) (hc : c.allOk = true) :
    ∀ j ∈ port.jobs reqs, ¬ port.Hopeless j.request ∧
      (⟨j.index, port.fis j.index j.request, true⟩ : Issue) ∈ issued := by
  simp only [submit] at h
  split at h
  next =>
    obtain ⟨rfl, -⟩ := by simpa using h
    exact absurd hc (not_allOk_zero 0)
  next =>
    split at h
    · cases h
    rename_i l bad hl
    split at h
    next =>
      obtain ⟨rfl, -⟩ := by simpa using h
      exact absurd hc (not_allOk_zero _)
    next =>
      split at h
      next hbatch =>
        obtain ⟨rfl, rfl⟩ := by simpa using h
        obtain ⟨rfl, hjobs⟩ := of_prepareAll hl (errors_of_allOk hc)
        exact fun j hj => ⟨hjobs j hj,
          mem_issues_of_submitBatch hbatch (mem_map_of_mem (f := port.ready) hj)⟩
      next =>
        obtain ⟨hbad, hjobs⟩ := retry_allOk h hc
        obtain ⟨rfl, -⟩ := of_prepareAll hl hbad
        exact fun j hj => hjobs j (by simpa [ready] using hj)

/-- Hardware on which all goes well. -/
def ideal : Hardware :=
  let a : Attempt := ⟨some, false, fun _ => false, fun _ => false, false⟩
  ⟨0, a, true, a⟩

theorem taken_pos (hne : reqs ≠ []) : 0 < port.taken reqs := by
  have hlen := length_pos_iff.mpr hne
  have := port.nSlots_pos
  rw [taken, slots]
  split_ifs <;> omega

/-- On such hardware a batch without hopeless requests is reported all ok. -/
theorem submit_ideal (hne : reqs ≠ []) (h : ∀ j ∈ port.jobs reqs, ¬ port.Hopeless j.request) :
    port.submit ideal reqs = some (.ok ⟨port.taken reqs, 0⟩,
      (port.jobs reqs).map fun j => ⟨j.index, port.fis j.index j.request, true⟩) := by
  have hn : port.taken _ ≠ 0 := (taken_pos hne).ne'
  have hready : (port.jobs reqs).map port.ready ≠ [] := fun h0 => hn (by
    rw [← jobs_length, map_eq_nil_iff.mp h0, length_nil])
  have hbatch : ∀ l, ideal.first.submitBatch l = .ok () := fun l => by
    simp [ideal, Attempt.submitBatch]
  simp only [submit, if_neg hn, show ideal.first.translate = some from rfl,
    prepareAll_of_not_hopeless h, if_neg hready, hbatch, length_map, jobs_length]
  congr 2
  simp [Attempt.issues, ideal, ready, Attempt.done]

/-! ## Complete batches -/

/-- Every request has a command of its own, which encodes it exactly and is done. -/
def Carried (reqs : List DriverRequest) (issued : List Issue) : Prop :=
  ∀ i r, reqs[i]? = some r → ∃ x ∈ issued, x.index = i ∧ x.done = true ∧
    x.fis.decode = some ⟨r.isWrite, r.lba, r.count⟩

/-- Whatever the hardware does, the list is carried out in full if it is reported all ok. -/
def Complete (port : AhciPort) (reqs : List DriverRequest) : Prop :=
  ∀ hw c issued, port.submit hw reqs = some (.ok c, issued) → c.allOk = true → Carried reqs issued

/-- The address and the count fit the fields of the port's frames. -/
def Encodable (port : AhciPort) (r : DriverRequest) : Prop :=
  r.lba < 2 ^ port.addressBits ∧ r.count ≤ port.most

instance (port : AhciPort) (r : DriverRequest) : Decidable (port.Encodable r) :=
  inferInstanceAs (Decidable (_ ∧ _))

theorem most_pos (port : AhciPort) : 0 < port.most := by
  rw [most]
  split_ifs <;> decide

theorem orMost_mod_eq_iff {most count : ℕ} (hmost : 0 < most) (hcount : count ≠ 0) :
    orMost most (count % most) = count ↔ count ≤ most := by
  have hlt := Nat.mod_lt count hmost
  rw [orMost]
  constructor
  · intro h
    split_ifs at h <;> omega
  · intro h
    obtain h | rfl := Nat.lt_or_eq_of_le h
    · rw [Nat.mod_eq_of_lt h, if_neg hcount]
    · rw [Nat.mod_self, if_pos rfl]

/-- The frame of a request tells the device to do just that exactly if the request fits. -/
theorem decode_fis_eq_iff (hcount : r.count ≠ 0) :
    (port.fis tag r).decode = some ⟨r.isWrite, r.lba, r.count⟩ ↔ port.Encodable r := by
  rw [decode_fis, Option.some.injEq, Command.mk.injEq, orMost_mod_eq_iff port.most_pos hcount,
    Encodable]
  simp only [true_and]
  refine and_congr_left fun _ => ⟨fun h => ?_, Nat.mod_eq_of_lt⟩
  rw [← h]
  exact Nat.mod_lt _ (by positivity)

theorem exists_hopeless_iff (reqs : List DriverRequest) :
    (∃ r ∈ reqs.take port.slots, port.Hopeless r) ↔
      ∃ j ∈ port.jobs reqs, port.Hopeless j.request := by
  constructor
  · rintro ⟨r, hr, hh⟩
    obtain ⟨i, hi⟩ := mem_iff_getElem?.mp hr
    rw [getElem?_take] at hi
    split_ifs at hi with hslot
    have hlen := (List.getElem?_eq_some_iff.mp hi).1
    exact ⟨⟨i, r⟩, mem_jobs.mpr ⟨lt_min hlen hslot, hi⟩, hh⟩
  · rintro ⟨⟨i, r⟩, hj, hh⟩
    obtain ⟨hi, hget⟩ := mem_jobs.mp hj
    refine ⟨r, mem_iff_getElem?.mpr ⟨i, ?_⟩, hh⟩
    rw [getElem?_take, if_pos (lt_of_lt_of_le hi (Nat.min_le_right _ _))]
    exact hget

/-- **A list is carried out in full whenever it is reported all ok exactly if one of the requests
that get a slot is always refused, or all of them get a slot and fit their frames.** -/
theorem complete_iff (reqs : List DriverRequest) : port.Complete reqs ↔
    (∃ r ∈ reqs.take port.slots, port.Hopeless r) ∨
      (reqs.length ≤ port.slots ∧ ∀ r ∈ reqs, port.Encodable r) := by
  rw [exists_hopeless_iff]
  constructor
  · intro hcomplete
    by_contra hnot
    rw [not_or, not_exists] at hnot
    obtain ⟨hfine, hrest⟩ := hnot
    replace hfine : ∀ j ∈ port.jobs reqs, ¬ port.Hopeless j.request := fun j hj hh =>
      hfine j ⟨hj, hh⟩
    have hne : reqs ≠ [] := by
      rintro rfl
      exact hrest ⟨Nat.zero_le _, fun _ hr => absurd hr not_mem_nil⟩
    have hcarried := hcomplete _ _ _ (submit_ideal hne hfine)
      (by simpa [IoCompletions.allOk] using (taken_pos hne).ne')
    -- the command that carries a request is that of its own job
    have hjob : ∀ i r, reqs[i]? = some r → i < port.taken reqs ∧ port.Encodable r := by
      intro i r hi
      obtain ⟨x, hx, rfl, -, hdecode⟩ := hcarried i r hi
      obtain ⟨j, hj, rfl⟩ := mem_map.mp hx
      obtain ⟨htaken, hget⟩ := mem_jobs.mp hj
      obtain rfl : j.request = r := Option.some.inj (hget.symm.trans hi)
      have hcount : j.request.count ≠ 0 := fun h0 => hfine j hj (.inl h0)
      exact ⟨htaken, (decode_fis_eq_iff hcount).mp hdecode⟩
    refine hrest ⟨?_, fun r hr => ?_⟩
    · by_contra hlong
      have hi := getElem?_eq_getElem (not_le.mp hlong)
      exact absurd (hjob _ _ hi).1 (not_lt.mpr (Nat.min_le_right _ _))
    · obtain ⟨i, hi⟩ := mem_iff_getElem?.mp hr
      exact (hjob i r hi).2
  · rintro (⟨j, hj, hh⟩ | ⟨hlen, henc⟩) hw c issued h hc
    · exact absurd hh (submit_allOk h hc j hj).1
    · intro i r hi
      have hlt := (List.getElem?_eq_some_iff.mp hi).1
      obtain ⟨hfine, hmem⟩ := submit_allOk h hc ⟨i, r⟩
        (mem_jobs.mpr ⟨lt_min hlt (hlt.trans_le hlen), hi⟩)
      have hcount : r.count ≠ 0 := fun h0 => hfine (.inl h0)
      exact ⟨_, hmem, rfl, rfl, (decode_fis_eq_iff hcount).mpr
        (henc r (mem_of_getElem? hi))⟩

end AhciPort

end Bedrock.Block
