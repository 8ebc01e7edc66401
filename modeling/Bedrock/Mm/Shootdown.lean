import Bedrock.Lib.Run
import Mathlib.Tactic

/-!
# Mm/Shootdown — the cross-CPU TLB shootdown

`shootdown_impl` draws a generation from `TLB_SEQ`, acknowledges it on its own CPU, sends an IPI
to every other online CPU and polls `TLB_ACK` until each of them is at the generation; the IPI
handler flushes, loads `TLB_SEQ` and acknowledges what it loaded.

    initiator   flush -▸ fetch_add -▸ acknowledge -▸ resolve/IPI … -▸ poll … -▸ return
    handler     flush -▸ load TLB_SEQ -▸ acknowledge

Each arrow is one step of one CPU; a handler preempts the code of its own CPU.  Besides the code's
own variables a state keeps who drew each generation (`log`), the generation at each CPU's latest
flush (`flushedAt`) and the calls that returned.
-/

namespace Bedrock

open List Option Nat
open Function (update update_self update_of_ne)

namespace Shootdown

/-- Logical CPUs, `MAX_CPUS` of them. -/
abbrev Cpu := Fin 16

/-- The generation counter wraps at this width. -/
def seqModulus : ℕ := 2 ^ 64

/-- Re-IPI rounds before a silent target is declared unresponsive. -/
def retryRounds : ℕ := 3

/-! ## The state -/

/-- A position inside `acknowledge_tlb(seq)`: before its load, or before a `compare_exchange_weak`
from the value last observed. -/
inductive Ack
  | load (seq : ℕ)
  | cas (seq current : ℕ)
  deriving DecidableEq

/-- The generation an acknowledgement in progress will publish. -/
def Ack.seq : Ack → ℕ
  | .load seq => seq
  | .cas seq _ => seq

/-- A position inside a CPU's own code.  `gen` counts generations without wrapping; `targets` is
the resolved target set and `left` what of it is still to be waited for. -/
inductive Main
  | idle
  | flushed
  | acknowledge (gen : ℕ) (a : Ack)
  | resolve (gen seq cpu : ℕ) (targets : List Cpu)
  | wait (gen seq : ℕ) (targets left : List Cpu) (round : ℕ)
  | dead
  deriving DecidableEq

/-- A position inside the IPI handler. -/
inductive Handler
  | none
  | entered
  | flushed
  | acknowledge (a : Ack)
  deriving DecidableEq

/-- A call of `shootdown_impl(None)` that returned. -/
structure Return where
  cpu : Cpu
  gen : ℕ
  targets : List Cpu

structure State where
  tlbSeq : ℕ
  tlbAck : Cpu → ℕ
  online : Cpu → Bool
  ipi : Cpu → Bool
  main : Cpu → Main
  handler : Cpu → Handler
  log : List Cpu
  flushedAt : Cpu → ℕ
  returned : List Return

/-- Boot: no generation drawn, every CPU outside the shootdown code. -/
def State.init (online : Cpu → Bool) : State where
  tlbSeq := 0
  tlbAck _ := 0
  online := online
  ipi _ := false
  main _ := .idle
  handler _ := .none
  log := []
  flushedAt _ := 0
  returned := []

/-! ## One step -/

/-- What can happen next.  `fail` is a spurious failure of the weak exchange, `timeout` the end of
a wait window. -/
inductive Action
  | setOnline (c : Cpu) (on : Bool)
  | flush (c : Cpu)
  | fetchAdd (c : Cpu)
  | acknowledge (c : Cpu) (fail : Bool)
  | resolve (c : Cpu)
  | poll (c : Cpu) (timeout : Bool)
  | interrupt (c : Cpu)
  | handler (c : Cpu) (fail : Bool)
  deriving DecidableEq

/-- `while current < seq`: go on to an exchange, or return. -/
def ackLoop (seq current : ℕ) : Option Ack :=
  if current < seq then some (.cas seq current) else none

/-- The next atomic access of `acknowledge_tlb` to its CPU's entry `ack`: the entry afterwards and
where the function stands, `none` once it has returned. -/
def ackNext (ack : ℕ) (fail : Bool) : Ack → ℕ × Option Ack
  | .load seq => (ack, ackLoop seq ack)
  | .cas seq current =>
    if fail = false ∧ ack = current then (seq, none) else (ack, ackLoop seq ack)

/-- The loop over the CPUs that resolves the target set, at index `cpu`. -/
def resolveNext (s : State) (c : Cpu) (gen seq cpu : ℕ) (targets : List Cpu) : State :=
  if h : cpu < 16 then
    let d : Cpu := ⟨cpu, h⟩
    if d = c ∨ s.online d = false then
      { s with main := update s.main c (.resolve gen seq (cpu + 1) targets) }
    else
      { s with
        main := update s.main c (.resolve gen seq (cpu + 1) (targets ++ [d]))
        ipi := update s.ipi d true }
  else { s with main := update s.main c (.wait gen seq targets targets 1) }

/-- One load of a target's acknowledgement, or the return once none is left.  A window that ends
without an acknowledgement re-sends the IPI, and the last one is fatal. -/
def waitNext (s : State) (c : Cpu) (gen seq : ℕ) (targets : List Cpu) (round : ℕ)
    (timeout : Bool) : List Cpu → State
  | [] =>
    { s with
      main := update s.main c .idle
      returned := ⟨c, gen, targets⟩ :: s.returned }
  | d :: left =>
    if seq ≤ s.tlbAck d then
      { s with main := update s.main c (.wait gen seq targets left 1) }
    else if timeout = false then s
    else if round < retryRounds then
      { s with
        main := update s.main c (.wait gen seq targets (d :: left) (round + 1))
        ipi := update s.ipi d true }
    else { s with main := update s.main c .dead }

/-- One step of the code running on a CPU whose handler is not active. -/
def mainStep (s : State) : Action → Option State
  | .setOnline c on => some { s with online := update s.online c on }
  | .flush c =>
    if s.main c = .idle ∨ s.main c = .flushed then
      some { s with
        main := update s.main c .flushed
        flushedAt := update s.flushedAt c s.log.length }
    else none
  | .fetchAdd c =>
    if s.main c = .flushed then
      some { s with
        tlbSeq := (s.tlbSeq + 1) % seqModulus
        main := update s.main c
          (.acknowledge (s.log.length + 1) (.load ((s.tlbSeq + 1) % seqModulus)))
        log := s.log ++ [c] }
    else none
  | .acknowledge c fail =>
    match s.main c with
    | .acknowledge gen a =>
      some { s with
        tlbAck := update s.tlbAck c (ackNext (s.tlbAck c) fail a).1
        main := update s.main c
          (match (ackNext (s.tlbAck c) fail a).2 with
           | some a' => .acknowledge gen a'
           | none => .resolve gen a.seq 0 []) }
    | _ => none
  | .resolve c =>
    match s.main c with
    | .resolve gen seq cpu targets => some (resolveNext s c gen seq cpu targets)
    | _ => none
  | .poll c timeout =>
    match s.main c with
    | .wait gen seq targets left round => some (waitNext s c gen seq targets round timeout left)
    | _ => none
  | _ => none

/-- `tlb_shootdown_on_this_cpu`, one access at a time. -/
def handlerStep (s : State) (c : Cpu) (fail : Bool) : Option State :=
  match s.handler c with
  | .none => none
  | .entered =>
    some { s with
      handler := update s.handler c .flushed
      flushedAt := update s.flushedAt c s.log.length }
  | .flushed => some { s with handler := update s.handler c (.acknowledge (.load s.tlbSeq)) }
  | .acknowledge a =>
    some { s with
      tlbAck := update s.tlbAck c (ackNext (s.tlbAck c) fail a).1
      handler := update s.handler c
        (match (ackNext (s.tlbAck c) fail a).2 with
         | some a' => .acknowledge a'
         | none => .none) }

/-- The CPU an action's code runs on; a CPU's state bits are flipped from outside. -/
def Action.cpu? : Action → Option Cpu
  | .setOnline _ _ => none
  | .flush c | .fetchAdd c | .acknowledge c _ | .resolve c | .poll c _ => some c
  | .interrupt c | .handler c _ => some c

/-- **One step of the system.**  A pending IPI enters the handler of a CPU that is not in it, and
while a CPU is in its handler its own code stands still. -/
def step (s : State) : Action → Option State
  | .interrupt c =>
    if s.ipi c = true ∧ s.handler c = .none then
      some { s with
        ipi := update s.ipi c false
        handler := update s.handler c .entered }
    else none
  | .handler c fail => handlerStep s c fail
  | a => if ∀ c, a.cpu? = some c → s.handler c = .none then mainStep s a else none

/-! ## Acknowledgements that cover

A CPU's acknowledgement of `v` is honest when every generation up to `v` that another CPU drew was
drawn before this CPU's latest flush. -/

/-- Every generation up to `v` drawn by a CPU other than `c` is at most `flushed`. -/
def Covers (log : List Cpu) (flushed : ℕ) (c : Cpu) (v : ℕ) : Prop :=
  v ≤ log.length ∧ ∀ g, 1 ≤ g → g ≤ v → log[g - 1]? ≠ some c → g ≤ flushed

instance (log : List Cpu) (flushed : ℕ) (c : Cpu) (v : ℕ) : Decidable (Covers log flushed c v) :=
  decidable_of_iff
    (v ≤ log.length ∧ ∀ g ∈ List.range' 1 v, log[g - 1]? ≠ some c → g ≤ flushed) (by
      simp only [Covers, mem_range'_1]
      exact and_congr_right fun _ => forall_congr' fun g =>
        ⟨fun h h1 h2 => h ⟨h1, by omega⟩, fun h hg => h hg.1 (by omega)⟩)

/-- Generation `gen` was drawn by `c`. -/
def Drew (log : List Cpu) (c : Cpu) (gen : ℕ) : Prop :=
  1 ≤ gen ∧ log[gen - 1]? = some c

variable {s s' : State} {log log' : List Cpu} {c d : Cpu} {v gen n n' : ℕ}

theorem Drew.le_length (h : Drew log c gen) : gen ≤ log.length := by
  have hlt := (List.getElem?_eq_some_iff.mp h.2).1
  omega

theorem Drew.append (h : Drew log c gen) (d : Cpu) : Drew (log ++ [d]) c gen := by
  refine ⟨h.1, ?_⟩
  have := h.le_length
  have := h.1
  rw [getElem?_append_left (by omega)]
  exact h.2

theorem drew_append_self (log : List Cpu) (c : Cpu) : Drew (log ++ [c]) c (log.length + 1) := by
  simp [Drew]

theorem Covers.mono (h : Covers log n c v) (hn : n ≤ n') : Covers log n' c v :=
  ⟨h.1, fun g h1 hv hne => (h.2 g h1 hv hne).trans hn⟩

theorem Covers.append (h : Covers log n c v) (d : Cpu) : Covers (log ++ [d]) n c v := by
  refine ⟨by have := h.1; simp; omega, fun g h1 hv hne => h.2 g h1 hv ?_⟩
  have := h.1
  rwa [getElem?_append_left (by omega)] at hne

theorem covers_length (log : List Cpu) (c : Cpu) (hv : v ≤ log.length) :
    Covers log log.length c v :=
  ⟨hv, fun _ _ hg _ => hg.trans hv⟩

/-- Drawing a generation itself leaves a covering CPU covering. -/
theorem Covers.append_self (h : Covers log n c log.length) :
    Covers (log ++ [c]) n c (log.length + 1) := by
  refine ⟨by simp, fun g h1 hv hne => ?_⟩
  obtain hlt | hge := lt_or_ge log.length g
  · obtain rfl : g = log.length + 1 := by omega
    simp at hne
  · exact (h.append c).2 g h1 hge hne

/-- **A covering acknowledgement of another CPU's generation is a flush after it.** -/
theorem Covers.le_flushed (h : Covers log n d v) (hdrew : Drew log c gen) (hne : d ≠ c)
    (hv : gen ≤ v) : gen ≤ n :=
  h.2 gen hdrew.1 hv (by rw [hdrew.2]; simpa using hne.symm)

/-- An access of `acknowledge_tlb` keeps the entry between its old value and the generation
published… -/
theorem ackNext_fst (ack : ℕ) (fail : Bool) (a : Ack) (hcur : ∀ q k, a = .cas q k → k < q) :
    ack ≤ (ackNext ack fail a).1 ∧
      ((ackNext ack fail a).1 = ack ∨ (ackNext ack fail a).1 = a.seq) := by
  cases a with
  | load seq => simp [ackNext]
  | cas seq current =>
    have hlt := hcur seq current rfl
    simp only [ackNext]
    split
    · exact ⟨by simp only; omega, Or.inr rfl⟩
    · exact ⟨le_rfl, .inl rfl⟩

/-- …and goes on with the same generation, from an observed value below it. -/
theorem ackNext_snd {ack : ℕ} {fail : Bool} {a a' : Ack} (h : (ackNext ack fail a).2 = some a') :
    a'.seq = a.seq ∧ ∀ q k, a' = .cas q k → k < q := by
  have hloop : ∀ seq, ackLoop seq ack = some a' →
      a'.seq = seq ∧ ∀ q k, a' = .cas q k → k < q := by
    intro seq h
    unfold ackLoop at h
    split at h
    · rename_i hlt
      cases h
      exact ⟨rfl, fun q k hqk => by cases hqk; exact hlt⟩
    · cases h
  cases a with
  | load seq => exact hloop seq h
  | cas seq current =>
    simp only [ackNext] at h
    split_ifs at h
    · exact hloop seq h

/-! ## The invariant -/

/-- What an acknowledgement in progress on `c` promises. -/
def AckOk (log : List Cpu) (flushed : ℕ) (c : Cpu) (a : Ack) : Prop :=
  Covers log flushed c a.seq ∧ ∀ q k, a = .cas q k → k < q

/-- …and where the handler of `c` stands: from its flush on it covers what it will load. -/
def HandlerOk (s : State) (c : Cpu) : Handler → Prop
  | .flushed => Covers s.log (s.flushedAt c) c s.log.length
  | .acknowledge a => AckOk s.log (s.flushedAt c) c a
  | _ => True

/-- …and where its own code stands: the targets no longer waited for have acknowledged. -/
def MainOk (s : State) (c : Cpu) : Main → Prop
  | .acknowledge gen a => a.seq = gen ∧ Drew s.log c gen ∧ AckOk s.log (s.flushedAt c) c a
  | .resolve gen seq _ targets => seq = gen ∧ Drew s.log c gen ∧ c ∉ targets
  | .wait gen seq targets left _ =>
    seq = gen ∧ Drew s.log c gen ∧ c ∉ targets ∧ ∀ t ∈ targets, t ∉ left → gen ≤ s.tlbAck t
  | _ => True

/-- **The call's promise**: every target of a call that returned has flushed since the call drew
its generation. -/
def Complete (s : State) : Prop :=
  ∀ r ∈ s.returned, ∀ t ∈ r.targets, r.gen ≤ s.flushedAt t

instance (s : State) : Decidable (Complete s) :=
  inferInstanceAs (Decidable (∀ r ∈ s.returned, ∀ t ∈ r.targets, r.gen ≤ s.flushedAt t))

structure Inv (s : State) : Prop where
  seq_eq : s.tlbSeq = s.log.length
  seq_lt : s.log.length < seqModulus
  flushed_le : ∀ c, s.flushedAt c ≤ s.log.length
  ack : ∀ c, Covers s.log (s.flushedAt c) c (s.tlbAck c)
  handler : ∀ c, HandlerOk s c (s.handler c)
  main : ∀ c, MainOk s c (s.main c)
  complete : Complete s

theorem inv_init (online : Cpu → Bool) : Inv (State.init online) where
  seq_eq := rfl
  seq_lt := by simp [State.init, seqModulus]
  flushed_le c := zero_le _
  ack c := ⟨zero_le _, fun g h1 hg _ => absurd hg (by simp [State.init]; omega)⟩
  handler c := trivial
  main c := trivial
  complete := fun r hr => by simp [State.init] at hr

/-- No generation is drawn, and neither flushes nor acknowledgements go back. -/
structure Quiet (s s' : State) : Prop where
  tlbSeq : s'.tlbSeq = s.tlbSeq
  log : s'.log = s.log
  flushed : ∀ c, s.flushedAt c ≤ s'.flushedAt c
  acked : ∀ c, s.tlbAck c ≤ s'.tlbAck c

theorem AckOk.mono {a : Ack} (h : AckOk log n c a) (hn : n ≤ n') : AckOk log n' c a :=
  ⟨h.1.mono hn, h.2⟩

theorem HandlerOk.quiet (hq : Quiet s s') {p : Handler} (h : HandlerOk s c p) :
    HandlerOk s' c p := by
  cases p with
  | none | entered => trivial
  | flushed | acknowledge a => simp only [HandlerOk, hq.log] at ⊢; exact h.mono (hq.flushed c)

theorem MainOk.quiet (hq : Quiet s s') {p : Main} (h : MainOk s c p) : MainOk s' c p := by
  cases p with
  | idle | flushed => trivial
  | acknowledge gen a =>
    simp only [MainOk, hq.log] at ⊢
    exact ⟨h.1, h.2.1, h.2.2.mono (hq.flushed c)⟩
  | resolve gen seq cpu targets => simpa only [MainOk, hq.log] using h
  | wait gen seq targets left round =>
    simp only [MainOk, hq.log] at ⊢
    exact ⟨h.1, h.2.1, h.2.2.1, fun t ht hl => (h.2.2.2 t ht hl).trans (hq.acked t)⟩
  | dead => trivial

variable (h : Inv s)
include h

/-- A quiet step keeps the invariant when what it changes is in order. -/
theorem Inv.quiet (hq : Quiet s s') (hfl : ∀ c, s'.flushedAt c ≤ s.log.length)
    (hack : ∀ c, s'.tlbAck c = s.tlbAck c ∨ Covers s.log (s.flushedAt c) c (s'.tlbAck c))
    (hhandler : ∀ c, s'.handler c = s.handler c ∨ HandlerOk s' c (s'.handler c))
    (hmain : ∀ c, s'.main c = s.main c ∨ MainOk s' c (s'.main c))
    (hret : ∀ r ∈ s'.returned, r ∈ s.returned ∨ ∀ t ∈ r.targets, r.gen ≤ s.flushedAt t) :
    Inv s' where
  seq_eq := by rw [hq.tlbSeq, hq.log, h.seq_eq]
  seq_lt := by rw [hq.log]; exact h.seq_lt
  flushed_le c := by rw [hq.log]; exact hfl c
  ack c := by
    rw [hq.log]
    obtain he | hc := hack c
    · rw [he]; exact (h.ack c).mono (hq.flushed c)
    · exact hc.mono (hq.flushed c)
  handler c := (hhandler c).elim (fun he => he ▸ (h.handler c).quiet hq) id
  main c := (hmain c).elim (fun he => he ▸ (h.main c).quiet hq) id
  complete r hr t ht := by
    obtain hold | hnew := hret r hr
    · exact (h.complete r hold t ht).trans (hq.flushed t)
    · exact (hnew t ht).trans (hq.flushed t)

/-! ## Every clean step keeps it -/

/-- The condition on a step.  A CPU draws a generation only when it has flushed since every
generation another CPU drew, while no handler is between its flush and its load, and before the
counter wraps. -/
def Clean (s : State) : Action → Prop
  | .fetchAdd c => Covers s.log (s.flushedAt c) c s.log.length ∧
      (∀ d, s.handler d ≠ .flushed) ∧ s.log.length + 1 < seqModulus
  | _ => True

instance (s : State) : ∀ a, Decidable (Clean s a)
  | .fetchAdd _ => inferInstanceAs (Decidable (_ ∧ _ ∧ _))
  | .setOnline _ _ | .flush _ | .acknowledge _ _ | .resolve _ | .poll _ _ | .interrupt _
  | .handler _ _ => isTrue trivial

theorem Inv.flush : Inv { s with
      main := update s.main c .flushed
      flushedAt := update s.flushedAt c s.log.length } := by
  have hup : ∀ d, s.flushedAt d ≤ update s.flushedAt c s.log.length d := by
    intro d
    obtain rfl | hne := eq_or_ne d c
    · simpa using h.flushed_le d
    · simp [hne]
  refine h.quiet ⟨rfl, rfl, hup, fun _ => le_rfl⟩ (fun d => ?_) (fun _ => .inl rfl)
    (fun _ => .inl rfl) (fun d => ?_) (fun _ hr => .inl hr)
  · obtain rfl | hne := eq_or_ne d c
    · simp
    · simpa [hne] using h.flushed_le d
  · obtain rfl | hne := eq_or_ne d c
    · right; simp [MainOk]
    · left; simp [hne]

/-- The only step that lengthens the log.  What was covered stays covered, and the drawing CPU
covers its own generation. -/
theorem Inv.fetchAdd (hclean : Clean s (.fetchAdd c)) : Inv { s with
      tlbSeq := (s.tlbSeq + 1) % seqModulus
      main := update s.main c
        (.acknowledge (s.log.length + 1) (.load ((s.tlbSeq + 1) % seqModulus)))
      log := s.log ++ [c] } := by
  obtain ⟨hcov, hhand, hlt⟩ := hclean
  have hseq : (s.tlbSeq + 1) % seqModulus = s.log.length + 1 := by
    rw [h.seq_eq]; exact mod_eq_of_lt hlt
  rw [hseq]
  refine ⟨by simp, by simpa using hlt, fun d => ?_, fun d => (h.ack d).append c, fun d => ?_,
    fun d => ?_, h.complete⟩
  · have := h.flushed_le d
    simp only [length_append]
    omega
  · have hd := h.handler d
    revert hd
    cases hp : s.handler d with
    | none | entered => exact id
    | flushed => exact absurd hp (hhand d)
    | acknowledge a => exact fun hd => ⟨hd.1.append c, hd.2⟩
  · obtain rfl | hne := eq_or_ne d c
    · simp only [update_self]
      exact ⟨rfl, drew_append_self _ _, hcov.append_self, fun q k hqk => by cases hqk⟩
    · simp only [update_of_ne hne]
      have hd := h.main d
      revert hd
      cases s.main d with
      | idle | flushed => exact id
      | acknowledge gen a => exact fun hd => ⟨hd.1, hd.2.1.append c, hd.2.2.1.append c, hd.2.2.2⟩
      | resolve gen seq cpu targets | wait gen seq targets left round =>
        exact fun hd => ⟨hd.1, hd.2.1.append c, hd.2.2⟩
      | dead => exact id

omit h in
/-- An access of `acknowledge_tlb` on `c`, from its own code or from its handler. -/
theorem quiet_ack (t : State) {fail : Bool} {a : Ack} (ha : AckOk s.log (s.flushedAt c) c a)
    (hseq : t.tlbSeq = s.tlbSeq) (hlog : t.log = s.log) (hfl : t.flushedAt = s.flushedAt)
    (hack : t.tlbAck = update s.tlbAck c (ackNext (s.tlbAck c) fail a).1) : Quiet s t ∧
      ∀ d, t.tlbAck d = s.tlbAck d ∨ Covers s.log (s.flushedAt d) d (t.tlbAck d) := by
  have hnext := ackNext_fst (s.tlbAck c) fail a ha.2
  refine ⟨⟨hseq, hlog, fun d => by rw [hfl], fun d => ?_⟩, fun d => ?_⟩
  · rw [hack]
    obtain rfl | hne := eq_or_ne d c
    · simpa using hnext.1
    · simp [hne]
  · rw [hack]
    obtain rfl | hne := eq_or_ne d c
    · simp only [update_self]
      obtain he | he := hnext.2
      · exact .inl he
      · right; rw [he]; exact ha.1
    · simp [hne]

theorem Inv.acknowledge {fail : Bool} {a : Ack} (hm : s.main c = .acknowledge gen a) : Inv { s with
      tlbAck := update s.tlbAck c (ackNext (s.tlbAck c) fail a).1
      main := update s.main c
        (match (ackNext (s.tlbAck c) fail a).2 with
         | some a' => .acknowledge gen a'
         | none => .resolve gen a.seq 0 []) } := by
  have hok := h.main c
  rw [hm] at hok
  obtain ⟨hgen, hdrew, ha⟩ := hok
  obtain ⟨hq, hacks⟩ := quiet_ack { s with
      tlbAck := update s.tlbAck c (ackNext (s.tlbAck c) fail a).1
      main := update s.main c
        (match (ackNext (s.tlbAck c) fail a).2 with
         | some a' => .acknowledge gen a'
         | none => .resolve gen a.seq 0 []) } ha rfl rfl rfl rfl
  refine h.quiet hq h.flushed_le hacks (fun _ => .inl rfl) (fun d => ?_) (fun _ hr => .inl hr)
  obtain rfl | hne := eq_or_ne d c
  · right
    simp only [update_self]
    cases hn : (ackNext (s.tlbAck d) fail a).2 with
    | none => exact ⟨hgen, hdrew, by simp⟩
    | some a' =>
      obtain ⟨hs, hlt⟩ := ackNext_snd hn
      exact ⟨hs.trans hgen, hdrew, hs ▸ ha.1, hlt⟩
  · left; simp [hne]

/-- Moving one CPU's own code, and the IPI lines, keeps the invariant. -/
theorem Inv.setMain {p : Main} {ipi : Cpu → Bool} {returned : List Return} (hp : MainOk s c p)
    (hret : ∀ r ∈ returned, r ∈ s.returned ∨ ∀ t ∈ r.targets, r.gen ≤ s.flushedAt t) : Inv { s with
      main := update s.main c p
      ipi := ipi
      returned := returned } := by
  have hq : Quiet s { s with
      main := update s.main c p, ipi := ipi, returned := returned } :=
    ⟨rfl, rfl, fun _ => le_rfl, fun _ => le_rfl⟩
  refine h.quiet hq h.flushed_le (fun _ => .inl rfl) (fun _ => .inl rfl) (fun d => ?_) hret
  obtain rfl | hne := eq_or_ne d c
  · right
    simp only [update_self]
    exact hp.quiet hq
  · left; simp [hne]

theorem Inv.resolve {seq cpu : ℕ} {targets : List Cpu}
    (hm : s.main c = .resolve gen seq cpu targets) : Inv (resolveNext s c gen seq cpu targets) := by
  have hok := h.main c
  rw [hm] at hok
  obtain ⟨hgen, hdrew, hself⟩ := hok
  unfold resolveNext
  split
  · simp only
    split
    · exact h.setMain ⟨hgen, hdrew, hself⟩ fun _ hr => .inl hr
    · rename_i hd
      refine h.setMain ⟨hgen, hdrew, ?_⟩ fun _ hr => .inl hr
      simp only [mem_append, mem_singleton, not_or]
      exact ⟨hself, fun he => hd (.inl he.symm)⟩
  · exact h.setMain ⟨hgen, hdrew, hself, fun t ht hl => absurd ht hl⟩ fun _ hr => .inl hr

/-- At the return every target has acknowledged the call's generation, and none of them drew it. -/
theorem Inv.wait {seq round : ℕ} {targets left : List Cpu} {timeout : Bool}
    (hm : s.main c = .wait gen seq targets left round) :
    Inv (waitNext s c gen seq targets round timeout left) := by
  have hok := h.main c
  rw [hm] at hok
  obtain ⟨hgen, hdrew, hself, hacked⟩ := hok
  cases left with
  | nil =>
    refine h.setMain trivial fun r hr => ?_
    obtain rfl | hr := mem_cons.mp hr
    · refine .inr fun t ht => ?_
      have hne : t ≠ c := fun he => hself (he ▸ ht)
      exact (h.ack t).le_flushed hdrew hne (hacked t ht (by simp))
    · exact .inl hr
  | cons d left =>
    simp only [waitNext]
    split
    · rename_i hle
      refine h.setMain ⟨hgen, hdrew, hself, fun t ht hl => ?_⟩ fun _ hr => .inl hr
      obtain rfl | hne := eq_or_ne t d
      · exact hgen ▸ hle
      · exact hacked t ht (by simp [hne, hl])
    · split
      · exact h
      · split
        · exact h.setMain ⟨hgen, hdrew, hself, hacked⟩ fun _ hr => .inl hr
        · exact h.setMain trivial fun _ hr => .inl hr

/-- The handler's flush covers every generation drawn so far, and so does what it then loads. -/
theorem Inv.handlerStep {fail : Bool} (hstep : handlerStep s c fail = some s') : Inv s' := by
  have hok := h.handler c
  unfold Shootdown.handlerStep at hstep
  cases hp : s.handler c with
  | none => simp [hp] at hstep
  | entered =>
    simp only [hp, some.injEq] at hstep
    subst hstep
    have hup : ∀ d, s.flushedAt d ≤ update s.flushedAt c s.log.length d ∧
        update s.flushedAt c s.log.length d ≤ s.log.length := by
      intro d
      obtain rfl | hne := eq_or_ne d c
      · simpa using h.flushed_le d
      · simpa [hne] using h.flushed_le d
    refine h.quiet ⟨rfl, rfl, fun d => (hup d).1, fun _ => le_rfl⟩ (fun d => (hup d).2)
      (fun _ => .inl rfl) (fun d => ?_) (fun _ => .inl rfl) (fun _ hr => .inl hr)
    obtain rfl | hne := eq_or_ne d c
    · right
      simp only [update_self, HandlerOk]
      exact covers_length _ _ le_rfl
    · left; simp [hne]
  | flushed =>
    simp only [hp, some.injEq] at hstep
    subst hstep
    rw [hp] at hok
    refine h.quiet ⟨rfl, rfl, fun _ => le_rfl, fun _ => le_rfl⟩ h.flushed_le (fun _ => .inl rfl)
      (fun d => ?_) (fun _ => .inl rfl) (fun _ hr => .inl hr)
    obtain rfl | hne := eq_or_ne d c
    · right
      simp only [update_self]
      refine ⟨?_, fun q k hqk => by cases hqk⟩
      rw [h.seq_eq]
      exact hok
    · left; simp [hne]
  | acknowledge a =>
    rw [hp] at hok
    simp only [hp, some.injEq] at hstep
    obtain ⟨hq, hacks⟩ := quiet_ack s' hok (by rw [← hstep])
      (by rw [← hstep]) (by rw [← hstep])
      (show _ = update s.tlbAck c (ackNext (s.tlbAck c) fail a).1 by rw [← hstep])
    subst hstep
    refine h.quiet hq h.flushed_le hacks (fun d => ?_) (fun _ => .inl rfl)
      (fun _ hr => .inl hr)
    obtain rfl | hne := eq_or_ne d c
    · right
      simp only [update_self]
      cases hn : (ackNext (s.tlbAck d) fail a).2 with
      | none => trivial
      | some a' =>
        obtain ⟨hs, hlt⟩ := ackNext_snd hn
        exact ⟨hs ▸ hok.1, hlt⟩
    · left; simp [hne]

theorem Inv.interrupt : Inv { s with
      ipi := update s.ipi c false
      handler := update s.handler c .entered } := by
  refine h.quiet ⟨rfl, rfl, fun _ => le_rfl, fun _ => le_rfl⟩ h.flushed_le (fun _ => .inl rfl)
    (fun d => ?_) (fun _ => .inl rfl) (fun _ hr => .inl hr)
  obtain rfl | hne := eq_or_ne d c
  · right; simp [HandlerOk]
  · left; simp [hne]

theorem Inv.mainStep {a : Action} (hclean : Clean s a)
    (hstep : mainStep s a = some s') : Inv s' := by
  cases a with simp only [Shootdown.mainStep] at hstep
  | setOnline c on =>
    cases hstep
    exact h.quiet ⟨rfl, rfl, fun _ => le_rfl, fun _ => le_rfl⟩ h.flushed_le (fun _ => .inl rfl)
      (fun _ => .inl rfl) (fun _ => .inl rfl) (fun _ hr => .inl hr)
  | flush c =>
    simp only [ite_none_right_eq_some, some.injEq] at hstep
    exact hstep.2 ▸ h.flush
  | fetchAdd c =>
    simp only [ite_none_right_eq_some, some.injEq] at hstep
    exact hstep.2 ▸ h.fetchAdd hclean
  | acknowledge c fail =>
    split at hstep
    · rename_i gen a hm
      exact some.inj hstep ▸ h.acknowledge hm
    · cases hstep
  | resolve c =>
    split at hstep
    · rename_i gen seq cpu targets hm
      exact some.inj hstep ▸ h.resolve hm
    · cases hstep
  | poll c timeout =>
    split at hstep
    · rename_i gen seq targets left round hm
      exact some.inj hstep ▸ h.wait hm
    · cases hstep
  | interrupt c | handler c fail => cases hstep

/-- **A clean step keeps the invariant.** -/
theorem step_inv {a : Action} (hclean : Clean s a) (hstep : step s a = some s') : Inv s' := by
  unfold step at hstep
  split at hstep
  · split at hstep
    · exact some.inj hstep ▸ h.interrupt
    · cases hstep
  · exact h.handlerStep hstep
  · split at hstep
    · exact h.mainStep hclean hstep
    · cases hstep

omit h

/-- **In a run of clean steps every shootdown that returned was complete.** -/
theorem complete_of_clean (online : Cpu → Bool) (as : List Action) (s : State)
    (hclean : RunMeets step Clean (State.init online) as)
    (hrun : run step (State.init online) as = some s) : Complete s :=
  (run_invariant Inv (fun _ _ _ h hc hs => step_inv h hc hs) as (inv_init online) hclean
    hrun).complete

/-- Two CPUs, 0 and 1, online. -/
def twoOnline (c : Cpu) : Bool := c = 0 ∨ c = 1

/-- CPU 0's call with nothing in its way: CPU 1 takes the IPI and acknowledges. -/
def soloRun : List Action :=
  ([.flush 0, .fetchAdd 0, .acknowledge 0 false, .acknowledge 0 false] : List Action) ++
    List.replicate 17 (Action.resolve 0) ++
    ([.poll 0 false, .interrupt 1, .handler 1 false, .handler 1 false, .handler 1 false,
      .handler 1 true, .handler 1 false, .poll 0 false, .poll 0 false] : List Action)

/-- The solo run is clean and returns, and its return is complete. -/
theorem soloRun_complete : RunMeets step Clean (State.init twoOnline) soloRun ∧
    ∃ s, run step (State.init twoOnline) soloRun = some s ∧ s.returned.length = 1 ∧ Complete s := by
  have hclean : RunMeets step Clean (.init twoOnline) soloRun := by decide +kernel
  refine ⟨hclean, exists_of_any (fun s => s.returned.length = 1) (by decide +kernel)
    fun s hs hret => ?_⟩
  exact ⟨hret, complete_of_clean twoOnline soloRun s hclean hs⟩

/-- Two overlapping calls: CPU 1 flushed before CPU 0 drew generation 1, and then draws and
acknowledges generation 2, which CPU 0 takes for an acknowledgement of its own. -/
def overlapRun : List Action :=
  ([.flush 1, .flush 0, .fetchAdd 0, .fetchAdd 1, .acknowledge 1 false, .acknowledge 1 false,
    .acknowledge 0 false, .acknowledge 0 false] : List Action) ++
    List.replicate 17 (Action.resolve 0) ++ [.poll 0 false, .poll 0 false]

/-- CPU 0's call returns and CPU 1, its target, has not flushed since. -/
theorem overlapRun_not_complete :
    ∃ s, run step (State.init twoOnline) overlapRun = some s ∧ ¬ Complete s :=
  exists_of_any (fun s => ¬ Complete s) (by decide +kernel) fun _ _ hbad => hbad

end Shootdown

end Bedrock
