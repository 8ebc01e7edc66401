import Bedrock.Caps.Introspect
import Bedrock.Lib.Run

/-!
# Unispace/ResolveCache — the resolve cache under interleaving

Resolving a path walks the namespace one component at a time.  What the walk finds is remembered in
a table of 128 slots, under a 64-bit hash of the path and the generation of the namespace at the
time of storing; directories change first their map and then the generation:

    resolve   --lookup--▸ walk --▸ walk --▸ ⋯ --▸ store
    insert             --map--▸ --bump--▸

Any two of these steps may lie between those of another call.  Two paths of one hash share a slot,
and a walk that a change overtakes is stored as if it came after it.  Without either the cache
cannot be seen from outside (`transparent_run`).
-/

namespace Bedrock.Unispace

open List Option

/-! ## Objects and the walk -/

/-- The objects of the namespace: map-backed directories, services that host children, and what
the providers bring along. -/
inductive ObjectClass
  | simpleDir
  | serviceDir (kind : ObjectKind)
  | provider (kind : ObjectKind)
  deriving DecidableEq, Repr

/-- `Object::kind`. -/
def ObjectClass.kind : ObjectClass → ObjectKind
  | .simpleDir => .dir
  | .serviceDir kind => kind
  | .provider kind => kind

/-- `Object::cacheable`. -/
def ObjectClass.cacheable : ObjectClass → Bool
  | .simpleDir => true
  | _ => false

/-- `insert_child` and `remove_child` are supported. -/
def ObjectClass.dynamic : ObjectClass → Bool
  | .provider _ => false
  | _ => true

/-- The children of every object. -/
abbrev Children := ℕ → Str → Option ℕ

def Children.set (T : Children) (dir : ℕ) (name : Str) (obj : Option ℕ) : Children :=
  fun d n => if d = dir ∧ n = name then obj else T d n

/-- The root of the namespace. -/
def root : ℕ := 0

section Walk

variable (objs : ℕ → ObjectClass)

/-- The error of a walk that finds nothing below `cur`. -/
def missing (cur : ℕ) : UnispaceError :=
  if (objs cur).kind ≠ .dir then .notADirectory else .notFound

/-- The walk without a cache, in a namespace that stands still. -/
def walkFrom (T : Children) : ℕ → List Str → Except UnispaceError ℕ
  | cur, [] => .ok cur
  | cur, comp :: rest =>
    match T cur comp with
    | some obj => walkFrom T obj rest
    | none => .error (missing objs cur)

/-- …with the selector of the path handed back. -/
def uncached (T : Children) (p : ParsedPath) : Except UnispaceError (ℕ × Option Str) :=
  (walkFrom objs T root p.components).map (·, p.method)

end Walk

/-! ## The cache -/

/-- The bytes of a component. -/
def asBytes (c : Str) : List UInt8 := c.flatMap String.utf8EncodeChar

def hashBytes (h : UInt64) (bs : List UInt8) : UInt64 :=
  bs.foldl (fun h b => (h ^^^ b.toUInt64) * 0x100000001b3) h

/-- `path_hash`. -/
def pathHash : List Str → UInt64
  | [] => 0xcbf29ce484222325
  | c :: cs =>
    cs.foldl (fun h c => hashBytes ((h ^^^ 0x2f) * 0x100000001b3) (asBytes c))
      (hashBytes 0xcbf29ce484222325 (asBytes c))

def resolveShards : UInt64 := 128

structure ResolveEntry where
  hash : UInt64
  generation : UInt64
  obj : ℕ
  deriving DecidableEq, Repr

abbrev ResolveCache := UInt64 → Option ResolveEntry

/-- `cache_lookup` when the namespace is at generation `gen`. -/
def cacheLookup (cache : ResolveCache) (gen : UInt64) (components : List Str) : Option ℕ :=
  match cache (pathHash components % resolveShards) with
  | some e => if e.hash ≠ pathHash components ∨ e.generation ≠ gen then none else some e.obj
  | none => none

/-- `cache_store`. -/
def cacheStore (cache : ResolveCache) (gen : UInt64) (components : List Str) (obj : ℕ) :
    ResolveCache :=
  let hash := pathHash components
  fun shard => if shard = hash % resolveShards then some ⟨hash, gen, obj⟩ else cache shard

/-! ## Calls and steps -/

/-- Where a call of `resolve_parsed` stands. -/
inductive Phase
  | called
  | walking (current : ℕ) (rest : List Str) (chainCacheable : Bool)
  | returned (r : Except UnispaceError (ℕ × Option Str))
  deriving DecidableEq

/-- A call, with the states of the tree since it began. -/
structure Call where
  path : ParsedPath
  phase : Phase
  seen : List Children

/-- The namespace: `pending` counts the changes whose generation has not been bumped yet, `asked`
keeps the paths of all calls. -/
structure Namespace where
  tree : Children
  gen : UInt64
  cache : ResolveCache
  pending : ℕ
  calls : List Call
  asked : List (List Str)

inductive Action
  | call (p : ParsedPath)
  | advance (i : ℕ)
  | insert (dir : ℕ) (name : Str) (obj : ℕ)
  | remove (dir : ℕ) (name : Str)
  | bump

/-- A call that has not returned sees the new tree. -/
def Call.sees (T : Children) (c : Call) : Call :=
  match c.phase with
  | .returned _ => c
  | _ => { c with seen := T :: c.seen }

namespace Namespace

/-- The children map of `dir` changes, and every open call may see it. -/
def change (s : Namespace) (dir : ℕ) (name : Str) (obj : Option ℕ) : Namespace :=
  let tree := s.tree.set dir name obj
  { s with tree, pending := s.pending + 1, calls := s.calls.map (Call.sees tree) }

section Step

variable (objs : ℕ → ObjectClass)

/-- The next step of `resolve_parsed` for a call at hand: the phase it reaches and the cache. -/
def next (s : Namespace) (c : Call) : Option (Phase × ResolveCache) :=
  let components := c.path.components
  match c.phase with
  | .called =>
    if components = [] then some (.walking root [] true, s.cache)
    else
      match cacheLookup s.cache s.gen components with
      | some hit => some (.returned (.ok (hit, c.path.method)), s.cache)
      | none => some (.walking root components true, s.cache)
  | .walking current (comp :: rest) chain =>
    match s.tree current comp with
    | some obj => some (.walking obj rest (chain && (objs current).cacheable), s.cache)
    | none => some (.returned (.error (missing objs current)), s.cache)
  | .walking current [] chain =>
    some (.returned (.ok (current, c.path.method)),
      if chain ∧ (objs current).cacheable ∧ components ≠ [] then
        cacheStore s.cache s.gen components current
      else s.cache)
  | .returned _ => none

def step (s : Namespace) : Action → Option Namespace
  | .call p =>
    some { s with
      calls := s.calls ++ [⟨p, .called, [s.tree]⟩]
      asked := p.components :: s.asked }
  | .advance i =>
    match s.calls[i]? with
    | none => none
    | some c =>
      match next objs s c with
      | none => none
      | some (phase, cache) =>
        some { s with cache, calls := s.calls.set i { c with phase } }
  | .insert dir name obj =>
    if (objs dir).dynamic then some (s.change dir name (some obj)) else none
  | .remove dir name =>
    if (objs dir).dynamic then
      match s.tree dir name with
      | some _ => some (s.change dir name none)
      | none => some s
    else none
  | .bump =>
    if s.pending = 0 then none else some { s with gen := s.gen + 1, pending := s.pending - 1 }

end Step

/-- The namespace before the first call. -/
def boot (tree : Children) : Namespace where
  tree := tree
  gen := 0
  cache _ := none
  pending := 0
  calls := []
  asked := []

/-- **Every returned object is what a walk finds in some state of the tree during the call.** -/
def Transparent (objs : ℕ → ObjectClass) (s : Namespace) : Prop :=
  ∀ c ∈ s.calls, ∀ r, c.phase = .returned r → ∃ T ∈ c.seen, uncached objs T c.path = r

end Namespace

/-- The call has missed the cache and has not returned. -/
def Call.isWalking (c : Call) : Bool :=
  match c.phase with
  | .walking .. => true
  | _ => false

/-- The call has yet to look into the cache. -/
def Call.isCalled (c : Call) : Bool :=
  match c.phase with
  | .called => true
  | _ => false

namespace Namespace

/-- Paths of one hash are one path; no map changes while a call walks; the cache is not looked up
while a generation is to be bumped; the generations do not run out. -/
def Careful (s : Namespace) : Action → Prop
  | .call p => ∀ q ∈ s.asked, pathHash q = pathHash p.components → q = p.components
  | .advance i => (s.calls[i]?).any Call.isCalled → s.pending = 0
  | .insert .. | .remove .. => ∀ c ∈ s.calls, c.isWalking = false
  | .bump => s.gen.toNat + 1 < 2 ^ 64

instance (s : Namespace) : ∀ a, Decidable (s.Careful a)
  | .call _ => inferInstanceAs (Decidable (∀ q ∈ _, _))
  | .advance _ => inferInstanceAs (Decidable (_ → _))
  | .insert .. | .remove .. => inferInstanceAs (Decidable (∀ c ∈ _, _))
  | .bump => inferInstanceAs (Decidable (_ < _))

/-! ## The invariant -/

variable {objs : ℕ → ObjectClass} {s s' : Namespace}

/-- An open call sees the tree as it is, and a walk is on its way to where a walk would get to. -/
def CallOk (objs : ℕ → ObjectClass) (tree : Children) (pending : ℕ) (c : Call) : Prop :=
  match c.phase with
  | .called => tree ∈ c.seen
  | .walking current rest _ => tree ∈ c.seen ∧ pending = 0 ∧
      walkFrom objs tree current rest = walkFrom objs tree root c.path.components
  | .returned r => ∃ T ∈ c.seen, uncached objs T c.path = r

/-- An entry of the present generation holds what a walk would find, once nothing is pending. -/
structure EntryOk (objs : ℕ → ObjectClass) (s : Namespace) (e : ResolveEntry) : Prop where
  generation_le : e.generation.toNat ≤ s.gen.toNat
  fresh : s.pending = 0 → e.generation = s.gen →
    ∃ p ∈ s.asked, pathHash p = e.hash ∧ walkFrom objs s.tree root p = .ok e.obj

structure Inv (objs : ℕ → ObjectClass) (s : Namespace) : Prop where
  calls : ∀ c ∈ s.calls, CallOk objs s.tree s.pending c
  asked : ∀ c ∈ s.calls, c.path.components ∈ s.asked
  entries : ∀ shard e, s.cache shard = some e → EntryOk objs s e
  hash_inj : ∀ p ∈ s.asked, ∀ q ∈ s.asked, pathHash p = pathHash q → p = q

variable (h : Inv objs s)
include h

theorem Inv.transparent : s.Transparent objs := by
  intro c hc r hr
  have hok := h.calls c hc
  rwa [CallOk, hr] at hok

omit h in
theorem inv_boot (objs : ℕ → ObjectClass) (tree : Children) : Inv objs (boot tree) where
  calls := fun c hc => absurd hc not_mem_nil
  asked := fun c hc => absurd hc not_mem_nil
  entries := fun shard e he => by simp [boot] at he
  hash_inj := fun p hp => absurd hp not_mem_nil

theorem Inv.lookup {p : List Str} {obj : ℕ} (hp : p ∈ s.asked)
    (hpending : s.pending = 0) (hit : cacheLookup s.cache s.gen p = some obj) :
    walkFrom objs s.tree root p = .ok obj := by
  unfold cacheLookup at hit
  split at hit
  · rename_i e he
    split_ifs at hit with hbad
    obtain ⟨hhash, hgen⟩ := not_or.mp hbad
    obtain ⟨q, hq, hqe, hwalk⟩ := (h.entries _ e he).fresh hpending (not_not.mp hgen)
    rw [h.hash_inj p hp q hq ((not_not.mp hhash).symm.trans hqe.symm), hwalk]
    exact congrArg Except.ok (some.inj hit)
  · cases hit

theorem Inv.call {p : ParsedPath}
    (hp : ∀ q ∈ s.asked, pathHash q = pathHash p.components → q = p.components) : Inv objs { s with
      calls := s.calls ++ [⟨p, .called, [s.tree]⟩]
      asked := p.components :: s.asked } where
  calls := by
    intro c hc
    obtain hc | hc := mem_append.mp hc
    · exact h.calls c hc
    · rw [mem_singleton.mp hc]
      exact mem_singleton_self _
  asked := by
    intro c hc
    obtain hc | hc := mem_append.mp hc
    · exact mem_cons_of_mem _ (h.asked c hc)
    · rw [mem_singleton.mp hc]
      exact mem_cons_self
  entries := by
    intro shard e he
    have hok := h.entries shard e he
    refine ⟨hok.generation_le, fun hpend hgen => ?_⟩
    obtain ⟨q, hq, hrest⟩ := hok.fresh hpend hgen
    exact ⟨q, mem_cons_of_mem _ hq, hrest⟩
  hash_inj := by
    intro q hq r hr heq
    rcases mem_cons.mp hq with rfl | hq <;> rcases mem_cons.mp hr with rfl | hr
    · rfl
    · exact (hp r hr heq.symm).symm
    · exact hp q hq heq
    · exact h.hash_inj q hq r hr heq

omit h in
theorem path_sees (T : Children) (c : Call) : (c.sees T).path = c.path := by
  unfold Call.sees
  split <;> rfl

variable {tree : Children} {c : Call}

omit h in
theorem callOk_sees {tree' : Children} {n n' : ℕ} (h : CallOk objs tree n c)
    (hw : c.isWalking = false) : CallOk objs tree' n' (c.sees tree') := by
  obtain ⟨path, phase, seen⟩ := c
  cases phase with
  | called => exact mem_cons_self
  | walking current rest chain => cases hw
  | returned r => exact h

/-- Changing a map: the walks are over, and the entries wait for the bump. -/
theorem Inv.change (hwalk : ∀ c ∈ s.calls, c.isWalking = false) (dir : ℕ)
    (name : Str) (obj : Option ℕ) : Inv objs (s.change dir name obj) where
  calls := by
    intro c hc
    obtain ⟨d, hd, rfl⟩ := mem_map.mp hc
    exact callOk_sees (h.calls d hd) (hwalk d hd)
  asked := by
    intro c hc
    obtain ⟨d, hd, rfl⟩ := mem_map.mp hc
    rw [path_sees]
    exact h.asked d hd
  entries := fun shard e he =>
    { generation_le := (h.entries shard e he).generation_le
      fresh := fun hpend => absurd hpend (Nat.succ_ne_zero _) }
  hash_inj := h.hash_inj

omit h in
theorem callOk_of_pending {n n' : ℕ} (h : CallOk objs tree n c)
    (hn : n ≠ 0) : CallOk objs tree n' c := by
  obtain ⟨path, phase, seen⟩ := c
  cases phase with
  | called => exact h
  | walking current rest chain => exact absurd h.2.1 hn
  | returned r => exact h

/-- Bumping the generation: no entry is of the new one. -/
theorem Inv.bump (hpend : s.pending ≠ 0) (hgen : s.gen.toNat + 1 < 2 ^ 64) :
    Inv objs { s with gen := s.gen + 1, pending := s.pending - 1 } := by
  have hnext : (s.gen + 1).toNat = s.gen.toNat + 1 := by
    exact Nat.mod_eq_of_lt hgen
  exact { h with
    calls := fun c hc => callOk_of_pending (h.calls c hc) hpend
    entries := fun shard e he => by
      have hle := (h.entries shard e he).generation_le
      refine ⟨?_, fun _ heq => ?_⟩
      · show e.generation.toNat ≤ (s.gen + 1).toNat
        omega
      · have heq' : e.generation.toNat = (s.gen + 1).toNat := congrArg UInt64.toNat heq
        omega }

theorem Inv.entries_store {p : List Str} {obj : ℕ} (hp : p ∈ s.asked)
    (hwalk : walkFrom objs s.tree root p = .ok obj) (shard : UInt64) (e : ResolveEntry)
    (he : cacheStore s.cache s.gen p obj shard = some e) : EntryOk objs s e := by
  unfold cacheStore at he
  split_ifs at he
  · cases he
    exact ⟨le_rfl, fun _ _ => ⟨p, hp, rfl, hwalk⟩⟩
  · exact h.entries shard e he

/-- What one step of a call makes of its phase and of the cache. -/
structure NextOk (objs : ℕ → ObjectClass) (s : Namespace) (c : Call) (phase : Phase)
    (cache : ResolveCache) : Prop where
  call : CallOk objs s.tree s.pending { c with phase }
  entries : ∀ shard e, cache shard = some e → EntryOk objs s e

/-- **One step of a call.** -/
theorem Inv.next (hc : c ∈ s.calls) {phase : Phase}
    {cache : ResolveCache} (hcalled : c.isCalled → s.pending = 0)
    (hnext : s.next objs c = some (phase, cache)) : NextOk objs s c phase cache := by
  have hok := h.calls c hc
  have hasked := h.asked c hc
  obtain ⟨path, old, seen⟩ := c
  cases old with
  | called =>
    have hpend := hcalled rfl
    simp only [Namespace.next] at hnext
    split_ifs at hnext with hnil
    · cases hnext
      refine ⟨⟨hok, hpend, ?_⟩, h.entries⟩
      rw [hnil]
    · split at hnext
      · rename_i hit hlookup
        cases hnext
        refine ⟨⟨s.tree, hok, ?_⟩, h.entries⟩
        rw [uncached, h.lookup hasked hpend hlookup]
        rfl
      · cases hnext
        exact ⟨⟨hok, hpend, rfl⟩, h.entries⟩
  | walking current rest chain =>
    obtain ⟨hseen, hpend, hwalk⟩ := hok
    cases rest with
    | nil =>
      cases hnext
      refine ⟨⟨s.tree, hseen, ?_⟩, ?_⟩
      · rw [uncached, ← hwalk]
        rfl
      · split
        · exact h.entries_store hasked hwalk.symm
        · exact h.entries
    | cons comp rest =>
      simp only [Namespace.next] at hnext
      rw [walkFrom] at hwalk
      split at hnext
      · rename_i obj hobj
        cases hnext
        rw [hobj] at hwalk
        exact ⟨⟨hseen, hpend, hwalk⟩, h.entries⟩
      · rename_i hnone
        cases hnext
        rw [hnone] at hwalk
        refine ⟨⟨s.tree, hseen, ?_⟩, h.entries⟩
        rw [uncached, ← hwalk]
        rfl
  | returned r => cases hnext

theorem Inv.advance {i : ℕ} (hi : s.calls[i]? = some c) {phase : Phase}
    {cache : ResolveCache} (hn : NextOk objs s c phase cache) :
    Inv objs { s with cache, calls := s.calls.set i { c with phase } } where
  calls := by
    intro d hd
    obtain hd | rfl := mem_or_eq_of_mem_set hd
    · exact h.calls d hd
    · exact hn.call
  asked := by
    intro d hd
    obtain hd | rfl := mem_or_eq_of_mem_set hd
    · exact h.asked d hd
    · exact h.asked c (mem_of_getElem? hi)
  entries := fun shard e he => ⟨(hn.entries shard e he).1, (hn.entries shard e he).2⟩
  hash_inj := h.hash_inj

/-- **A careful step keeps the invariant.** -/
theorem Inv.step {a : Action} (ha : s.Careful a) (hs : s.step objs a = some s') : Inv objs s' := by
  cases a with simp only [Namespace.step] at hs
  | call p =>
    cases hs
    exact h.call ha
  | advance i =>
    split at hs
    · cases hs
    rename_i c hi
    split at hs
    · cases hs
    rename_i phase cache hnext
    cases hs
    have hcalled : c.isCalled → s.pending = 0 := fun hcall => ha (hi ▸ hcall)
    exact h.advance hi (h.next (mem_of_getElem? hi) hcalled hnext)
  | insert dir name obj =>
    split_ifs at hs
    cases hs
    exact h.change ha dir name (some obj)
  | remove dir name =>
    split_ifs at hs
    split at hs
    · cases hs
      exact h.change ha dir name none
    · cases hs
      exact h
  | bump =>
    split_ifs at hs with hpend
    cases hs
    exact h.bump hpend ha

omit h

/-- **In a careful run the cache cannot be seen.** -/
theorem transparent_run (objs : ℕ → ObjectClass) (tree : Children) {acts : List Action}
    {t : Namespace} (hacts : RunMeets (step objs) Careful (boot tree) acts)
    (ht : run (step objs) (boot tree) acts = some t) : t.Transparent objs := by
  have hinv : Inv objs t :=
    run_invariant (Inv objs) (fun _ _ _ hi ha hs => hi.step ha hs) acts (inv_boot objs tree) hacts
      ht
  exact hinv.transparent

/-- Two directories side by side. -/
def besides (a b : Str) : List Action :=
  [.insert root a 1, .bump, .insert root b 2, .bump]

/-- The lookup, the walk and the return of a call for a path of one component. -/
def resolveOne (i : ℕ) (c : Str) : List Action :=
  [.call ⟨[c], none⟩, .advance i, .advance i, .advance i]

theorem transparent_besides : ∃ t, run (step fun _ => .simpleDir) (boot fun _ _ => none)
      (besides ['a'] ['b'] ++ resolveOne 0 ['a'] ++ [.remove root ['a'], .bump] ++
        [.call ⟨[['a']], none⟩, .advance 1, .advance 1]) = some t ∧
    t.calls.map (·.phase) = [.returned (.ok (1, none)), .returned (.error .notFound)] ∧
    t.Transparent fun _ => .simpleDir :=
  exists_of_any (fun t => t.calls.map (·.phase) =
      [.returned (.ok (1, none)), .returned (.error .notFound)]) (by decide +kernel)
    fun _ ht hphase => ⟨hphase, transparent_run _ _ (by decide +kernel) ht⟩

/-- A call that returned what no walk finds in any state of the tree it saw. -/
theorem exists_not_transparent {acts : List Action} (i : ℕ)
    (r : Except UnispaceError (ℕ × Option Str))
    (h : ((run (step objs) (boot tree) acts).any fun t => (t.calls[i]?).any fun c =>
      c.phase = .returned r ∧ ∀ T ∈ c.seen, uncached objs T c.path ≠ r) = true) :
    ∃ t, run (step objs) (boot tree) acts = some t ∧ ¬t.Transparent objs := by
  obtain ⟨t, ht, hcall⟩ := (Option.any_eq_true _ _).mp h
  obtain ⟨c, hc, hstale⟩ := (Option.any_eq_true _ _).mp hcall
  obtain ⟨hphase, hseen⟩ := of_decide_eq_true hstale
  refine ⟨t, ht, fun htrans => ?_⟩
  obtain ⟨T, hT, hwalk⟩ := htrans c (mem_of_getElem? hc) r hphase
  exact hseen T hT hwalk

/-- Two names of one hash: the second resolves to the object of the first. -/
theorem collision_shares_object : ∃ t, run (step fun _ => .simpleDir) (boot fun _ _ => none)
      (besides "8yn0iYCKYHlIj4-BwPqk".toList "GReLUrM4wMqfg9yzV3KQ".toList ++
        resolveOne 0 "8yn0iYCKYHlIj4-BwPqk".toList ++
        [.call ⟨["GReLUrM4wMqfg9yzV3KQ".toList], none⟩, .advance 1]) = some t ∧
    ¬t.Transparent fun _ => .simpleDir :=
  exists_not_transparent 1 (.ok (1, none)) (by decide +kernel)

/-- A removal overtakes a walk: the object is stored as of after it, and handed to the next call. -/
theorem overtaken_walk_stored : ∃ t, run (step fun _ => .simpleDir) (boot fun _ _ => none)
      [.insert root ['a'] 1, .bump, .call ⟨[['a']], none⟩, .advance 0, .advance 0,
        .remove root ['a'], .bump, .advance 0, .call ⟨[['a']], none⟩, .advance 1] = some t ∧
    ¬t.Transparent fun _ => .simpleDir :=
  exists_not_transparent 1 (.ok (1, none)) (by decide +kernel)

end Namespace

end Bedrock.Unispace
