import Bedrock.Caps.Cap
import Bedrock.Lib.Run

/-!
# Posix/Cwd — relative paths of the C library

The library keeps the working directory as a text and puts a relative path right behind it; what
comes out is handed to the kernel with a method behind a colon, and the kernel's parser cuts it
into components:

    cwd    p        text         stat asks          mkdir asks
    "/"    "A/x"    "/A/x"       "/A/x:stat"        "/A:mkdir", "x"
    "/A"   "x"      "/Ax"        "/Ax:stat"         "/:mkdir", "Ax"
    "/"    "A/"     "/A/"        "/A/:stat"         "/:mkdir", "A"

The parser refuses a method that stands right behind a slash, so `chdir` never enters a directory
whose text ends in one.  After any `chdir` a relative path is therefore glued to the last name of
the directory, and it means the entry it names only while none has been made (`resolves_iff`).
-/

namespace Bedrock.Stdio

open List Words

/-! ## The calls -/

inductive Errno
  | nameTooLong | invalid | noSys
  deriving DecidableEq, Repr

/-- The methods asked of the object a path names. -/
inductive ObjMethod
  | stat | truncate

/-- The methods asked of the directory it stands in, with its name as the argument. -/
inductive DirMethod
  | create | mkdir | rmdir | unlink

def ObjMethod.name : ObjMethod → Str
  | .stat => "stat".toList
  | .truncate => "truncate".toList

def DirMethod.name : DirMethod → Str
  | .create => "create".toList
  | .mkdir => "mkdir".toList
  | .rmdir => "rmdir".toList
  | .unlink => "unlink".toList

def renameMethod : Str := "rename".toList

/-- `resolve_into`, with the working directory and the size of the buffer.  Texts are without their
closing NUL, which the buffer has to hold too. -/
def resolveInto (cwd path : Str) (cap : ℕ) : Option Str :=
  if path.head? = some '/' then
    if cap < byteLen path + 1 then none else some path
  else if cap < byteLen cwd + byteLen path + 1 then none
  else some (cwd ++ path)

/-- `split_path`: a path as its directory and its last name, trailing slashes dropped. -/
def splitPath (path : Str) : Option (Str × Str) :=
  let trimmed := path.rdropWhile (· = '/')
  let upto := trimmed.rdropWhile (· ≠ '/')
  let base := trimmed.rtakeWhile (· ≠ '/')
  if upto = [] ∨ base = [] then none
  else some (if upto.dropLast = [] then ['/'] else upto.dropLast, base)

/-- `method_path`: `obj:method`, in a buffer of 512 bytes. -/
def methodPath (obj method : Str) : Option Str :=
  if 512 < byteLen obj + 1 + byteLen method + 1 then none else some (obj ++ ':' :: method)

/-- What `stat_rs` and `truncate_rs` ask the kernel for. -/
def objMethod (cwd path : Str) (m : ObjMethod) : Except Errno Str :=
  match resolveInto cwd path 512 with
  | none => .error .nameTooLong
  | some t =>
    match methodPath t m.name with
    | none => .error .nameTooLong
    | some mp => .ok mp

/-- `dir_method`: what `mkdir`, `rmdir`, `unlink` and `create_rs` ask, and the name they hand over
as the argument. -/
def dirMethod (cwd path : Str) (m : DirMethod) : Except Errno (Str × Str) :=
  match resolveInto cwd path 512 with
  | none => .error .nameTooLong
  | some t =>
    match splitPath t with
    | none => .error .invalid
    | some (parent, base) =>
      match methodPath parent m.name with
      | none => .error .nameTooLong
      | some mp => if 260 < 4 + byteLen base then .error .nameTooLong else .ok (mp, base)

/-- `rename`: both names have to stand in one directory. -/
def rename (cwd old new : Str) : Except Errno (Str × Str × Str) :=
  match resolveInto cwd old 512, resolveInto cwd new 512 with
  | some ro, some rn =>
    match splitPath ro, splitPath rn with
    | some (oparent, obase), some (nparent, nbase) =>
      if oparent ≠ nparent then .error .noSys
      else
        match methodPath oparent renameMethod with
        | none => .error .nameTooLong
        | some mp =>
          if 520 < 4 + byteLen obase ∨ 520 - (4 + byteLen obase) < 4 + byteLen nbase then
            .error .nameTooLong
          else .ok (mp, obase, nbase)
    | _, _ => .error .invalid
  | _, _ => .error .nameTooLong

/-- `open` resolves the path into its own buffer and hands the text on. -/
def opened {β : Type} (cwd path : Str) (ask : Str → Except Errno β) : Except Errno β :=
  match resolveInto cwd path 128 with
  | none => .error .nameTooLong
  | some t => ask t

def openStat (cwd path : Str) : Except Errno Str := opened cwd path (objMethod cwd · .stat)

def openCreate (cwd path : Str) : Except Errno (Str × Str) :=
  opened cwd path (dirMethod cwd · .create)

/-- The kernel's answer to a `stat`, given which components lead to a directory.  No object has a
method of another name that answers like it. -/
def isDirectory (dirs : List Str → Bool) (mp : Str) : Bool :=
  match parse mp with
  | .ok ⟨components, some m⟩ => m = ObjMethod.stat.name && dirs components
  | _ => false

/-- `chdir`: the new text of the working directory. -/
def chdir (dirs : List Str → Bool) (cwd path : Str) : Option Str :=
  match resolveInto cwd path 512 with
  | none => none
  | some abs =>
    match objMethod cwd abs .stat with
    | .error _ => none
    | .ok mp => if isDirectory dirs mp ∧ byteLen abs + 1 ≤ 128 then some abs else none

/-! ## What a relative path means -/

def Relative (p : Str) : Prop := p.head? ≠ some '/'

instance (p : Str) : Decidable (Relative p) := inferInstanceAs (Decidable (¬ _))

/-- The request reaches the object at the components, unless a buffer is too small. -/
def Reaches (components : List Str) (method : Str) (r : Except Errno Str) : Prop :=
  r = .error .nameTooLong ∨ ∃ mp, r = .ok mp ∧ parse mp = .ok ⟨components, some method⟩

/-- …or the directory and the name that make them up. -/
def ReachesIn (components : List Str) (method : Str) (r : Except Errno (Str × Str)) : Prop :=
  r = .error .nameTooLong ∨ ∃ mp base dir, r = .ok (mp, base) ∧
    parse mp = .ok ⟨dir, some method⟩ ∧ dir ++ [base] = components

/-- **What a relative path means**: the entry `p` of the working directory, for the text itself and
for every call that takes it, and whether it is reached at once or after a `chdir`. -/
structure Resolves (dirs : List Str → Bool) (cwd p : Str) : Prop where
  fits : ∀ cap, resolveInto cwd p cap = none ↔ cap < byteLen cwd + byteLen p + 1
  names : ∀ {cap t}, resolveInto cwd p cap = some t → parse t = .ok ⟨segs cwd ++ segs p, none⟩
  object : ∀ m : ObjMethod, Reaches (segs cwd ++ segs p) m.name (objMethod cwd p m)
  entry : ∀ m : DirMethod, ReachesIn (segs cwd ++ segs p) m.name (dirMethod cwd p m)
  opens : Reaches (segs cwd ++ segs p) ObjMethod.stat.name (openStat cwd p)
  creates : ReachesIn (segs cwd ++ segs p) DirMethod.create.name (openCreate cwd p)
  renames : ∀ {new mp obase nbase}, rename cwd p new = .ok (mp, obase, nbase) →
    ∃ dir, parse mp = .ok ⟨dir, some renameMethod⟩ ∧ dir ++ [obase] = segs cwd ++ segs p
  chain : ∀ {c a t t'}, c.head? = some '/' → a ≠ [] → chdir dirs c a = some cwd →
    chdir dirs c (a ++ '/' :: p) = some t → chdir dirs cwd p = some t' → segs t = segs t'

/-- A name the parser takes as a component. -/
def Plain (c : Str) : Prop := c ≠ ".".toList ∧ c ≠ "..".toList ∧ ':' ∉ c

instance (c : Str) : Decidable (Plain c) := inferInstanceAs (Decidable (_ ∧ _ ∧ _))

/-- A text that a method can be put behind. -/
structure Named (t : Str) : Prop where
  ne_nil : t ≠ []
  last : t.getLast? ≠ some '/'
  plain : ∀ c ∈ segs t, Plain c

/-- A text whose directory is one too: `/A/x`, but not `/x`, `/A//x` or `/A/x/`. -/
def Addressable (t : Str) : Prop :=
  ∃ parent base, t = parent ++ '/' :: base ∧ Named parent ∧ IsComponent base ∧ Plain base

/-! ## What the parser makes of a text -/

variable {dirs : List Str → Bool} {cwd p t c a m parent base : Str} {cs : List Str}

theorem parse_eq (t : Str) : parse t = parseSegs (segs t) := by
  unfold parse
  split
  · rename_i h
    obtain ⟨r, rfl⟩ := head?_eq_some_iff.mp h
    exact congrArg parseSegs (words_append_sep (s := [])).symm
  · rfl

theorem splitMethod_of_notMem (h : ':' ∉ c) : splitMethod c = .ok (c, none) := by
  have : c.dropWhile (· ≠ ':') = [] :=
    dropWhile_eq_nil_iff.mpr fun x hx => decide_eq_true fun he => h (he ▸ hx)
  simp only [splitMethod, this]

theorem splitMethod_append (h : ':' ∉ c) (hm : m ≠ []) : splitMethod (c ++ ':' :: m) =
    if c = [] then .error .invalidPath else .ok (c, some m) := by
  have hall : ∀ x ∈ c, decide (x ≠ ':') = true := fun x hx => decide_eq_true fun he => h (he ▸ hx)
  have hdrop : (c ++ ':' :: m).dropWhile (· ≠ ':') = ':' :: m := by
    rw [dropWhile_append_of_pos hall]; simp
  have htake : (c ++ ':' :: m).takeWhile (· ≠ ':') = c := by
    rw [takeWhile_append_of_pos hall]; simp
  simp only [splitMethod, hdrop, htake, hm, or_false]

theorem parseSegs_concat (raw : List Str) (last : Str) : parseSegs (raw ++ [last]) =
    match splitMethod last with
    | .error e => .error e
    | .ok (name, method) =>
      if ∀ c ∈ raw ++ [name], Plain c then .ok ⟨raw ++ [name], method⟩
      else .error .invalidPath := by
  simp only [parseSegs, getLast?_concat, dropLast_concat]
  cases splitMethod last with
  | error e => rfl
  | ok r =>
    have hany : (raw ++ [r.1]).any (fun seg => decide (seg = ".".toList ∨ seg = "..".toList ∨
        ':' ∈ seg)) = true ↔ ¬ ∀ c ∈ raw ++ [r.1], Plain c := by
      simp only [any_eq_true, decide_eq_true_eq, Plain]
      grind
    simp only [hany, ite_not]

/-- A text of plain names is parsed as its names. -/
theorem parse_of_plain (h : ∀ c ∈ segs t, Plain c) : parse t = .ok ⟨segs t, none⟩ := by
  rw [parse_eq]
  obtain hnil | ⟨raw, last, hsegs⟩ := eq_nil_or_concat (segs t)
  · rw [hnil]; rfl
  · rw [concat_eq_append] at hsegs
    rw [hsegs] at h ⊢
    rw [parseSegs_concat, splitMethod_of_notMem (h last (by simp)).2.2]
    exact if_pos h

theorem Named.of_piece (hv : '/' ∉ c) (hc : c ≠ []) (h : ∀ x ∈ segs (a ++ c), Plain x) :
    Named (a ++ c) := by
  refine ⟨by simp [hc], fun hl => hv ?_, h⟩
  rw [getLast?_append, getLast?_eq_some_getLast hc, Option.some_or, Option.some_inj] at hl
  exact hl ▸ getLast_mem hc

/-- **The object a method is asked of** is the one the text in front of the colon names, provided
that text ends in a name. -/
theorem parse_method_iff (hm : m ≠ []) (hsl : '/' ∉ m) :
    parse (t ++ ':' :: m) = .ok ⟨cs, some m⟩ ↔ Named t ∧ cs = segs t := by
  obtain ⟨a, v, rfl, ha, hv⟩ := exists_last_piece '/' t
  have hw : IsWord '/' (v ++ ':' :: m) := ⟨by simp, by simp [hv, hsl]⟩
  have hsegs : v ≠ [] → segs (a ++ v) = segs a ++ [v] := fun hne => words_append_word ha ⟨hne, hv⟩
  rw [parse_eq, append_assoc, segs, words_append_word ha hw, parseSegs_concat]
  by_cases hc : ':' ∈ v
  -- the parser takes the first colon, so the method is longer than the one asked for
  · refine iff_of_false (fun h => ?_) fun h => ?_
    · obtain ⟨v, r, rfl, hn⟩ := eq_append_cons_of_mem hc
      rw [append_assoc, cons_append, splitMethod_append hn (by simp)] at h
      split_ifs at h
      dsimp only at h
      split_ifs at h
      have hlen := congrArg (fun x => x.method.map length) (Except.ok.inj h)
      simp only [Option.map_some, Option.some_inj, length_append, length_cons] at hlen
      omega
    · have hne : v ≠ [] := ne_nil_of_mem hc
      exact (h.1.plain v (by simp [hsegs hne])).2.2 hc
  · rw [splitMethod_append hc hm]
    by_cases hne : v = []
    · simp only [hne, if_true, append_nil, reduceCtorEq, false_iff]
      exact fun h => ha.elim h.1.ne_nil h.1.last
    · rw [if_neg hne, hsegs hne]
      by_cases hall : ∀ c ∈ words '/' a ++ [v], Plain c
      · have hn : Named (a ++ v) := .of_piece hv hne (by rw [hsegs hne]; exact hall)
        simp only [if_pos hall, hn, true_and, Except.ok.injEq, ParsedPath.mk.injEq, and_true]
        exact eq_comm
      · simp only [if_neg hall, reduceCtorEq, false_iff]
        exact fun h => hall (by rw [← segs, ← hsegs hne]; exact h.1.plain)

/-! ## Resolving -/

@[simp] theorem byteLen_append (s t : Str) : byteLen (s ++ t) = byteLen s + byteLen t := by
  simp [byteLen]

/-- The text a path is resolved to. -/
def resolvedText (cwd path : Str) : Str := if path.head? = some '/' then path else cwd ++ path

theorem resolveInto_eq (cwd path : Str) (cap : ℕ) : resolveInto cwd path cap =
    if cap < byteLen (resolvedText cwd path) + 1 then none else some (resolvedText cwd path) := by
  unfold resolveInto resolvedText
  split <;> simp

theorem resolveInto_eq_some {cap : ℕ} : resolveInto c a cap = some t ↔
    t = resolvedText c a ∧ byteLen t + 1 ≤ cap := by
  rw [resolveInto_eq, Option.ite_none_left_eq_some, Option.some_inj, not_lt]
  constructor
  · rintro ⟨h, rfl⟩
    exact ⟨rfl, h⟩
  · rintro ⟨rfl, h⟩
    exact ⟨h, rfl⟩

theorem head?_resolvedText (hc : c.head? = some '/') : (resolvedText c a).head? = some '/' := by
  unfold resolvedText
  split
  · assumption
  · simp [head?_append, hc]

theorem resolvedText_self (ht : t.head? = some '/') : resolvedText c t = t := if_pos ht

theorem resolvedText_relative (hp : Relative p) : resolvedText c p = c ++ p := if_neg hp

theorem objMethod_eq (c a : Str) (m : ObjMethod) : objMethod c a m =
    if 512 < byteLen (resolvedText c a) + 1 + byteLen m.name + 1 then .error .nameTooLong
    else .ok (resolvedText c a ++ ':' :: m.name) := by
  unfold objMethod methodPath
  rw [resolveInto_eq]
  by_cases h : 512 < byteLen (resolvedText c a) + 1 + byteLen m.name + 1
  · rw [if_pos h]
    split
    · rfl
    · rename_i hs
      obtain rfl := Option.some_inj.mp (Option.ite_none_left_eq_some.mp hs).2
      rw [if_pos h]
  · rw [if_neg h, if_neg (by omega)]
    simp only [if_neg h]

theorem ObjMethod.name_spec (m : ObjMethod) : m.name ≠ [] ∧ '/' ∉ m.name := by
  cases m <;> decide

theorem DirMethod.name_spec (m : DirMethod) : m.name ≠ [] ∧ '/' ∉ m.name := by
  cases m <;> decide

/-! ## Cutting a path into directory and name -/

theorem splitPath_of_isComponent (hb : IsComponent base) (hp : parent ≠ []) :
    splitPath (parent ++ '/' :: base) = some (parent, base) := by
  have hlast : (parent ++ '/' :: base).rdropWhile (· = '/') = parent ++ '/' :: base := by
    refine rdropWhile_eq_self_iff.mpr fun hne => ?_
    have hm : (parent ++ '/' :: base).getLast hne ∈ base := by
      rw [getLast_append_of_ne_nil _ (cons_ne_nil _ _), getLast_cons hb.1]
      exact getLast_mem hb.1
    exact fun he => hb.2 (of_decide_eq_true he ▸ hm)
  have hall : ∀ x ∈ base.reverse, decide (x ≠ '/') = true := fun x hx =>
    decide_eq_true fun he => hb.2 (he ▸ mem_reverse.mp hx)
  have hdir : (parent ++ '/' :: base).rdropWhile (· ≠ '/') = parent ++ ['/'] := by
    rw [rdropWhile, reverse_append, reverse_cons, append_assoc, dropWhile_append_of_pos hall]
    simp
  have hbase : (parent ++ '/' :: base).rtakeWhile (· ≠ '/') = base := by
    rw [rtakeWhile, reverse_append, reverse_cons, append_assoc, takeWhile_append_of_pos hall]
    simp
  simp only [splitPath, hlast, hdir, hbase, dropLast_concat, if_neg hp]
  simp [hb.1]

/-- The other way round, where the text ends in a name and the directory does. -/
theorem eq_of_splitPath (h : splitPath t = some (parent, base)) (ht : t.getLast? ≠ some '/')
    (hp : Named parent) : t = parent ++ '/' :: base ∧ IsComponent base := by
  have hlast : t.rdropWhile (· = '/') = t := by
    refine rdropWhile_eq_self_iff.mpr fun hne => ?_
    rw [getLast?_eq_some_getLast hne] at ht
    simpa using ht
  simp only [splitPath, hlast] at h
  split_ifs at h with hnil hroot
  · obtain ⟨rfl, -⟩ := Prod.mk.inj (Option.some.inj h)
    exact absurd rfl hp.last
  · obtain ⟨rfl, rfl⟩ := Prod.mk.inj (Option.some.inj h)
    obtain ⟨hne, hb⟩ := not_or.mp hnil
    have hend : (t.rdropWhile (· ≠ '/')).getLast hne = '/' := by
      simpa using rdropWhile_last_not _ _ hne
    refine ⟨?_, hb, fun hm => by simpa using mem_rtakeWhile_imp hm⟩
    calc t = t.rdropWhile (· ≠ '/') ++ t.rtakeWhile (· ≠ '/') :=
          rdropWhile_append_rtakeWhile.symm
      _ = (t.rdropWhile (· ≠ '/')).dropLast ++ '/' :: t.rtakeWhile (· ≠ '/') := by
          conv_lhs => rw [← dropLast_append_getLast hne, hend]
          simp

theorem byteLen_splitPath_le (h : splitPath t = some (parent, base)) :
    byteLen parent ≤ byteLen t ∧ byteLen base ≤ byteLen t := by
  have hcut := congrArg byteLen
    (rdropWhile_append_rtakeWhile (l := t) (p := fun x => decide (x = '/')))
  have hsplit := congrArg byteLen (rdropWhile_append_rtakeWhile
    (l := t.rdropWhile (· = '/')) (p := fun x => decide (x ≠ '/')))
  simp only [splitPath] at h
  generalize t.rdropWhile (· = '/') = s at *
  generalize s.rdropWhile (· ≠ '/') = dir, s.rtakeWhile (· ≠ '/') = b at *
  rw [byteLen_append] at hcut hsplit
  split_ifs at h with hnil hroot
  all_goals
    obtain ⟨hne, -⟩ := not_or.mp hnil
    obtain ⟨rfl, rfl⟩ := Prod.mk.inj (Option.some.inj h)
    obtain ⟨dir, x, rfl⟩ := eq_nil_or_concat dir |>.resolve_left hne
    have hx := Char.utf8Size_pos x
    simp only [concat_eq_append, dropLast_concat, byteLen_append] at hsplit ⊢
    simp only [byteLen, map_cons, map_nil, sum_cons, sum_nil] at hsplit hcut ⊢
  · have hs : '/'.utf8Size = 1 := rfl
    omega
  · omega

theorem segs_entry (hb : IsComponent base) :
    segs (parent ++ '/' :: base) = segs parent ++ [base] := by
  rw [segs, words_append_sep, words_of_isWord hb]; rfl

theorem Addressable.named (h : Addressable t) : Named t := by
  obtain ⟨parent, base, rfl, hp, hb, hplain⟩ := h
  have heq : parent ++ '/' :: base = (parent ++ ['/']) ++ base := by simp
  have hall : ∀ c ∈ segs (parent ++ '/' :: base), Plain c := by
    rw [segs_entry hb]
    simpa [or_imp, forall_and] using ⟨hp.plain, hplain⟩
  rw [heq] at hall ⊢
  exact .of_piece hb.2 hb.1 hall

/-- On an addressable text the calls on the directory reach the directory. -/
theorem Addressable.reachesIn (h : Addressable (resolvedText cwd p)) (m : DirMethod) :
    ReachesIn (segs (resolvedText cwd p)) m.name (dirMethod cwd p m) := by
  obtain ⟨parent, base, heq, hp, hb, -⟩ := h
  unfold dirMethod methodPath
  rw [resolveInto_eq, heq]
  split
  · exact .inl rfl
  · rename_i ht
    obtain rfl := Option.some_inj.mp (Option.ite_none_left_eq_some.mp ht).2
    simp only [splitPath_of_isComponent hb hp.ne_nil]
    split
    · exact .inl rfl
    · rename_i hmp
      obtain rfl := Option.some_inj.mp (Option.ite_none_left_eq_some.mp hmp).2
      split
      · exact .inl rfl
      · exact .inr ⟨_, _, _, rfl, (parse_method_iff m.name_spec.1 m.name_spec.2).mpr ⟨hp, rfl⟩,
          (segs_entry hb).symm⟩

/-! ## The working directory -/

/-- **A `chdir` never enters a text that ends in a slash.** -/
theorem chdir_spec (hc : c.head? = some '/') (h : chdir dirs c a = some t) :
    t = resolvedText c a ∧ t.head? = some '/' ∧ Named t := by
  unfold chdir at h
  split at h
  · cases h
  · rename_i abs habs
    obtain ⟨habs, -⟩ := resolveInto_eq_some.mp habs
    have hhead : abs.head? = some '/' := habs ▸ head?_resolvedText hc
    rw [objMethod_eq, resolvedText_self hhead] at h
    split at h
    · cases h
    · rename_i mp hmp
      split_ifs at hmp
      obtain ⟨⟨hdir, -⟩, rfl⟩ := Option.ite_none_right_eq_some.mp h |>.imp_right Option.some.inj
      refine ⟨habs, hhead, ?_⟩
      cases hmp
      unfold isDirectory at hdir
      split at hdir
      · rename_i m hparse
        obtain ⟨rfl, -⟩ := (Bool.and_eq_true _ _).mp hdir |>.imp_left of_decide_eq_true
        exact ((parse_method_iff (ObjMethod.name_spec _).1 (ObjMethod.name_spec _).2).mp hparse).1
      · cases hdir

theorem run_chdir_spec {calls : List Str} (hc : c.head? = some '/')
    (h : run (chdir dirs) c calls = some cwd) :
    cwd.head? = some '/' ∧ (calls = [] ∧ cwd = c ∨ calls ≠ [] ∧ Named cwd) := by
  induction calls generalizing c with
  | nil =>
    cases h
    exact ⟨hc, .inl ⟨rfl, rfl⟩⟩
  | cons a calls ih =>
    obtain ⟨c', hs, hrun⟩ := Option.bind_eq_some_iff.mp h
    obtain ⟨-, hc', hnamed⟩ := chdir_spec hc hs
    obtain ⟨hhead, ⟨-, rfl⟩ | ⟨-, hcwd⟩⟩ := ih hc' hrun
    · exact ⟨hhead, .inr ⟨cons_ne_nil _ _, hnamed⟩⟩
    · exact ⟨hhead, .inr ⟨cons_ne_nil _ _, hcwd⟩⟩

/-- `open` asks what the call on the path itself asks, or its buffer is too small. -/
theorem opened_eq {β : Type} (ask : Str → Str → Except Errno β) (hc : cwd.head? = some '/')
    (hask : ∀ {a b}, resolvedText cwd a = resolvedText cwd b → ask cwd a = ask cwd b) :
    opened cwd p (ask cwd) = .error .nameTooLong ∨ opened cwd p (ask cwd) = ask cwd p := by
  unfold opened
  split
  · exact .inl rfl
  · rename_i t ht
    obtain ⟨rfl, -⟩ := resolveInto_eq_some.mp ht
    exact .inr (hask (resolvedText_self (head?_resolvedText hc)))

theorem objMethod_congr {b : Str} (m : ObjMethod) (h : resolvedText c a = resolvedText c b) :
    objMethod c a m = objMethod c b m := by
  rw [objMethod_eq, objMethod_eq, h]

theorem dirMethod_congr {b : Str} (m : DirMethod) (h : resolvedText c a = resolvedText c b) :
    dirMethod c a m = dirMethod c b m := by
  unfold dirMethod
  rw [resolveInto_eq, resolveInto_eq, h]

theorem Named.reaches (h : Named (resolvedText cwd p)) (m : ObjMethod) :
    Reaches (segs (resolvedText cwd p)) m.name (objMethod cwd p m) := by
  rw [objMethod_eq]
  split
  · exact .inl rfl
  · exact .inr ⟨_, rfl, (parse_method_iff m.name_spec.1 m.name_spec.2).mpr ⟨h, rfl⟩⟩

theorem Addressable.renames (h : Addressable (resolvedText cwd p)) {new mp obase nbase : Str}
    (hr : rename cwd p new = .ok (mp, obase, nbase)) :
    ∃ dir, parse mp = .ok ⟨dir, some renameMethod⟩ ∧
      dir ++ [obase] = segs (resolvedText cwd p) := by
  obtain ⟨parent, base, heq, hp, hb, -⟩ := h
  unfold rename at hr
  split at hr
  · rename_i ro rn hro hrn
    obtain ⟨rfl, -⟩ := resolveInto_eq_some.mp hro
    rw [heq, splitPath_of_isComponent hb hp.ne_nil] at hr
    split at hr
    · rename_i hsplit _
      obtain ⟨rfl, rfl⟩ := Prod.mk.inj (Option.some.inj hsplit)
      cases hmp : methodPath parent renameMethod with
      | none =>
        rw [hmp] at hr
        split_ifs at hr
      | some mp =>
        rw [hmp] at hr
        split_ifs at hr
        cases hr
        obtain rfl := Option.some_inj.mp (Option.ite_none_left_eq_some.mp hmp).2
        exact ⟨_, (parse_method_iff (by decide) (by decide)).mpr ⟨hp, rfl⟩,
          by rw [heq, segs_entry hb]⟩
    · cases hr
  · cases hr

/-! ## The result -/

/-- A name in a directory whose own text takes a method, where every buffer is large enough. -/
theorem addressable_of_reachesIn (hfit : byteLen (resolvedText cwd p) ≤ 256)
    (hn : Named (resolvedText cwd p))
    (h : ReachesIn cs DirMethod.mkdir.name (dirMethod cwd p .mkdir)) :
    Addressable (resolvedText cwd p) := by
  unfold dirMethod at h
  rw [resolveInto_eq, if_neg (by omega)] at h
  dsimp only at h
  split at h
  · obtain h | ⟨_, _, _, h, -⟩ := h <;> cases h
  · rename_i parent base hsplit
    obtain ⟨hpar, hbase⟩ := byteLen_splitPath_le hsplit
    have hmkdir : byteLen DirMethod.mkdir.name = 5 := rfl
    rw [methodPath, if_neg (by omega)] at h
    dsimp only at h
    rw [if_neg (by omega)] at h
    obtain h | ⟨_, _, dir, h, hparse, -⟩ := h
    · cases h
    · cases h
      have hp := ((parse_method_iff (DirMethod.name_spec _).1 (DirMethod.name_spec _).2).mp
        hparse).1
      obtain ⟨heq, hb⟩ := eq_of_splitPath hsplit hn.last hp
      refine ⟨parent, base, heq, hp, hb, hn.plain base ?_⟩
      simp [heq, segs_entry hb]

/-- At `/`, and for the empty path, the names of the text are those of the directory and the path,
and every call finds them. -/
theorem Addressable.resolves (haddr : Addressable (cwd ++ p)) (hhead : cwd.head? = some '/')
    (hp : Relative p) (hor : cwd = ['/'] ∨ p = []) : Resolves dirs cwd p := by
  have htext : resolvedText cwd p = cwd ++ p := resolvedText_relative hp
  have hsegs : segs (resolvedText cwd p) = segs cwd ++ segs p := by
    rw [htext]
    obtain rfl | rfl := hor
    · exact words_append (.inr rfl)
    · simp [segs]
  rw [← htext] at haddr
  have hobj : ∀ m : ObjMethod, Reaches _ m.name (objMethod cwd p m) := haddr.named.reaches
  have hdir : ∀ m : DirMethod, ReachesIn _ m.name (dirMethod cwd p m) := haddr.reachesIn
  refine ⟨fun cap => by simp [resolveInto_eq, htext], fun ht => ?_, hsegs ▸ hobj, hsegs ▸ hdir,
    ?_, ?_, fun hr => hsegs ▸ haddr.renames hr, ?_⟩
  · obtain ⟨rfl, -⟩ := resolveInto_eq_some.mp ht
    rw [← hsegs]
    exact parse_of_plain haddr.named.plain
  · obtain h | h := opened_eq (p := p) (fun c a => objMethod c a .stat) hhead
      (objMethod_congr .stat)
    · exact .inl h
    · rw [← hsegs]
      exact (congrArg (Reaches _ _) h).mpr (hobj .stat)
  · obtain h | h := opened_eq (p := p) (fun c a => dirMethod c a .create) hhead
      (dirMethod_congr .create)
    · exact .inl h
    · rw [← hsegs]
      exact (congrArg (ReachesIn _ _) h).mpr (hdir .create)
  -- the directory in between, or the text that leads there at once, would end in a slash
  · intro c a t t' hc ha hcd ht _
    obtain rfl | rfl := hor
    · exact absurd rfl (chdir_spec hc hcd).2.2.last
    · obtain ⟨rfl, -, hn⟩ := chdir_spec hc ht
      refine absurd ?_ hn.last
      unfold resolvedText
      split <;> simp

/-- What `stat` and `mkdir` ask already settles the text. -/
theorem addressable_of_resolves (hp : Relative p) (hfit : byteLen (cwd ++ p) ≤ 256)
    (h : Resolves dirs cwd p) :
    Addressable (cwd ++ p) ∧ segs cwd ++ segs p = segs (cwd ++ p) := by
  rw [← resolvedText_relative hp] at hfit ⊢
  have hstat : byteLen ObjMethod.stat.name = 4 := rfl
  have hr := h.object .stat
  rw [objMethod_eq, if_neg (by omega)] at hr
  obtain hr | ⟨mp, hr, hparse⟩ := hr
  · cases hr
  · cases hr
    obtain ⟨hn, hsegs⟩ :=
      (parse_method_iff (ObjMethod.name_spec _).1 (ObjMethod.name_spec _).2).mp hparse
    exact ⟨addressable_of_reachesIn hfit hn (h.entry _), hsegs⟩

/-- **A relative path means the entry of the working directory exactly if no `chdir` has been
made** (or the path is empty) and the text it is resolved to is addressable; a text beyond a
buffer apart, which the calls refuse. -/
theorem resolves_iff {calls : List Str} (hrun : run (chdir dirs) ['/'] calls = some cwd)
    (hp : Relative p) :
    ((calls = [] ∨ p = []) ∧ Addressable (cwd ++ p) → Resolves dirs cwd p) ∧
    (byteLen (cwd ++ p) ≤ 256 → Resolves dirs cwd p →
      (calls = [] ∨ p = []) ∧ Addressable (cwd ++ p)) := by
  obtain ⟨hhead, hcwd⟩ := run_chdir_spec rfl hrun
  constructor
  · rintro ⟨hor, haddr⟩
    exact haddr.resolves hhead hp (hor.imp_left fun hc => (hcwd.resolve_right fun h => h.1 hc).2)
  · intro hfit h
    obtain ⟨haddr, hsegs⟩ := addressable_of_resolves hp hfit h
    refine ⟨or_iff_not_imp_left.mpr fun hne => ?_, haddr⟩
    by_contra hpne
    have hcn : Named cwd := (hcwd.resolve_left fun h => hne h.1).2
    exact hcn.last (getLast?_of_words_append hcn.ne_nil hpne hp hsegs.symm)

/-- Before the first `chdir` the path `A/x` means the entry `x` of `/A`; after `chdir("/A/d")` only
the empty path still means the directory. -/
theorem resolves_at_root :
    Resolves (fun _ => true) ['/'] "A/x".toList ∧
    run (chdir fun _ => true) ['/'] ["/A/d".toList] = some "/A/d".toList ∧
    Resolves (fun _ => true) "/A/d".toList [] := by
  have hA : Named "/A".toList := ⟨by decide, by decide, by decide +kernel⟩
  have hrun : run (chdir fun _ => true) ['/'] ["/A/d".toList] = some "/A/d".toList := by
    decide +kernel
  have hstart : run (chdir fun _ => true) ['/'] [] = some ['/'] := rfl
  refine ⟨(resolves_iff hstart (by decide)).1 ⟨.inl rfl, ?_⟩, hrun,
    (resolves_iff hrun (by decide)).1 ⟨.inr rfl, ?_⟩⟩
  · exact ⟨"/A".toList, ['x'], rfl, hA, ⟨by decide, by decide⟩, by decide⟩
  · exact ⟨"/A".toList, ['d'], rfl, hA, ⟨by decide, by decide⟩, by decide⟩

/-- After `chdir("/A")` the path `x` is `/Ax`. -/
theorem resolves_not_after_chdir : ∃ cwd, run (chdir fun _ => true) ['/'] ["/A".toList] = some cwd ∧
    resolveInto cwd ['x'] 512 = some "/Ax".toList ∧ ¬ Resolves (fun _ => true) cwd ['x'] := by
  refine ⟨"/A".toList, by decide +kernel, by decide, fun h => ?_⟩
  have hnames := h.names (show resolveInto _ _ 512 = some "/Ax".toList by decide)
  revert hnames
  decide +kernel

end Bedrock.Stdio
