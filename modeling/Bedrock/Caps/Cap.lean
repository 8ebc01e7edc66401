import Mathlib.Tactic
import Mathlib.Data.List.Infix
import Bedrock.Lib.Words

/-!
# Caps/Cap — path capabilities and the path parser

A task's authority is a list of capabilities, each an exact `(path, method)` entry with `R` or
`RW`.  A path is a text `a/b/c`; the parser turns what a system call was given into components and
an optional method:

    "/a/b/c:m"  --parse--▸  ["a", "b", "c"], some "m"  --joinPath--▸  "a/b/c"

Two spellings of a look-up live side by side: by whole text (`hasPerm`) and by components
(`hasPermOn`).  On validated capabilities and parsed components they agree (`hasPerm_joinPath`).
-/

namespace Bedrock

/-- A Rust string, as its characters. -/
abbrev Str := List Char

/-- `str::len`, in bytes. -/
def byteLen (s : Str) : ℕ := (s.map Char.utf8Size).sum

/-- The errors of the virtual file system. -/
inductive VfsError
  | notFound | alreadyExists | notADirectory | isADirectory | ioError | noSpace | crossDeviceLink
  | invalidInput | nameTooLong | notEmpty | badFileDescriptor | mountBusy | invalidDevice
  | fileTooLarge | readOnly | notSupported | loop
  deriving DecidableEq, Repr

/-- The errors of the object namespace. -/
inductive UnispaceError
  | invalidPath | notFound | notADirectory | isADirectory | methodNotFound | decodeError
  | schemaMismatch | unsupported | outOfMemory | badAddress | invalidArgument | accessDenied
  | vfs (e : VfsError)
  deriving DecidableEq, Repr

/-- Permission states; the absence of an entry is no permission at all. -/
inductive Perm
  | r | rw
  deriving DecidableEq, Repr

/-- `RW` covers both, `R` covers only `R`. -/
def Perm.covers : Perm → Perm → Bool
  | .rw, _ => true
  | .r, .r => true
  | .r, .rw => false

@[simp] theorem Perm.covers_r (p : Perm) : p.covers .r = true := by cases p <;> rfl

@[simp] theorem Perm.covers_self (p : Perm) : p.covers p = true := by cases p <;> rfl

theorem Perm.covers_trans {p q s : Perm} (h1 : p.covers q = true) (h2 : q.covers s = true) :
    p.covers s = true := by
  cases p <;> cases q <;> first | exact h2 | exact absurd h1 Bool.false_ne_true | rfl

/-- One capability: no method is the object itself. -/
structure Cap where
  path : Str
  method : Option Str
  perm : Perm
  deriving DecidableEq, Repr

def maxCapPathLen : ℕ := 256

def maxCapMethodLen : ℕ := 64

def maxCapsPerTask : ℕ := 8192

/-! ## Paths -/

/-- The nonempty segments of a capability's path. -/
def segs (p : Str) : List Str := Words.words '/' p

/-- The canonical text of a list of components. -/
def joinPath (components : List Str) : Str := Words.join '/' components

/-- What the parser can produce as a component, as far as separators go. -/
abbrev IsComponent (c : Str) : Prop := Words.IsWord '/' c

theorem isComponent_of_mem_segs {p c : Str} (h : c ∈ segs p) : IsComponent c :=
  Words.isWord_of_mem_words h

structure ParsedPath where
  components : List Str
  method : Option Str
  deriving DecidableEq, Repr

/-- The method selector on the last component: everything after its first colon. -/
def splitMethod (last : Str) : Except UnispaceError (Str × Option Str) :=
  match last.dropWhile (· ≠ ':') with
  | [] => .ok (last, none)
  | _ :: sel =>
    let name := last.takeWhile (· ≠ ':')
    if name = [] ∨ sel = [] then .error .invalidPath else .ok (name, some sel)

/-- The nonempty segments of a path, read as components and a method. -/
def parseSegs (raw : List Str) : Except UnispaceError ParsedPath :=
  match raw.getLast? with
  | none => .ok ⟨[], none⟩
  | some last =>
    match splitMethod last with
    | .error e => .error e
    | .ok (name, method) =>
      let raw := raw.dropLast ++ [name]
      if raw.any fun seg => seg = ".".toList ∨ seg = "..".toList ∨ ':' ∈ seg then
        .error .invalidPath
      else .ok ⟨raw, method⟩

/-- `path::parse`: one leading slash is dropped. -/
def parse (path : Str) : Except UnispaceError ParsedPath :=
  parseSegs (segs (if path.head? = some '/' then path.tail else path))

variable {method : Option Str} {caps : List Cap} {components : List Str}

/-- The name a selector was split off is a nonempty front of its component. -/
theorem isComponent_of_splitMethod {last name : Str}
    (hlast : IsComponent last) (h : splitMethod last = .ok (name, method)) : IsComponent name := by
  unfold splitMethod at h
  split at h
  · obtain ⟨rfl, -⟩ := Prod.mk.inj (Except.ok.inj h)
    exact hlast
  · dsimp only at h
    split_ifs at h with hne
    obtain ⟨rfl, -⟩ := Prod.mk.inj (Except.ok.inj h)
    have hsub := (List.takeWhile_sublist (l := last) (fun c => decide (c ≠ ':'))).subset
    exact ⟨fun hnil => hne (.inl hnil), fun hmem => hlast.2 (hsub hmem)⟩

theorem isComponent_of_parseSegs {raw : List Str} {p : ParsedPath}
    (hraw : ∀ c ∈ raw, IsComponent c) (h : parseSegs raw = .ok p) :
    ∀ c ∈ p.components, IsComponent c := by
  unfold parseSegs at h
  split at h
  · cases h
    simp
  · rename_i last hlast
    split at h
    · cases h
    rename_i name method hm
    have hname := isComponent_of_splitMethod (hraw last (List.mem_of_getLast? hlast)) hm
    dsimp only at h
    split_ifs at h
    · cases h
      intro c hc
      obtain hc | hc := List.mem_append.mp hc
      · exact hraw c (List.mem_of_mem_dropLast hc)
      · exact List.mem_singleton.mp hc ▸ hname

/-- **Parsed components are words between slashes.** -/
theorem isComponent_of_parse {path : Str} {p : ParsedPath} (h : parse path = .ok p) :
    ∀ c ∈ p.components, IsComponent c :=
  isComponent_of_parseSegs (fun _ hc => isComponent_of_mem_segs hc) h

/-! ## Looking a capability up -/

/-- Exact look-up by text: do the capabilities grant `want` on `(path, method)`? -/
def hasPerm (caps : List Cap) (path : Str) (method : Option Str) (want : Perm) : Bool :=
  caps.any fun c => c.path = path && c.method = method && c.perm.covers want

/-- Exact look-up on parsed components. -/
def hasPermOn (caps : List Cap) (components : List Str) (method : Option Str) (want : Perm) :
    Bool :=
  caps.any fun c => c.method = method && segs c.path = components && c.perm.covers want

theorem hasPerm_iff {path : Str} {want : Perm} : hasPerm caps path method want = true ↔
      ∃ c ∈ caps, c.path = path ∧ c.method = method ∧ c.perm.covers want = true := by
  simp [hasPerm, and_assoc]

theorem hasPermOn_iff {want : Perm} : hasPermOn caps components method want = true ↔
      ∃ c ∈ caps, c.method = method ∧ segs c.path = components ∧ c.perm.covers want = true := by
  simp [hasPermOn, and_assoc]

/-! ## Validation -/

/-- A control byte; in UTF-8 such a byte is a character of its own. -/
def isControl (c : Char) : Bool := c.val < 0x20 || c.val = 0x7F

/-- What `validate_cap` refuses in a method name. -/
def badMethod (m : Str) : Bool :=
  m = [] || maxCapMethodLen < byteLen m || '/' ∈ m || ':' ∈ m || m.any isControl

/-- What it refuses in one segment of a path. -/
def badSeg (seg : Str) : Bool :=
  seg = [] || seg = ".".toList || seg = "..".toList || ':' ∈ seg || seg.any isControl

/-- …and in a path that is not the root's. -/
def badPath (p : Str) : Bool :=
  p.head? = some '/' || p.getLast? = some '/' || "//".toList <:+: p || (p.splitOn '/').any badSeg

/-- `validate_cap`, the check of a capability at insertion. -/
def validateCap (cap : Cap) : Except UnispaceError Unit :=
  if maxCapPathLen < byteLen cap.path then .error .invalidArgument
  else if cap.method.any badMethod then .error .invalidArgument
  else if cap.path ≠ [] ∧ badPath cap.path then .error .invalidArgument
  else .ok ()

/-- A validated path has no empty piece: it is the join of its segments. -/
theorem nil_notMem_of_validateCap {cap : Cap} (h : validateCap cap = .ok ()) (hne : cap.path ≠ []) :
    [] ∉ cap.path.splitOn '/' := by
  unfold validateCap at h
  split_ifs at h with h1 h2 h3
  intro hmem
  refine h3 ⟨hne, ?_⟩
  have hany : (cap.path.splitOn '/').any badSeg = true := List.any_eq_true.mpr ⟨[], hmem, rfl⟩
  simp [badPath, hany]

/-- A validated capability is for the joined path exactly when its segments are the components. -/
theorem path_eq_joinPath_iff {cap : Cap} (hv : validateCap cap = .ok ())
    (hc : ∀ c ∈ components, IsComponent c) :
    cap.path = joinPath components ↔ segs cap.path = components :=
  Words.eq_join_iff (nil_notMem_of_validateCap hv) hc

/-- **The two look-ups agree** on validated capabilities and parsed components. -/
theorem hasPerm_joinPath (method : Option Str)
    (want : Perm) (hv : ∀ cap ∈ caps, validateCap cap = .ok ())
    (hc : ∀ c ∈ components, IsComponent c) :
    hasPerm caps (joinPath components) method want = hasPermOn caps components method want := by
  rw [Bool.eq_iff_iff, hasPerm_iff, hasPermOn_iff]
  refine exists_congr fun cap => and_congr_right fun hcap => ?_
  rw [path_eq_joinPath_iff (hv cap hcap) hc, and_left_comm]

end Bedrock
