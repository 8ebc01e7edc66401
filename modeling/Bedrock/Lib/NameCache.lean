import Bedrock.Lib.Names

/-!
# Lib/NameCache — remembered names

A cache remembers, for a node and a name, a holder `c` of the node that is called so.  It is
faithful when every holder it remembers holds what the naming says, and it remembers a holder under
one name of one node only:

    cached i n c   ⟹   value c = N i n            a step may forget entries (`shrink`),
                                                  and remember one more (`grow`)
-/

namespace Bedrock.Names

variable {ι ν δ : Type*} {N N' : Names ι ν} {cached cached' : ι → ν → δ → Prop}
  {value value' : δ → Option ι}

/-- Where a list of names leads. -/
def follow (N : Names ι ν) : ι → List ν → Option ι
  | i, [] => some i
  | i, n :: ns => (N i n).bind fun j => follow N j ns

/-- **What is remembered is so**, and under one name. -/
structure Faithful (N : Names ι ν) (cached : ι → ν → δ → Prop) (value : δ → Option ι) : Prop where
  right : ∀ {i n c}, cached i n c → ∃ j, value c = some j ∧ N i n = some j
  unique : ∀ {i n i' n' c}, cached i n c → cached i' n' c → i = i' ∧ n = n'

/-- Entries may be forgotten, if the others go on holding what the naming says. -/
theorem Faithful.shrink (h : Faithful N cached value)
    (hkept : ∀ i n c, cached' i n c → cached i n c ∧ value' c = value c ∧ N' i n = N i n) :
    Faithful N' cached' value' where
  right := fun {i n c} hc => by
    obtain ⟨hold, hvalue, hname⟩ := hkept i n c hc
    obtain ⟨j, hj, hN⟩ := h.right hold
    exact ⟨j, hvalue.trans hj, hname.trans hN⟩
  unique := fun hc hc' => h.unique (hkept _ _ _ hc).1 (hkept _ _ _ hc').1

/-- One entry more, of a holder that is remembered nowhere else. -/
theorem Faithful.grow {i0 j0 : ι} {n0 : ν} {c0 : δ} (h : Faithful N cached value)
    (hvalue : value' c0 = some j0) (hname : N' i0 n0 = some j0)
    (hkept : ∀ i n c, cached' i n c → (i = i0 ∧ n = n0 ∧ c = c0) ∨
      (c ≠ c0 ∧ cached i n c ∧ value' c = value c ∧ N' i n = N i n)) :
    Faithful N' cached' value' where
  right := fun {i n c} hc => by
    obtain ⟨rfl, rfl, rfl⟩ | ⟨-, hold, hval, hN⟩ := hkept i n c hc
    · exact ⟨j0, hvalue, hname⟩
    · obtain ⟨j, hj, hNj⟩ := h.right hold
      exact ⟨j, hval.trans hj, hN.trans hNj⟩
  unique := fun {i n i' n' c} hc hc' => by
    rcases hkept i n c hc with ⟨hi, hn, hc0⟩ | ⟨hne, hold, -⟩ <;>
      obtain ⟨hi', hn', hc₀'⟩ | ⟨hne', hold', -⟩ := hkept i' n' c hc'
    · exact ⟨hi.trans hi'.symm, hn.trans hn'.symm⟩
    · exact absurd hc0 hne'
    · exact absurd hc₀' hne
    · exact h.unique hold hold'

/-- A name that leads nowhere is not remembered. -/
theorem Faithful.not_cached {i : ι} {n : ν} (h : Faithful N cached value) (hn : N i n = none)
    (c : δ) : ¬ cached i n c := by
  intro hc
  obtain ⟨j, -, hj⟩ := h.right hc
  cases hn.symm.trans hj

end Bedrock.Names
