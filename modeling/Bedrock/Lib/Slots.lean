import Mathlib.Data.List.Nodup

/-!
# Lib/Slots — a table of slots with a free list

Values are kept under small indices.  An insertion takes the index freed last, or grows the table;
a removal vacates its slot and remembers the index:

    slots  a · c · e        insert x --▸  a x c · e
    free   [1, 3]                         [3]

Indices on the free list are distinct and vacant (fields of `SlotTable`), so an insertion never
displaces a value.
-/

namespace Bedrock

open List

/-- The slots, and the vacated indices, last first. -/
structure SlotTable (α : Type*) where
  slots : List (Option α)
  free : List ℕ
  vacant : ∀ i ∈ free, slots[i]? = some none
  nodup : free.Nodup

namespace SlotTable

variable {α : Type*} {t : SlotTable α} {a : α} {i j : ℕ}

/-- The table without slots. -/
def empty : SlotTable α := ⟨[], [], by simp, nodup_nil⟩

/-- What is kept under an index, if anything. -/
def get (t : SlotTable α) (i : ℕ) : Option α := t.slots[i]?.join

/-- The index the next insertion takes. -/
def next (t : SlotTable α) : ℕ := t.free.headD t.slots.length

theorem get_eq_some : t.get i = some a ↔ t.slots[i]? = some (some a) := by
  rw [get, Option.join_eq_some_iff]

theorem get_of_mem_free (h : i ∈ t.free) : t.get i = none := by
  rw [get, t.vacant i h, Option.join_some]

theorem lt_length_of_mem_free (h : i ∈ t.free) : i < t.slots.length :=
  (List.getElem?_eq_some_iff.mp (t.vacant i h)).1

variable (t)

theorem get_next : t.get t.next = none := by
  unfold next
  cases h : t.free with
  | nil => simp [get]
  | cons i rest =>
    have hi : i ∈ t.free := by simp [h]
    exact get_of_mem_free hi

/-! ## Insertion -/

/-- The slots with a value under the next index. -/
def insertSlots (a : α) : List (Option α) :=
  match t.free with
  | [] => t.slots ++ [some a]
  | i :: _ => t.slots.set i (some a)

theorem getElem?_insertSlots (a : α) (j : ℕ) :
    (t.insertSlots a)[j]? = if j = t.next then some (some a) else t.slots[j]? := by
  unfold insertSlots next
  cases h : t.free with
  | nil => grind
  | cons i rest =>
    have hlt : i < t.slots.length := lt_length_of_mem_free (h ▸ mem_cons_self)
    obtain rfl | hj := eq_or_ne j i
    · simp [getElem?_set_self hlt]
    · simp [hj, getElem?_set_ne (Ne.symm hj)]

variable {t}

theorem ne_next_of_mem_tail (h : i ∈ t.free.tail) : i ≠ t.next := by
  have hnd := t.nodup
  unfold next
  cases hf : t.free with
  | nil => simp [hf] at h
  | cons k rest =>
    rw [hf] at h hnd
    rintro rfl
    exact (nodup_cons.mp hnd).1 h

variable (t)

/-- Keep a value under the next index. -/
def insert (a : α) : SlotTable α where
  slots := t.insertSlots a
  free := t.free.tail
  vacant i hi := by
    rw [getElem?_insertSlots, if_neg (ne_next_of_mem_tail hi)]
    exact t.vacant i (mem_of_mem_tail hi)
  nodup := t.nodup.tail

/-- **An insertion fills a vacant slot and changes no other.** -/
theorem get_insert (a : α) (j : ℕ) :
    (t.insert a).get j = if j = t.next then some a else t.get j := by
  simp only [get, insert, getElem?_insertSlots]
  split_ifs <;> rfl

/-! ## Removal -/

/-- Vacate a slot; a vacant one is left as it is. -/
def remove (i : ℕ) : SlotTable α :=
  if h : (t.get i).isSome then
    { slots := t.slots.set i none
      free := i :: t.free
      vacant := by
        obtain ⟨a, ha⟩ := Option.isSome_iff_exists.mp h
        have hlt := (List.getElem?_eq_some_iff.mp (get_eq_some.mp ha)).1
        intro j hj
        obtain rfl | hji := eq_or_ne j i
        · exact getElem?_set_self hlt
        · rw [getElem?_set_ne (Ne.symm hji)]
          exact t.vacant j (mem_of_ne_of_mem hji hj)
      nodup := by
        refine nodup_cons.mpr ⟨fun hmem => ?_, t.nodup⟩
        rw [get_of_mem_free hmem] at h
        exact Bool.false_ne_true h }
  else t

/-- **A removal vacates its slot and changes no other.** -/
theorem get_remove (i j : ℕ) :
    (t.remove i).get j = if j = i then none else t.get j := by
  unfold remove
  split_ifs with h hji hji
  · subst hji
    cases hj : t.slots[j]? <;> simp [get, getElem?_set_self', hj]
  · simp [get, getElem?_set_ne (Ne.symm hji)]
  · subst hji
    simpa using h
  · rfl

end SlotTable

end Bedrock
