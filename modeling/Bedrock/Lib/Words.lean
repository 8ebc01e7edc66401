import Mathlib.Data.List.DropRight

/-!
# Lib/Words — a text cut into words by a separator

A text over any alphabet is cut at every separator and the empty pieces are dropped (`words`); a
list of words is put together again with one separator between neighbours (`join`).  Joining words
and cutting them again loses nothing (`words_join`), and a text without empty pieces is the join of
its words (`join_words`).
-/

namespace Bedrock.Words

open List

variable {α : Type*} {sep : α} {s t w : List α} {ws : List (List α)}

/-- The words put together, one separator between neighbours. -/
def join (sep : α) (ws : List (List α)) : List α := [sep].intercalate ws

/-- A word: not empty, and without the separator. -/
def IsWord (sep : α) (w : List α) : Prop := w ≠ [] ∧ sep ∉ w

@[simp] theorem join_nil : join sep ([] : List (List α)) = [] := rfl

@[simp] theorem join_singleton : join sep [w] = w := by simp [join]

theorem join_cons_cons {w' : List α} :
    join sep (w :: w' :: ws) = w ++ sep :: join sep (w' :: ws) := by
  simp [join]

/-! ## Cutting -/

variable [DecidableEq α]

/-- The nonempty pieces of a text. -/
def words (sep : α) (s : List α) : List (List α) := (s.splitOn sep).filter (· ≠ [])

@[simp] theorem words_nil : words sep ([] : List α) = [] := by simp [words]

/-- Cutting at a separator that stands in the text. -/
theorem words_append_sep : words sep (s ++ sep :: t) = words sep s ++ words sep t := by
  simp [words, List.splitOn, splitOnP_append_cons]

theorem words_of_isWord (h : IsWord sep w) : words sep w = [w] := by
  simp [words, splitOn_eq_singleton h.2, h.1]

/-- A text behind one that ends in a separator starts a word of its own… -/
theorem words_append (hs : s = [] ∨ s.getLast? = some sep) :
    words sep (s ++ t) = words sep s ++ words sep t := by
  obtain rfl | hs := hs
  · simp
  · obtain ⟨s, rfl⟩ := getLast?_eq_some_iff.mp hs
    simp [words_append_sep]

theorem words_append_word (hs : s = [] ∨ s.getLast? = some sep) (hw : IsWord sep w) :
    words sep (s ++ w) = words sep s ++ [w] := by
  rw [words_append hs, words_of_isWord hw]

/-- A word up to the next separator. -/
theorem words_word_append (hw : IsWord sep w) (ht : t = [] ∨ t.head? = some sep) :
    words sep (w ++ t) = w :: words sep t := by
  obtain rfl | ht := ht
  · simp [words_of_isWord hw]
  · obtain ⟨r, rfl⟩ := head?_eq_some_iff.mp ht
    have hr : words sep (sep :: r) = words sep r := by simpa using words_append_sep (s := [])
    rw [words_append_sep, words_of_isWord hw, hr, singleton_append]

/-- What stands behind the last separator. -/
theorem exists_last_piece (sep : α) (s : List α) :
    ∃ a v, s = a ++ v ∧ (a = [] ∨ a.getLast? = some sep) ∧ sep ∉ v := by
  refine ⟨_, _, (rdropWhile_append_rtakeWhile (l := s) (p := (· ≠ sep))).symm, ?_,
    fun hm => by simpa using mem_rtakeWhile_imp hm⟩
  refine or_iff_not_imp_left.mpr fun hne => ?_
  rw [getLast?_eq_some_getLast hne]
  simpa using rdropWhile_last_not _ _ hne

/-- …and one behind any other goes on its last word. -/
theorem getLast?_of_words_append (hs : s ≠ []) (ht : t ≠ []) (hhead : t.head? ≠ some sep)
    (h : words sep (s ++ t) = words sep s ++ words sep t) : s.getLast? = some sep := by
  by_contra hl
  obtain ⟨a, v, rfl, ha, hv⟩ := exists_last_piece sep s
  have hvne : v ≠ [] := fun hnil => by
    rw [hnil, append_nil] at hs hl
    exact hl (ha.resolve_left hs)
  have hw : t.takeWhile (· ≠ sep) ≠ [] := by
    obtain ⟨x, t, rfl⟩ := exists_cons_of_ne_nil ht
    have hx : x ≠ sep := fun hx => hhead (congrArg some hx)
    simp [hx]
  have hwsep : sep ∉ t.takeWhile (· ≠ sep) := fun hm => by simpa using mem_takeWhile_imp hm
  have hr : t.dropWhile (· ≠ sep) = [] ∨ (t.dropWhile (· ≠ sep)).head? = some sep := by
    refine or_iff_not_imp_left.mpr fun hne => ?_
    rw [head?_eq_some_head hne]
    simpa using head_dropWhile_not (· ≠ sep) hne
  rw [← takeWhile_append_dropWhile (p := (· ≠ sep)) (l := t)] at h
  generalize t.takeWhile (· ≠ sep) = w, t.dropWhile (· ≠ sep) = r at *
  have hvw : IsWord sep (v ++ w) := ⟨by simp [hvne], by simp [hv, hwsep]⟩
  rw [append_assoc, words_append ha, ← append_assoc v, words_word_append hvw hr,
    words_append_word ha ⟨hvne, hv⟩, words_word_append ⟨hw, hwsep⟩ hr] at h
  simpa using congrArg length h

theorem sep_notMem_of_mem_splitOn (h : w ∈ s.splitOn sep) : sep ∉ w := by
  induction s generalizing w with
  | nil =>
    rw [splitOn_nil, mem_singleton] at h
    simp [h]
  | cons x s ih =>
    obtain ⟨v, vs, hv⟩ := exists_cons_of_ne_nil (splitOn_ne_nil sep s)
    have hsplit : (x :: s).splitOn sep =
        if x = sep then [] :: s.splitOn sep else (x :: v) :: vs := by
      simp only [List.splitOn, splitOnP_cons_eq_if_modifyHead, beq_iff_eq] at hv ⊢
      rw [hv]
      rfl
    rw [hsplit] at h
    split at h
    · obtain rfl | h := mem_cons.mp h
      · exact not_mem_nil
      · exact ih h
    · rename_i hx
      obtain rfl | h := mem_cons.mp h
      · exact not_mem_cons_of_ne_of_not_mem (Ne.symm hx) (ih (hv ▸ mem_cons_self))
      · exact ih (hv ▸ mem_cons_of_mem v h)

theorem isWord_of_mem_words (h : w ∈ words sep s) : IsWord sep w := by
  rw [words, mem_filter] at h
  exact ⟨of_decide_eq_true h.2, sep_notMem_of_mem_splitOn h.1⟩

/-- **Joining words and cutting the text again gives the words back.** -/
theorem words_join (h : ∀ w ∈ ws, IsWord sep w) : words sep (join sep ws) = ws := by
  induction ws with
  | nil => simp
  | cons v vs ih =>
    have hv := words_of_isWord (h v mem_cons_self)
    have hvs := ih fun w hw => h w (mem_cons_of_mem v hw)
    cases vs with
    | nil => simpa using hv
    | cons u us => rw [join_cons_cons, words_append_sep, hv, hvs, singleton_append]

/-- …and a text without empty pieces is the join of its words. -/
theorem join_words (h : s ≠ [] → [] ∉ s.splitOn sep) : join sep (words sep s) = s := by
  by_cases hs : s = []
  · simp [hs]
  · have hall : ∀ w ∈ s.splitOn sep, decide (w ≠ []) = true := by
      intro w hw
      exact decide_eq_true fun hnil => h hs (hnil ▸ hw)
    rw [words, filter_eq_self.mpr hall, join, intercalate_splitOn]

/-- Among texts without empty pieces, the words determine the text. -/
theorem eq_join_iff (hs : s ≠ [] → [] ∉ s.splitOn sep) (hw : ∀ w ∈ ws, IsWord sep w) :
    s = join sep ws ↔ words sep s = ws := by
  constructor
  · rintro rfl
    exact words_join hw
  · intro h
    rw [← h, join_words hs]

end Bedrock.Words
