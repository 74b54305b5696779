import Mathlib.Data.List.Chain
import StyledText.Proofs.Chars.Ink

/-!
# Squeezed texts

`squeeze` leaves the words of a text with one space between each two. What comes out neither starts
nor ends with a blank, has no blank but the space, and no two spaces side by side
(`isSqueezed_squeeze`).
-/

namespace StyledText.Chars

/-- The form of a text whose blanks are squeezed. -/
structure IsSqueezed (cs : List Char) : Prop where
  head : ∀ c ∈ cs.head?, ¬ isBlank c
  last : ∀ c ∈ cs.getLast?, ¬ isBlank c
  space : ∀ c ∈ cs, isBlank c → c = ' '
  apart : cs.IsChain fun c d => ¬ (c = ' ' ∧ d = ' ')

/-- A text without blanks that is not empty. -/
structure IsWord (cs : List Char) : Prop where
  ne_nil : cs ≠ []
  inked : ∀ c ∈ cs, ¬ isBlank c

variable {cs w line : List Char}

/-- The parts between blanks have none, and empty ones are left out. -/
theorem isWord_of_mem_words (h : w ∈ words cs) : IsWord w := by
  obtain ⟨hpart, hne⟩ := List.mem_filter.1 h
  refine ⟨by simpa using hne, ?_⟩
  intro c hc
  simp [not_of_mem_splitOnP hpart c hc]

theorem ne_space_of_not_isBlank {c : Char} (h : ¬ isBlank c) : c ≠ ' ' := by
  rintro rfl
  exact h (by decide)

theorem IsWord.apart (h : IsWord w) : w.IsChain fun c d => ¬ (c = ' ' ∧ d = ' ') := by
  refine (List.pairwise_of_forall_mem_list ?_).isChain
  rintro c hc - - ⟨rfl, -⟩
  exact ne_space_of_not_isBlank (h.inked _ hc) rfl

/-- A single word has no blank that could be one too many. -/
theorem IsWord.isSqueezed (h : IsWord w) : IsSqueezed w where
  head := fun c hc => h.inked c (List.mem_of_head? hc)
  last := fun c hc => h.inked c (List.mem_of_getLast? hc)
  space := fun c hc hblank => absurd hblank (h.inked c hc)
  apart := h.apart

/-- A word in front leaves a squeezed text squeezed. -/
theorem IsSqueezed.cons_word (h : IsSqueezed line) (hne : line ≠ []) (hw : IsWord w) :
    IsSqueezed (w ++ ' ' :: line) := by
  refine ⟨?_, ?_, ?_, ?_⟩
  · intro c hc
    rw [List.head?_append_of_ne_nil _ hw.ne_nil] at hc
    exact hw.inked c (List.mem_of_head? hc)
  · intro c hc
    rw [List.getLast?_append_of_ne_nil _ (by simp), List.getLast?_cons_of_ne_nil hne] at hc
    exact h.last c hc
  · intro c hc hblank
    rcases List.mem_append.1 hc with hc | hc
    · exact absurd hblank (hw.inked c hc)
    · rcases List.mem_cons.1 hc with rfl | hc
      · rfl
      · exact h.space c hc hblank
  · -- The space has a word on both sides.
    refine hw.apart.append (List.isChain_cons.2 ⟨?_, h.apart⟩) ?_
    · rintro c hc ⟨-, rfl⟩
      exact ne_space_of_not_isBlank (h.head _ hc) rfl
    · rintro c hc d - ⟨rfl, -⟩
      exact ne_space_of_not_isBlank (hw.inked _ (List.mem_of_getLast? hc)) rfl

theorem IsWord.intercalate_ne_nil (hw : IsWord w) (rest : List (List Char)) :
    List.intercalate [' '] (w :: rest) ≠ [] := by
  cases rest <;> simp [hw.ne_nil]

/-- Words with one space between each two are squeezed. -/
theorem isSqueezed_intercalate {ws : List (List Char)} (h : ∀ w ∈ ws, IsWord w) :
    IsSqueezed (List.intercalate [' '] ws) := by
  -- each word brings the space before the next one with it
  induction ws with
  | nil => exact ⟨by simp, by simp, by simp, .nil⟩
  | cons w rest ih =>
    rw [List.forall_mem_cons] at h
    cases rest with
    | nil =>
      rw [List.intercalate_singleton]
      exact h.1.isSqueezed
    | cons next rest =>
      rw [List.intercalate_cons_cons, List.append_assoc, List.singleton_append]
      have hnext : IsWord next := h.2 next List.mem_cons_self
      exact (ih h.2).cons_word (hnext.intercalate_ne_nil rest) h.1

/-- What is squeezed is in squeezed form. -/
theorem isSqueezed_squeeze (cs : List Char) : IsSqueezed (squeeze cs) :=
  isSqueezed_intercalate fun _ => isWord_of_mem_words

end StyledText.Chars
