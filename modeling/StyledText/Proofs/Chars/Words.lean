import StyledText.Proofs.Chars.Cuts
import StyledText.Proofs.Chars.Squeezed

/-!
# Words of a text

A blank between two parts of a text keeps their words apart (`words_append_cons`), and so a text is
read word by word.

* `words_word_append`: the first word, if the text begins with one.
* `exists_first_word`: where the first word of a text stands.
* `words_eq_pair_iff`: which texts have exactly two words.
-/

namespace StyledText.Chars

variable {cs w rest : List Char}

@[simp] theorem words_nil : words [] = [] := rfl

/-- No word reaches over a blank. -/
theorem words_append_cons {c : Char} (h : isBlank c) (l r : List Char) :
    words (l ++ c :: r) = words l ++ words r := by
  unfold words
  rw [List.splitOnP_append_cons l r h, List.filter_append]

theorem words_cons_of_isBlank {c : Char} (h : isBlank c) (cs : List Char) :
    words (c :: cs) = words cs :=
  words_append_cons h [] cs

/-- Blanks in front do not count. -/
theorem words_append_of_blank {front : List Char} (h : ∀ c ∈ front, isBlank c) (cs : List Char) :
    words (front ++ cs) = words cs := by
  induction front with
  | nil => rfl
  | cons c front ih =>
    rw [List.forall_mem_cons] at h
    rw [List.cons_append, words_cons_of_isBlank h.1, ih h.2]

/-- Blanks hold no word. -/
theorem words_of_blank (h : ∀ c ∈ cs, isBlank c) : words cs = [] := by
  have hnone := words_append_of_blank h []
  rwa [List.append_nil] at hnone

/-- A word is its only word. -/
theorem IsWord.words_eq (h : IsWord w) : words w = [w] := by
  have hpart : w.splitOnP isBlank = [w] :=
    List.splitOnP_eq_singleton fun c hc => by simpa using h.inked c hc
  rw [words, hpart, List.filter_cons_of_pos (by simpa using h.ne_nil), List.filter_nil]

/-- A word reaches up to the next blank. -/
theorem IsWord.words_append (h : IsWord w) (hrest : ∀ c ∈ rest.head?, isBlank c) :
    words (w ++ rest) = w :: words rest := by
  cases rest with
  | nil => rw [List.append_nil, h.words_eq, words_nil]
  | cons c rest =>
    have hc : isBlank c := hrest c rfl
    rw [words_append_cons hc, h.words_eq, words_cons_of_isBlank hc, List.singleton_append]

/-- One more blank changes no word, where it stands at an end or beside another blank. -/
theorem words_insert_blank {c : Char} (hc : isBlank c) {l r : List Char}
    (h : (∀ d ∈ l.getLast?, isBlank d) ∨ ∀ d ∈ r.head?, isBlank d) :
    words (l ++ c :: r) = words (l ++ r) := by
  rw [words_append_cons hc]
  rcases h with hl | hr
  · rcases List.eq_nil_or_concat' l with rfl | ⟨l, d, rfl⟩
    · rfl
    · have hd : isBlank d := hl d (by simp)
      rw [List.append_assoc, List.singleton_append, words_append_cons hd, words_append_cons hd,
        words_nil, List.append_nil]
  · cases r with
    | nil => rw [words_nil, List.append_nil, List.append_nil]
    | cons d r =>
      have hd : isBlank d := hr d rfl
      rw [words_append_cons hd, words_cons_of_isBlank hd]

/-- A text without words is blank. -/
theorem isBlank_of_words_eq_nil (h : words cs = []) : ∀ c ∈ cs, isBlank c := by
  have hink : cs.filter (!isBlank ·) = [] := by
    rw [← flatten_splitOnP, ← List.flatten_filter_ne_nil]
    exact congrArg List.flatten h
  intro c hc
  simpa using List.filter_eq_nil_iff.1 hink c hc

theorem mem_of_mem_words (h : w ∈ words cs) {c : Char} (hc : c ∈ w) : c ∈ cs := by
  have hflat : c ∈ (cs.splitOnP isBlank).flatten :=
    List.mem_flatten.2 ⟨w, (List.mem_filter.1 h).1, hc⟩
  rw [flatten_splitOnP] at hflat
  exact (List.mem_filter.1 hflat).1

/-- The first word stands behind blanks only, and a blank or nothing is behind it. -/
theorem exists_first_word {ws : List (List Char)} (h : words cs = w :: ws) :
    ∃ front rest, cs = front ++ (w ++ rest) ∧ (∀ c ∈ front, isBlank c) ∧
      (∀ c ∈ rest.head?, isBlank c) ∧ words rest = ws := by
  obtain ⟨front, body, rfl, hfront, hbody⟩ := exists_span isBlank cs
  obtain ⟨word, rest, rfl, hinked, hrest⟩ := exists_span (!isBlank ·) body
  have hrest : ∀ c ∈ rest.head?, isBlank c := fun c hc => by simpa using hrest c hc
  rw [words_append_of_blank hfront] at h
  have hword : IsWord word := by
    refine ⟨?_, fun c hc => by simpa using hinked c hc⟩
    rintro rfl
    -- What is left would start with a blank and with none, so there would be no word.
    cases rest with
    | nil => cases h
    | cons c rest => exact absurd (hrest c rfl) (by simpa using hbody c rfl)
  rw [hword.words_append hrest] at h
  obtain ⟨rfl, rfl⟩ := List.cons.inj h
  exact ⟨front, rest, rfl, hfront, hrest, rfl⟩

/-- Two words, with blanks between them and maybe around them. -/
def InTwo (cs a b : List Char) : Prop :=
  ∃ front middle back, cs = front ++ (a ++ (middle ++ (b ++ back))) ∧ IsWord a ∧ IsWord b ∧
    middle ≠ [] ∧ ∀ c ∈ front ++ middle ++ back, isBlank c

/-- A text has two words if it is these two with blanks around and between them. -/
theorem words_eq_pair_iff {a b : List Char} : words cs = [a, b] ↔ InTwo cs a b := by
  constructor
  · intro h
    have ha : IsWord a := isWord_of_mem_words (h ▸ List.mem_cons_self)
    have hb : IsWord b := isWord_of_mem_words (h ▸ List.mem_cons_of_mem _ List.mem_cons_self)
    obtain ⟨front, rest, rfl, hfront, hrest, hmore⟩ := exists_first_word h
    obtain ⟨middle, back, rfl, hmiddle, -, hnone⟩ := exists_first_word hmore
    refine ⟨front, middle, back, rfl, ha, hb, ?_, ?_⟩
    · -- behind the first word there is a blank, and the second word starts with none
      rintro rfl
      obtain ⟨c, b, rfl⟩ := List.exists_cons_of_ne_nil hb.ne_nil
      exact hb.inked c List.mem_cons_self (hrest c rfl)
    · simp only [List.mem_append, or_imp, forall_and]
      exact ⟨⟨hfront, hmiddle⟩, isBlank_of_words_eq_nil hnone⟩
  · rintro ⟨front, middle, back, rfl, ha, hb, hne, hblank⟩
    simp only [List.mem_append, or_imp, forall_and] at hblank
    obtain ⟨⟨hfront, hmiddle⟩, hback⟩ := hblank
    have hmiddleHead : ∀ c ∈ (middle ++ (b ++ back)).head?, isBlank c := by
      rw [List.head?_append_of_ne_nil _ hne]
      exact fun c hc => hmiddle c (List.mem_of_head? hc)
    rw [words_append_of_blank hfront, ha.words_append hmiddleHead, words_append_of_blank hmiddle,
      hb.words_append fun c hc => hback c (List.mem_of_head? hc), words_of_blank hback]

end StyledText.Chars
