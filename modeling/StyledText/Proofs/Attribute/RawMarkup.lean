import StyledText.Markdown.RawMarkup
import StyledText.Proofs.Chars.Words

/-!
# Assignments in raw markup

Raw markup sets an attribute exactly if two words are left of it without the brackets, and the words
say which.

* `assignment?_eq_some_iff`: what a literal sets.
* `words_stripped_padded`: brackets and blanks that are put into the usual form (`Padded`) leave its
  two words as they are.
* `assignment?_reads_grammar`: literals are read by this grammar, and what was read can be written
  and read again.
-/

namespace StyledText.Markdown.RawMarkup

open Attribute Chars

/-! ## What is written -/

/-- A literal without the characters that do not count. -/
def stripped (literal : List Char) : List Char := literal.filter (!isBracket ·)

/-- A text that can be a name or a value. -/
structure IsClean (s : String) : Prop where
  word : IsWord s.toList
  unbracketed : ∀ c ∈ s.toList, ¬ isBracket c

/-- The name that a key has in raw markup. -/
inductive Names : String → Key → Prop
  | variableName : Names "key" .variableName
  | variableValue : Names "value" .variableValue
  | custom {name : String} : IsClean name → name ≠ "key" → name ≠ "value" →
    Names name (.custom name)

def usualForm (name value : String) : List Char :=
  '<' :: (name.toList ++ ' ' :: (value.toList ++ ['/', '>']))

/-- Whether no word goes on from one part of a literal to the next. -/
def CutsNoWord (l r : List Char) : Prop :=
  (stripped l).getLast?.all isBlank ∨ (stripped r).head?.all isBlank

/-- What becomes of the usual form when brackets are put in anywhere, and blanks at the ends or
between the words. -/
inductive Padded (name value : String) : List Char → Prop
  | usual : Padded name value (usualForm name value)
  | bracket {l r : List Char} {c : Char} : Padded name value (l ++ r) → isBracket c →
    Padded name value (l ++ c :: r)
  | blank {l r : List Char} {c : Char} : Padded name value (l ++ r) → isBlank c → CutsNoWord l r →
    Padded name value (l ++ c :: r)

variable {literal name value : String} {key : Key}

/-! ## What is read -/

/-- What has neither blanks nor brackets is read as one word. -/
theorem isClean_of_all (hne : name ≠ "")
    (h : name.toList.all fun c => !isBlank c && !isBracket c) : IsClean name := by
  have hall : ∀ c ∈ name.toList, isBlank c = false ∧ isBracket c = false := by
    simpa using List.all_eq_true.1 h
  refine ⟨⟨by simpa using hne, ?_⟩, ?_⟩
  · exact fun c hc => by simp [(hall c hc).1]
  · exact fun c hc => by simp [(hall c hc).2]

theorem isBracket_eq_false_of_isBlank {c : Char} (h : isBlank c) : isBracket c = false := by
  simp only [isBracket, Bool.or_eq_false_iff, decide_eq_false_iff_not]
  refine ⟨⟨?_, ?_⟩, ?_⟩ <;>
    · rintro rfl
      exact absurd h (by decide)

/-- Brackets are dropped character by character. -/
theorem stripped_append (l r : List Char) : stripped (l ++ r) = stripped l ++ stripped r :=
  List.filter_append l r

theorem stripped_cons_bracket {c : Char} (h : isBracket c) (r : List Char) :
    stripped (c :: r) = stripped r :=
  List.filter_cons_of_neg (by simp [h])

theorem stripped_cons_blank {c : Char} (h : isBlank c) (r : List Char) :
    stripped (c :: r) = c :: stripped r :=
  List.filter_cons_of_pos (by simp [isBracket_eq_false_of_isBlank h])

/-- A clean name has no brackets to drop. -/
theorem IsClean.stripped_eq (h : IsClean name) : stripped name.toList = name.toList :=
  List.filter_eq_self.2 fun c hc => by simpa using h.unbracketed c hc

/-- What is left of a literal is made of clean words. -/
theorem isClean_of_mem_words {literal : List Char}
    (h : name.toList ∈ words (stripped literal)) : IsClean name := by
  refine ⟨isWord_of_mem_words h, ?_⟩
  intro c hc
  simpa using (List.mem_filter.1 (mem_of_mem_words h hc)).2

theorem Names.isClean (h : Names name key) : IsClean name := by
  cases h with
  | variableName => exact isClean_of_all (by decide) (by decide)
  | variableValue => exact isClean_of_all (by decide) (by decide)
  | custom hname => exact hname

/-- The grammar gives a name the key that the reader gives it. -/
theorem Names.keyOf_eq (h : Names name key) : keyOf name = key := by
  cases h with
  | variableName => rfl
  | variableValue => rfl
  | custom _ hkey hvalue => rw [keyOf, if_neg hvalue, if_neg hkey]

theorem IsClean.names_keyOf (h : IsClean name) : Names name (keyOf name) := by
  unfold keyOf
  split_ifs with hvalue hkey
  · exact hvalue ▸ .variableValue
  · exact hkey ▸ .variableName
  · exact .custom h hkey hvalue

/-- Two words are read as an assignment, the first one as the name of a key. -/
theorem assignment?_of_words
    (h : words (stripped literal.toList) = [name.toList, value.toList]) :
    assignment? literal = some (keyOf name, value) := by
  unfold stripped at h
  rw [assignment?, h]
  simp only [String.ofList_toList]

/-- Nothing but two words is read as an assignment. -/
theorem exists_words_of_assignment? {a : Key × String} (h : assignment? literal = some a) :
    ∃ name, words (stripped literal.toList) = [name.toList, a.2.toList] ∧ keyOf name = a.1 := by
  unfold assignment? at h
  split at h
  · next name value hwords =>
    rcases Option.some.inj h with rfl
    refine ⟨.ofList name, ?_, rfl⟩
    rw [String.toList_ofList, String.toList_ofList]
    exact hwords
  · cases h

/-- A literal sets what its two words say. -/
theorem assignment?_eq_some_iff : assignment? literal = some (key, value) ↔
    ∃ name, InTwo (stripped literal.toList) name.toList value.toList ∧ Names name key := by
  simp only [← words_eq_pair_iff]
  constructor
  · intro h
    obtain ⟨name, hwords, rfl⟩ := exists_words_of_assignment? h
    have hname : IsClean name := isClean_of_mem_words (hwords ▸ List.mem_cons_self)
    exact ⟨name, hwords, hname.names_keyOf⟩
  · rintro ⟨name, hwords, hnames⟩
    rw [assignment?_of_words hwords, hnames.keyOf_eq]

/-- An assignment is read exactly where two words are left without the brackets. -/
theorem isSome_assignment?_iff : (assignment? literal).isSome ↔
    ∃ name value : String, InTwo (stripped literal.toList) name.toList value.toList := by
  simp only [← words_eq_pair_iff]
  constructor
  · intro h
    obtain ⟨a, ha⟩ := Option.isSome_iff_exists.1 h
    obtain ⟨name, hwords, -⟩ := exists_words_of_assignment? ha
    exact ⟨name, a.2, hwords⟩
  · rintro ⟨name, value, hwords⟩
    rw [assignment?_of_words hwords]
    rfl

/-! ## What is read of what is written -/

/-- The usual form has its name and its value as its two words. -/
theorem words_stripped_usualForm (hname : IsClean name) (hvalue : IsClean value) :
    words (stripped (usualForm name value)) = [name.toList, value.toList] := by
  have hend : stripped ['/', '>'] = [] := by decide
  rw [usualForm, stripped_cons_bracket (by decide), stripped_append,
    stripped_cons_blank (by decide), stripped_append, hend, List.append_nil, hname.stripped_eq,
    hvalue.stripped_eq, words_append_cons (by decide), hname.word.words_eq, hvalue.word.words_eq]
  rfl

/-- What is put in leaves the two words as they are. -/
theorem words_stripped_padded (hname : IsClean name) (hvalue : IsClean value) {literal : List Char}
    (h : Padded name value literal) :
    words (stripped literal) = [name.toList, value.toList] := by
  induction h with
  | usual => exact words_stripped_usualForm hname hvalue
  | bracket _ hc ih => rwa [stripped_append, stripped_cons_bracket hc, ← stripped_append]
  | blank _ hc hcut ih =>
    rw [CutsNoWord, Option.all_eq_true, Option.all_eq_true] at hcut
    rwa [stripped_append, stripped_cons_blank hc, words_insert_blank hc hcut, ← stripped_append]

theorem assignment?_of_padded (hnames : Names name key) (hvalue : IsClean value)
    (h : Padded name value literal.toList) : assignment? literal = some (key, value) := by
  rw [assignment?_of_words (words_stripped_padded hnames.isClean hvalue h), hnames.keyOf_eq]

theorem isClean_of_assignment? (h : assignment? literal = some (key, value)) : IsClean value := by
  obtain ⟨name, hwords, -⟩ := exists_words_of_assignment? h
  exact isClean_of_mem_words (hwords ▸ List.mem_cons_of_mem _ List.mem_cons_self)

/-- Raw markup is read by its grammar. A literal sets something exactly if two words are left of
it, and then it sets what they say, a clean value for a key that has a clean name. What is written
in the usual form is read back, whatever brackets and blanks are put in, so what was read can be
written and read again. -/
theorem assignment?_reads_grammar :
    (∀ literal : String, (assignment? literal).isSome ↔
      ∃ name value : String, InTwo (stripped literal.toList) name.toList value.toList) ∧
    (∀ (literal value : String) (key : Key), assignment? literal = some (key, value) →
      IsClean value ∧ ∃ name, Names name key ∧
        InTwo (stripped literal.toList) name.toList value.toList ∧
        assignment? (.ofList (usualForm name value)) = some (key, value)) ∧
    ∀ (literal name value : String) (key : Key), Names name key → IsClean value →
      Padded name value literal.toList → assignment? literal = some (key, value) := by
  refine ⟨fun _ => isSome_assignment?_iff, ?_, fun _ _ _ _ => assignment?_of_padded⟩
  intro literal value key h
  have hvalue : IsClean value := isClean_of_assignment? h
  obtain ⟨name, htwo, hnames⟩ := assignment?_eq_some_iff.1 h
  -- the usual form is one of the padded ones
  have hform : Padded name value (String.ofList (usualForm name value)).toList := by
    rw [String.toList_ofList]
    exact .usual
  exact ⟨hvalue, name, hnames, htwo, assignment?_of_padded hnames hvalue hform⟩

/-- A bracket inside the name, and blanks of other kinds between the words and behind them. -/
theorem colour_reads_grammar :
    Names "colour" (.custom "colour") ∧ IsClean "red" ∧
      Padded "colour" "red" "<col>our \u3000red/>\u2029".toList ∧
      assignment? "<col>our \u3000red/>\u2029" = some (.custom "colour", "red") := by
  have hcolour : IsClean "colour" := isClean_of_all (by decide) (by decide)
  have hnames : Names "colour" (.custom "colour") := .custom hcolour (by decide) (by decide)
  have hred : IsClean "red" := isClean_of_all (by decide) (by decide)
  have hbracket : Padded "colour" "red" ("<col".toList ++ '>' :: "our red/>".toList) :=
    .bracket .usual (by decide)
  have hbetween : Padded "colour" "red" ("<col>our ".toList ++ '\u3000' :: "red/>".toList) :=
    .blank hbracket (by decide) (.inl (by decide))
  have hbehind : Padded "colour" "red" ("<col>our \u3000red/>".toList ++ '\u2029' :: "".toList) :=
    .blank hbetween (by decide) (.inr (by decide))
  exact ⟨hnames, hred, hbehind, assignment?_reads_grammar.2.2 _ _ _ _ hnames hred hbehind⟩

end StyledText.Markdown.RawMarkup
