import Mathlib.Data.List.Induction
import Mathlib.Data.List.Shortlex
import StyledText.Markdown.List.Numeral

/-!
# Numbers in letters

Letters count in base 26 without a zero: `a` is worth 1 and `z` is worth 26, so `z` is followed by
`aa`, and each row of letters is the form of one number.

* `lettersValue_letters` and `letters_lettersValue`: writing and reading undo each other.
* `shortlex_letters`: a greater number comes later, by length and then by alphabet.
* `alphabetic_countsInLetters` says so for whole numerals.
-/

namespace StyledText.Markdown.Numeral

/-- The letters that numbers are written in. -/
def IsLetter (c : Char) : Prop := 'a' ≤ c ∧ c ≤ 'z'

instance : DecidablePred IsLetter := fun c => inferInstanceAs (Decidable ('a' ≤ c ∧ c ≤ 'z'))

/-- What a letter is worth in the last place, 1 for `a` and 26 for `z`. -/
def letterValue (c : Char) : Nat := c.toNat - 'a'.toNat + 1

/-- The value of letters in a row. A place is worth 26 times as much as the one behind it. -/
def lettersValue (s : List Char) : Nat := s.foldl (fun value c => value * 26 + letterValue c) 0

/-! ## Single letters -/

/-- Each digit has a letter. -/
theorem isLetter_letter {digit : Nat} (h : digit < 26) : IsLetter (letter digit) := by
  have hall : ∀ digit < 26, 'a' ≤ letter digit ∧ letter digit ≤ 'z' := by decide
  exact hall digit h

/-- The letters count from one. -/
theorem letterValue_letter {digit : Nat} (h : digit < 26) :
    letterValue (letter digit) = digit + 1 := by
  have hall : ∀ digit < 26, letterValue (letter digit) = digit + 1 := by decide
  exact hall digit h

/-- Letters are in the order of their digits. -/
theorem letter_lt_letter {a b : Nat} (hab : a < b) (hb : b < 26) : letter a < letter b := by
  have hall : ∀ b < 26, ∀ a < b, letter a < letter b := by decide
  exact hall b hb a hab

/-- A letter is that of some digit. -/
theorem IsLetter.exists_digit {c : Char} (h : IsLetter c) : ∃ digit < 26, letter digit = c := by
  obtain ⟨hlow, hhigh⟩ := h
  have hlow : 97 ≤ c.toNat := hlow
  have hhigh : c.toNat ≤ 122 := hhigh
  refine ⟨c.toNat - 97, by omega, ?_⟩
  have hcode : 'a'.toNat + (c.toNat - 97) = c.toNat := by
    have ha : 'a'.toNat = 97 := rfl
    omega
  rw [letter, hcode, Char.ofNat_toNat]

/-! ## Letters in a row -/

@[simp] theorem letters_zero : letters 0 = [] := by
  rw [letters, if_pos rfl]

/-- The last letter, and the number that the letters before it stand for. -/
theorem letters_of_pos {n : Nat} (h : 0 < n) :
    letters n = letters ((n - 1) / 26) ++ [letter ((n - 1) % 26)] := by
  rw [letters, if_neg (Nat.ne_of_gt h)]

/-- The last letter counts one for one, all others 26 times. -/
theorem lettersValue_concat (s : List Char) (c : Char) :
    lettersValue (s ++ [c]) = lettersValue s * 26 + letterValue c := by
  simp [lettersValue]

/-- Every number but zero has letters. -/
theorem letters_ne_nil {n : Nat} (h : 0 < n) : letters n ≠ [] := by
  rw [letters_of_pos h]
  exact List.concat_ne_nil _ _

/-- Only letters are written. -/
theorem isLetter_of_mem_letters {n : Nat} {c : Char} (h : c ∈ letters n) : IsLetter c := by
  induction n using letters.induct with
  | case1 => simp at h
  | case2 n hn ih =>
    rw [letters_of_pos (Nat.pos_of_ne_zero hn), List.mem_append, List.mem_singleton] at h
    rcases h with h | rfl
    · exact ih h
    · exact isLetter_letter (Nat.mod_lt _ (by decide))

/-- Reading undoes writing. -/
theorem lettersValue_letters (n : Nat) : lettersValue (letters n) = n := by
  induction n using letters.induct with
  | case1 => simp [lettersValue]
  | case2 n hn ih =>
    have hlast := letterValue_letter (Nat.mod_lt (n - 1) (by decide : 0 < 26))
    rw [letters_of_pos (Nat.pos_of_ne_zero hn), lettersValue_concat, ih, hlast]
    omega

/-- Writing undoes reading. -/
theorem letters_lettersValue {s : List Char} (h : ∀ c ∈ s, IsLetter c) :
    letters (lettersValue s) = s := by
  induction s using List.reverseRecOn with
  | nil => exact letters_zero
  | append_singleton s c ih =>
    have hs : letters (lettersValue s) = s := ih fun c hc => h c (List.mem_append_left _ hc)
    obtain ⟨digit, hdigit, rfl⟩ := (h c (by simp)).exists_digit
    have hvalue := letterValue_letter hdigit
    -- The last letter is worth 1 to 26, so it never carries into the place before it.
    have hbefore : (lettersValue s * 26 + (digit + 1) - 1) / 26 = lettersValue s := by omega
    have hlast : (lettersValue s * 26 + (digit + 1) - 1) % 26 = digit := by omega
    rw [lettersValue_concat, hvalue, letters_of_pos (by omega), hbefore, hlast, hs]

/-! ## Order -/

/-- Words of one length stay in order when each gets one more letter. -/
theorem lex_concat {s t : List Char} (a b : Char) (h : List.Lex (· < ·) s t)
    (hlength : s.length = t.length) : List.Lex (· < ·) (s ++ [a]) (t ++ [b]) := by
  induction h with
  | nil => simp at hlength
  | cons _ ih => exact .cons (ih (Nat.succ.inj hlength))
  | rel hlt => exact .rel hlt

/-- One more letter at the end keeps the order. -/
theorem shortlex_concat {s t : List Char} (a b : Char) (h : List.Shortlex (· < ·) s t) :
    List.Shortlex (· < ·) (s ++ [a]) (t ++ [b]) := by
  rcases List.shortlex_def.1 h with hshorter | ⟨hlength, hlex⟩
  · exact .of_length_lt (by simpa using hshorter)
  · exact .of_lex (by simpa using hlength) (lex_concat a b hlex hlength)

/-- A greater number comes later. -/
theorem shortlex_letters {m n : Nat} (h : m < n) :
    List.Shortlex (· < ·) (letters m) (letters n) := by
  induction n using letters.induct generalizing m with
  | case1 => omega
  | case2 n hn ih =>
    have hn : 0 < n := Nat.pos_of_ne_zero hn
    rcases Nat.eq_zero_or_pos m with rfl | hm
    · rw [letters_zero]
      exact .of_length_lt (List.length_pos_iff.2 (letters_ne_nil hn))
    · rw [letters_of_pos hm, letters_of_pos hn]
      -- Either the numbers before the last letter differ, or the last letters do.
      rcases Nat.lt_or_ge ((m - 1) / 26) ((n - 1) / 26) with hlt | hge
      · exact shortlex_concat _ _ (ih hlt)
      · have hsame : (m - 1) / 26 = (n - 1) / 26 := by omega
        have hlast : letter ((m - 1) % 26) < letter ((n - 1) % 26) :=
          letter_lt_letter (by omega) (Nat.mod_lt _ (by decide))
        rw [hsame]
        exact .append_left ((List.shortlex_singleton_iff _ _).2 hlast) _

/-! ## Numerals -/

/-- Every number but zero is written in letters. -/
theorem toList_alphabetic {n : Nat} (h : 0 < n) : (alphabetic n).toList = letters n := by
  rw [alphabetic, if_neg (Nat.ne_of_gt h), String.toList_ofList]

/-- Zero is written with what is no letter, so all numbers are told apart. -/
theorem alphabetic_injective : Function.Injective alphabetic := by
  have hzero : ∀ n, 0 < n → alphabetic n ≠ alphabetic 0 := by
    intro n hn heq
    have hmem : '0' ∈ letters n := by
      rw [← toList_alphabetic hn, heq]
      decide
    have hletter := isLetter_of_mem_letters hmem
    exact absurd hletter.1 (by decide)
  intro m n heq
  -- zero is a digit, all others have a value to be read back
  rcases Nat.eq_zero_or_pos m with rfl | hm
  · rcases Nat.eq_zero_or_pos n with rfl | hn
    · rfl
    · exact absurd heq.symm (hzero n hn)
  · rcases Nat.eq_zero_or_pos n with rfl | hn
    · exact absurd heq (hzero m hm)
    · have hletters := congrArg String.toList heq
      rw [toList_alphabetic hm, toList_alphabetic hn] at hletters
      rw [← lettersValue_letters m, hletters, lettersValue_letters]

/-- What it is to count in letters. -/
structure CountsInLetters (numeral : Nat → String) : Prop where
  /-- A number from 1 on is written in letters, and they have its value. -/
  writes : ∀ n, 1 ≤ n → numeral n ≠ "" ∧ (∀ c ∈ (numeral n).toList, IsLetter c) ∧
    lettersValue (numeral n).toList = n
  /-- Letters in a row are the numeral of their value, and of no other number. -/
  exhausts : ∀ s : String, s ≠ "" → (∀ c ∈ s.toList, IsLetter c) →
    ∀ n, numeral n = s ↔ n = lettersValue s.toList
  /-- Numerals are sorted by length and then by alphabet. -/
  sorts : ∀ m n, 1 ≤ m → m < n →
    List.Shortlex (· < ·) (numeral m).toList (numeral n).toList

/-- The numerals in letters are a bijective counting in base 26, in order. -/
theorem alphabetic_countsInLetters : CountsInLetters alphabetic := by
  refine ⟨?_, ?_, ?_⟩
  · intro n hn
    have hne : alphabetic n ≠ "" := by
      intro hempty
      have hnil : letters n = [] := by rw [← toList_alphabetic hn, hempty, String.toList_empty]
      exact letters_ne_nil hn hnil
    rw [toList_alphabetic hn]
    exact ⟨hne, fun c => isLetter_of_mem_letters, lettersValue_letters n⟩
  · intro s hne hs n
    have hletters : letters (lettersValue s.toList) = s.toList := letters_lettersValue hs
    have hpos : 0 < lettersValue s.toList := by
      refine Nat.pos_of_ne_zero fun hzero => hne ?_
      rw [hzero, letters_zero] at hletters
      exact String.toList_eq_nil_iff.1 hletters.symm
    have hwritten : alphabetic (lettersValue s.toList) = s := by
      rw [← String.toList_inj, toList_alphabetic hpos, hletters]
    constructor
    · intro h
      exact alphabetic_injective (h.trans hwritten.symm)
    · rintro rfl
      exact hwritten
  · intro m n hm hlt
    rw [toList_alphabetic hm, toList_alphabetic (Nat.lt_trans hm hlt)]
    exact shortlex_letters hlt

/-- After `zz` comes `aaa`, and the greatest number of 64 bits has fourteen letters. -/
theorem carry_countsInLetters : alphabetic 702 = "zz" ∧ alphabetic 703 = "aaa" ∧
    List.Shortlex (· < ·) (alphabetic 702).toList (alphabetic 703).toList ∧
    alphabetic (2 ^ 64 - 1) = "gkgwbylwrxtlpo" := by
  have hwritten : ∀ s : String, s ≠ "" → s.toList.all (IsLetter ·) →
      alphabetic (lettersValue s.toList) = s := by
    intro s hne hs
    simp only [List.all_eq_true, decide_eq_true_eq] at hs
    exact (alphabetic_countsInLetters.exhausts s hne hs _).2 rfl
  exact ⟨hwritten "zz" (by decide) (by decide), hwritten "aaa" (by decide) (by decide),
    alphabetic_countsInLetters.sorts 702 703 (by decide) (by decide),
    hwritten "gkgwbylwrxtlpo" (by decide) (by decide)⟩

end StyledText.Markdown.Numeral
