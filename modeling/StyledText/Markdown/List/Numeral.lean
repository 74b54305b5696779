/-!
# Numerals

Letters and Roman numerals for counting list items.

* `alphabetic` is bijective base 26: `a` to `z`, `aa`, `ab`, and so on.
* `roman` is the usual additive and subtractive form in lower case, with as many `m` as needed.
* Both write `0` for zero, which they have no other form for.
-/

namespace StyledText.Markdown.Numeral

/-! ## Letters -/

/-- The letter for a digit, `a` for zero. -/
def letter (digit : Nat) : Char := Char.ofNat ('a'.toNat + digit)

/-- The letters of a number, nothing for zero. -/
def letters (n : Nat) : List Char :=
  if n = 0 then []
  else letters ((n - 1) / 26) ++ [letter ((n - 1) % 26)]
termination_by n
decreasing_by omega

def alphabetic (n : Nat) : String := if n = 0 then "0" else .ofList (letters n)

/-! ## Roman numerals -/

/-- The numerals and the numerals one step below them, largest first. -/
def romanSteps : List (Nat × List Char) :=
  [(1000, ['m']), (900, ['c', 'm']), (500, ['d']), (400, ['c', 'd']), (100, ['c']),
    (90, ['x', 'c']), (50, ['l']), (40, ['x', 'l']), (10, ['x']), (9, ['i', 'x']), (5, ['v']),
    (4, ['i', 'v']), (1, ['i'])]

/-- Writes the digits of a step and takes its value away, as long as the number is not below it.
Gives what is written and what is left of the number. No step has the value zero. -/
def writeStep (value : Nat) (digits : List Char) (n : Nat) : List Char × Nat :=
  if 0 < value ∧ value ≤ n then
    let later := writeStep value digits (n - value)
    (digits ++ later.1, later.2)
  else ([], n)
termination_by n
decreasing_by omega

/-- Writes one step after the other, each from what those before it have left. -/
def romanDigits : List (Nat × List Char) → Nat → List Char
  | [], _ => []
  | (value, digits) :: smaller, n =>
    let written := writeStep value digits n
    written.1 ++ romanDigits smaller written.2

/-- A step is written as often as its value fits into the number, and leaves the remainder. -/
theorem writeStep_eq (value : Nat) (digits : List Char) (n : Nat) :
    writeStep value digits n = ((List.replicate (n / value) digits).flatten, n % value) := by
  fun_induction writeStep value digits n with
  | case1 n h later ih =>
    obtain ⟨hpos, hle⟩ := h
    rw [show later = _ from ih, Nat.div_eq_sub_div hpos hle, Nat.mod_eq_sub_mod hle,
      List.replicate_succ, List.flatten_cons]
  | case2 n h =>
    -- the value does not fit, or is zero, by which a division gives zero
    have hdiv : n / value = 0 := by
      rw [Nat.div_eq_zero_iff]
      omega
    have hmod : n % value = n := by
      rcases Nat.eq_zero_or_pos value with rfl | hpos
      · exact Nat.mod_zero n
      · exact Nat.mod_eq_of_lt (by omega)
    rw [hdiv, hmod, List.replicate_zero, List.flatten_nil]

theorem romanDigits_cons (value : Nat) (digits : List Char) (smaller : List (Nat × List Char))
    (n : Nat) : romanDigits ((value, digits) :: smaller) n =
      (List.replicate (n / value) digits).flatten ++ romanDigits smaller (n % value) := by
  rw [romanDigits, writeStep_eq]

def roman (n : Nat) : String := if n = 0 then "0" else .ofList (romanDigits romanSteps n)

end StyledText.Markdown.Numeral
