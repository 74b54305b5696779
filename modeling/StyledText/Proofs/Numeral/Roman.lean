import Mathlib.Data.List.Chain
import Mathlib.Tactic.IntervalCases
import StyledText.Markdown.List.Numeral

/-!
# Roman numerals

The thirteen steps of a Roman numeral are the thousands and three decimal places, each with four
steps for nine, five, four and one of its units. So a numeral is as many `m` as there are thousands
and one digit for each place behind them.

* `romanDigits_place`: the steps of a place write its digit and leave what is behind it.
* `romanDigits_romanSteps`: so the numeral has the canonical form.
* `readRoman_digit_append`: the digit of a place is read by itself, as what follows it starts with a
  smaller letter.
* `isWellFormed_thousands`: the rules for repeated letters and for smaller letters before larger
  ones.
* `roman_isRomanNumeral` puts these together.
-/

namespace StyledText.Markdown.Numeral

/-! ## Reading -/

def romanValue : Char → Nat
  | 'i' => 1
  | 'v' => 5
  | 'x' => 10
  | 'l' => 50
  | 'c' => 100
  | 'd' => 500
  | 'm' => 1000
  | _ => 0

/-- The value of letters in a row. A letter before a larger one counts negative. -/
def readRoman : List Char → Int
  | [] => 0
  | c :: rest =>
    let value : Int := romanValue c
    (if romanValue c < romanValue (rest.headD c) then -value else value) + readRoman rest

/-- Whether no larger letter than one of the given value comes first. -/
def HeadAtMost (bound : Nat) (s : List Char) : Prop := ∀ c ∈ s.head?, romanValue c ≤ bound

/-- Smaller letters that may stand before larger ones. -/
def subtractivePairs : List (Char × Char) :=
  [('c', 'm'), ('x', 'c'), ('i', 'x'), ('c', 'd'), ('x', 'l'), ('i', 'v')]

/-- Whether one letter may stand before another. -/
def MayPrecede (a b : Char) : Prop := romanValue a < romanValue b → (a, b) ∈ subtractivePairs

instance : DecidableRel MayPrecede := fun a b => by
  unfold MayPrecede
  infer_instance

/-- The rules for numerals below a thousand, and for as many `m` as needed before them. -/
structure IsWellFormed (s : List Char) : Prop where
  letters : ∀ c ∈ s, c ∈ ['i', 'v', 'x', 'l', 'c', 'd', 'm']
  ones : ∀ c ∈ ['i', 'x', 'c'], ¬ List.replicate 4 c <:+: s
  fives : ∀ c ∈ ['v', 'l', 'd'], s.count c ≤ 1
  pairs : s.IsChain MayPrecede

/-- A letter before none greater is added. -/
theorem readRoman_cons {c : Char} {rest : List Char} (h : HeadAtMost (romanValue c) rest) :
    readRoman (c :: rest) = romanValue c + readRoman rest := by
  cases rest with
  | nil => simp [readRoman]
  | cons d rest =>
    have hle : romanValue d ≤ romanValue c := h d rfl
    rw [readRoman, List.headD_cons, if_neg (Nat.not_lt.2 hle)]

/-- A letter before a greater one is taken away. -/
theorem readRoman_cons_cons {c d : Char} (h : romanValue c < romanValue d) (rest : List Char) :
    readRoman (c :: d :: rest) = -(romanValue c : Int) + readRoman (d :: rest) := by
  rw [readRoman, List.headD_cons, if_pos h]

/-- A greater bound on the first letter holds too. -/
theorem HeadAtMost.mono {a b : Nat} {s : List Char} (h : HeadAtMost a s) (hab : a ≤ b) :
    HeadAtMost b s :=
  fun c hc => Nat.le_trans (h c hc) hab

theorem headAtMost_nil (bound : Nat) : HeadAtMost bound [] := by
  simp [HeadAtMost]

/-- In front of what starts with no greater letter, a letter may be repeated. -/
theorem HeadAtMost.replicate_append {c : Char} {rest : List Char}
    (h : HeadAtMost (romanValue c) rest) (k : Nat) :
    HeadAtMost (romanValue c) (List.replicate k c ++ rest) := by
  cases k with
  | zero => exact h
  | succ k =>
    intro d hd
    rcases Option.some.inj hd with rfl
    exact Nat.le_refl _

/-- Equal letters add up, if no larger one follows them. -/
theorem readRoman_replicate_append {c : Char} {rest : List Char}
    (h : HeadAtMost (romanValue c) rest) (k : Nat) :
    readRoman (List.replicate k c ++ rest) = k * romanValue c + readRoman rest := by
  induction k with
  | zero => simp
  | succ k ih =>
    rw [List.replicate_succ, List.cons_append, readRoman_cons (h.replicate_append k), ih,
      Int.natCast_succ, Int.add_mul]
    omega

/-! ## Places -/

/-- The letters of a decimal place, for one, five and ten of its units. -/
structure Place where
  one : Char
  five : Char
  ten : Char
  one_pos : 0 < romanValue one
  five_eq : romanValue five = 5 * romanValue one
  ten_eq : romanValue ten = 10 * romanValue one

namespace Place

def hundreds : Place := ⟨'c', 'd', 'm', by decide, by decide, by decide⟩

def tens : Place := ⟨'x', 'l', 'c', by decide, by decide, by decide⟩

def units : Place := ⟨'i', 'v', 'x', by decide, by decide, by decide⟩

/-- What the place counts. -/
def unit (p : Place) : Nat := romanValue p.one

def digit (p : Place) : Nat → List Char
  | 1 => [p.one]
  | 2 => [p.one, p.one]
  | 3 => [p.one, p.one, p.one]
  | 4 => [p.one, p.five]
  | 5 => [p.five]
  | 6 => [p.five, p.one]
  | 7 => [p.five, p.one, p.one]
  | 8 => [p.five, p.one, p.one, p.one]
  | 9 => [p.one, p.ten]
  | _ => []

/-- The steps in which a digit is written. -/
def digitSteps (p : Place) : List (Nat × List Char) :=
  [(9, [p.one, p.ten]), (5, [p.five]), (4, [p.one, p.five]), (1, [p.one])]

/-- The steps for the units of the place. -/
def steps (p : Place) : List (Nat × List Char) :=
  p.digitSteps.map (Prod.map (p.unit * ·) id)

end Place

/-- The usual form of a number below a thousand. -/
def canonical (n : Nat) : List Char :=
  Place.hundreds.digit (n / 100) ++
    (Place.tens.digit (n / 10 % 10) ++ Place.units.digit (n % 10))

/-! ## Writing -/

/-- Steps that end with one write how many units there are, and leave the part of a unit. -/
theorem romanDigits_scaled (unit : Nat) (steps : List (Nat × List Char)) (one : List Char)
    (smaller : List (Nat × List Char)) (n : Nat) :
    romanDigits ((steps ++ [(1, one)]).map (Prod.map (unit * ·) id) ++ smaller) n =
      romanDigits (steps ++ [(1, one)]) (n / unit) ++ romanDigits smaller (n % unit) := by
  -- What is left after a scaled step is a multiple of the unit and what is below it.
  induction steps generalizing n with
  | nil => simp [romanDigits_cons, romanDigits]
  | cons step steps ih =>
    obtain ⟨value, digits⟩ := step
    simp only [List.cons_append, List.map_cons, Prod.map_apply, id_eq, romanDigits_cons]
    rw [ih, Nat.mod_mul_right_div_self, Nat.mod_mul_right_mod, Nat.div_div_eq_div_mul,
      List.append_assoc]

/-- The steps of a place write its digit. -/
theorem romanDigits_digitSteps (p : Place) {d : Nat} (h : d < 10) :
    romanDigits p.digitSteps d = p.digit d := by
  simp only [Place.digitSteps, romanDigits_cons]
  interval_cases d <;> rfl

/-- The steps of a place write its digit and leave what is behind it. -/
theorem romanDigits_place (p : Place) (smaller : List (Nat × List Char)) {n : Nat}
    (h : n / p.unit < 10) : romanDigits (p.steps ++ smaller) n =
      p.digit (n / p.unit) ++ romanDigits smaller (n % p.unit) := by
  rw [← romanDigits_digitSteps p h]
  exact romanDigits_scaled p.unit [(9, [p.one, p.ten]), (5, [p.five]), (4, [p.one, p.five])]
    [p.one] smaller n

/-- The table goes through the places one by one, each with the same steps. -/
theorem romanSteps_eq : romanSteps = (1000, ['m']) ::
    (Place.hundreds.steps ++ (Place.tens.steps ++ (Place.units.steps ++ []))) := rfl

/-- A numeral is as many `m` as there are thousands, and the usual form of the rest. -/
theorem romanDigits_romanSteps (n : Nat) :
    romanDigits romanSteps n = List.replicate (n / 1000) 'm' ++ canonical (n % 1000) := by
  have hhundreds : Place.hundreds.unit = 100 := rfl
  have htens : Place.tens.unit = 10 := rfl
  have hunits : Place.units.unit = 1 := rfl
  have htensDigit : n % 1000 % 100 / 10 = n % 1000 / 10 % 10 := by omega
  have hunitsDigit : n % 1000 % 100 % 10 / 1 = n % 1000 % 10 := by omega
  rw [romanSteps_eq, romanDigits_cons, romanDigits_place _ _ (by rw [hhundreds]; omega),
    romanDigits_place _ _ (by rw [hhundreds, htens]; omega),
    romanDigits_place _ _ (by rw [hhundreds, htens, hunits]; omega)]
  rw [hhundreds, htens, hunits, htensDigit, hunitsDigit, romanDigits, List.append_nil,
    List.flatten_replicate_singleton]
  rfl

/-! ## The value -/

namespace Place

variable {p : Place} {d : Nat} {rest : List Char}

/-- A digit starts with its five at most, nine and four with its one. -/
theorem headAtMost_digit_append (h : HeadAtMost (5 * p.unit) rest) :
    HeadAtMost (5 * p.unit) (p.digit d ++ rest) := by
  have hone : romanValue p.one ≤ 5 * p.unit := by unfold unit; omega
  have hfive : romanValue p.five ≤ 5 * p.unit := Nat.le_of_eq p.five_eq
  unfold digit
  split <;> simpa [HeadAtMost]

/-- What follows the digit starts with a smaller letter, so the digit is read by itself. -/
theorem readRoman_digit_append (hd : d < 10) (h : HeadAtMost p.unit rest) :
    readRoman (p.digit d ++ rest) = d * p.unit + readRoman rest := by
  have hpos : 0 < p.unit := p.one_pos
  have hfive : romanValue p.five = 5 * p.unit := p.five_eq
  have hten : romanValue p.ten = 10 * p.unit := p.ten_eq
  have hones : ∀ k : Nat, readRoman (List.replicate k p.one ++ rest) =
      k * p.unit + readRoman rest := readRoman_replicate_append h
  have hfives : ∀ k : Nat, readRoman (p.five :: (List.replicate k p.one ++ rest)) =
      (5 + k : Nat) * p.unit + readRoman rest := by
    intro k
    have hle : p.unit ≤ romanValue p.five := by omega
    rw [readRoman_cons ((HeadAtMost.replicate_append h k).mono hle), hones, hfive,
      Int.natCast_add, Int.add_mul]
    omega
  -- a four and a nine have their one in front
  have hless : ∀ c, p.unit < romanValue c →
      readRoman (p.one :: c :: rest) = romanValue c - p.unit + readRoman rest := by
    intro c hc
    rw [readRoman_cons_cons hc, readRoman_cons (h.mono (Nat.le_of_lt hc))]
    unfold unit
    omega
  interval_cases d
  · exact hones 0
  · exact hones 1
  · exact hones 2
  · exact hones 3
  · refine (hless p.five (by omega)).trans ?_
    omega
  · exact hfives 0
  · exact hfives 1
  · exact hfives 2
  · exact hfives 3
  · refine (hless p.ten (by omega)).trans ?_
    omega

end Place

/-- What stands in the units place starts with `v` at most. -/
theorem headAtMost_units (d : Nat) : HeadAtMost 5 (Place.units.digit d) := by
  rw [← List.append_nil (Place.units.digit d)]
  exact Place.headAtMost_digit_append (p := .units) (headAtMost_nil _)

/-- What stands behind the hundreds starts with `l` at most. -/
theorem headAtMost_tens (d e : Nat) :
    HeadAtMost 50 (Place.tens.digit d ++ Place.units.digit e) :=
  Place.headAtMost_digit_append (p := .tens) ((headAtMost_units e).mono (by decide))

/-- What stands behind the thousands starts with `d` at most. -/
theorem headAtMost_canonical (n : Nat) : HeadAtMost 500 (canonical n) :=
  Place.headAtMost_digit_append (p := .hundreds) ((headAtMost_tens _ _).mono (by decide))

/-- Reading undoes writing below a thousand. -/
theorem readRoman_canonical {n : Nat} (h : n < 1000) : readRoman (canonical n) = n := by
  have hunits : readRoman (Place.units.digit (n % 10)) = (n % 10 : Nat) := by
    simpa [readRoman, Place.unit, Place.units, romanValue] using
      Place.readRoman_digit_append (p := .units) (Nat.mod_lt n (by decide)) (headAtMost_nil _)
  have htens := Place.readRoman_digit_append (p := .tens) (d := n / 10 % 10)
    (Nat.mod_lt _ (by decide)) ((headAtMost_units (n % 10)).mono (by decide))
  have hhundreds := Place.readRoman_digit_append (p := .hundreds) (d := n / 100) (by omega)
    ((headAtMost_tens (n / 10 % 10) (n % 10)).mono (by decide))
  have hten : Place.tens.unit = 10 := rfl
  have hhundred : Place.hundreds.unit = 100 := rfl
  rw [canonical, hhundreds, htens, hunits, hten, hhundred]
  omega

/-! ## The rules -/

/-- Equal letters in a row come from one side, if the other side starts with another one. -/
theorem infix_of_replicate_infix_append {c : Char} {k : Nat} {s t : List Char}
    (hhead : c ∉ t.head?) (h : List.replicate k c <:+: s ++ t) :
    List.replicate k c <:+: s ∨ List.replicate k c <:+: t := by
  obtain ⟨before, after, hsplit⟩ := h
  rcases List.append_eq_append_iff.1 hsplit with ⟨rest, hs, -⟩ | ⟨rest, hs, ht⟩
  · exact .inl ⟨before, rest, hs.symm⟩
  · rcases List.append_eq_append_iff.1 hs with ⟨left, hleft, hright⟩ | ⟨left, hleft, hright⟩
    · -- the letters are cut: what is right of the cut would start with one of them
      cases rest with
      | nil =>
        rw [List.append_nil] at hright
        exact .inl ⟨before, [], by rw [hright, List.append_nil, hleft]⟩
      | cons d rest =>
        have hd : d ∈ List.replicate k c := by
          rw [hright]
          simp
        rw [List.eq_of_mem_replicate hd] at ht
        exact absurd (by rw [ht]; rfl) hhead
    · exact .inr ⟨left, after, by rw [ht, hright]⟩

/-- A letter that stands `k` times in a row is there `k` times at least. -/
theorem le_count_of_infix_replicate {c : Char} {k : Nat} {s : List Char}
    (h : List.replicate k c <:+: s) : k ≤ s.count c := by
  have hle := h.sublist.count_le c
  rwa [List.count_replicate_self] at hle

namespace Place

variable {p : Place} {d : Nat} {c : Char}

/-- One and five have different letters. -/
theorem one_ne_five (p : Place) : p.one ≠ p.five := by
  intro h
  have hpos := p.one_pos
  have hfive := p.five_eq
  rw [← h] at hfive
  omega

/-- One and ten have different letters. -/
theorem one_ne_ten (p : Place) : p.one ≠ p.ten := by
  intro h
  have hpos := p.one_pos
  have hten := p.ten_eq
  rw [← h] at hten
  omega

/-- A digit has three letters to be written with. -/
theorem mem_digit (h : c ∈ p.digit d) : c = p.one ∨ c = p.five ∨ c = p.ten := by
  unfold digit at h
  split at h <;> simp at h <;> tauto

/-- All letters of a digit are worth its unit or more. -/
theorem unit_le_of_mem_digit (h : c ∈ p.digit d) : p.unit ≤ romanValue c := by
  have hfive := p.five_eq
  have hten := p.ten_eq
  unfold unit
  rcases mem_digit h with rfl | rfl | rfl <;> omega

/-- How often a letter is in a digit at most. -/
def most (p : Place) (c : Char) : Nat :=
  if c = p.one then 3 else if c = p.five ∨ c = p.ten then 1 else 0

/-- `most` bounds how often a letter is in a digit. -/
theorem count_digit_le (p : Place) (d : Nat) (c : Char) : (p.digit d).count c ≤ p.most c := by
  by_cases hone : c = p.one
  · have hfive : p.five ≠ c := fun h => p.one_ne_five (hone.symm.trans h.symm)
    have hten : p.ten ≠ c := fun h => p.one_ne_ten (hone.symm.trans h.symm)
    rw [most, if_pos hone]
    unfold digit
    split <;> simp [hone.symm, hfive, hten]
  · rw [most, if_neg hone]
    split
    · have hone : p.one ≠ c := fun h => hone h.symm
      unfold digit
      split <;> simp [List.count_cons, hone] <;> split <;> omega
    · next hother =>
      refine Nat.le_of_eq (List.count_eq_zero.2 fun hmem => ?_)
      exact (mem_digit hmem).elim hone hother

end Place

/-- Letters of places side by side stand as they may, if those on the right are smaller. -/
theorem isChain_append_of_headAtMost {bound : Nat} {s t : List Char} (hs : s.IsChain MayPrecede)
    (ht : t.IsChain MayPrecede) (hbound : ∀ c ∈ s, bound ≤ romanValue c)
    (hhead : HeadAtMost bound t) : (s ++ t).IsChain MayPrecede := by
  refine hs.append ht ?_
  intro a ha b hb hlt
  have hle := hbound a (List.mem_of_mem_getLast? ha)
  have hle' := hhead b hb
  omega

/-- Only letters that may precede greater ones do. -/
theorem isChain_thousands {n : Nat} (h : n < 1000) (k : Nat) :
    (List.replicate k 'm' ++ canonical n).IsChain MayPrecede := by
  have hunits : ∀ d < 10, (Place.units.digit d).IsChain MayPrecede := by decide
  have htens : ∀ d < 10, (Place.tens.digit d).IsChain MayPrecede := by decide
  have hhundreds : ∀ d < 10, (Place.hundreds.digit d).IsChain MayPrecede := by decide
  -- The places are joined from the right: no letter of a place is worth less than the first letter
  -- behind it.
  have hbehind := isChain_append_of_headAtMost (htens (n / 10 % 10) (Nat.mod_lt _ (by decide)))
    (hunits (n % 10) (Nat.mod_lt _ (by decide))) (fun c => Place.unit_le_of_mem_digit)
    ((headAtMost_units _).mono (by decide))
  have hcanonical := isChain_append_of_headAtMost (hhundreds (n / 100) (by omega)) hbehind
    (fun c => Place.unit_le_of_mem_digit) ((headAtMost_tens _ _).mono (by decide))
  have hthousands : ∀ c ∈ List.replicate k 'm', 1000 ≤ romanValue c := by
    intro c hc
    rw [List.eq_of_mem_replicate hc]
    exact Nat.le_refl _
  refine isChain_append_of_headAtMost (List.isChain_replicate_of_rel _ ?_) hcanonical hthousands
    ((headAtMost_canonical n).mono (by decide))
  exact fun hlt => absurd hlt (Nat.lt_irrefl _)

/-- The letters besides `m` are those of the three places. -/
theorem count_thousands_le {c : Char} (hc : c ≠ 'm') (k n : Nat) :
    (List.replicate k 'm' ++ canonical n).count c ≤
      Place.hundreds.most c + (Place.tens.most c + Place.units.most c) := by
  have hm : (List.replicate k 'm').count c = 0 :=
    List.count_eq_zero.2 fun hmem => hc (List.eq_of_mem_replicate hmem)
  rw [canonical, List.count_append, List.count_append, List.count_append, hm, Nat.zero_add]
  exact Nat.add_le_add (Place.count_digit_le ..)
    (Nat.add_le_add (Place.count_digit_le ..) (Place.count_digit_le ..))

/-- The letters `x` and `c` are in two places each. But the smaller place holds them only behind one
of its own, so what is right of the larger place never starts with them. -/
theorem not_four_in_a_row {c : Char} (hc : c ∈ ['i', 'x', 'c']) (k n : Nat) :
    ¬ List.replicate 4 c <:+: List.replicate k 'm' ++ canonical n := by
  intro hrow
  simp only [List.mem_cons, List.not_mem_nil, or_false] at hc
  rcases hc with rfl | rfl | rfl
  · have hle := (le_count_of_infix_replicate hrow).trans (count_thousands_le (by decide) k n)
    exact absurd hle (by decide)
  · -- A row cannot reach from the tens into the units, and hundreds and tens have too few together.
    have hhead : 'x' ∉ (Place.units.digit (n % 10)).head? :=
      fun hmem => absurd (headAtMost_units _ _ hmem) (by decide)
    have hm : (List.replicate k 'm').count 'x' = 0 := by simp [List.count_replicate]
    rw [canonical, ← List.append_assoc, ← List.append_assoc] at hrow
    rcases infix_of_replicate_infix_append hhead hrow with hrow | hrow
    · have hle := le_count_of_infix_replicate hrow
      rw [List.count_append, List.count_append, hm, Nat.zero_add] at hle
      have hmost := Nat.add_le_add (Place.hundreds.count_digit_le (n / 100) 'x')
        (Place.tens.count_digit_le (n / 10 % 10) 'x')
      exact absurd (hle.trans hmost) (by decide)
    · exact absurd ((le_count_of_infix_replicate hrow).trans (Place.count_digit_le ..)) (by decide)
  · -- Likewise one place up.
    have hhead : 'c' ∉ (Place.tens.digit (n / 10 % 10) ++ Place.units.digit (n % 10)).head? :=
      fun hmem => absurd (headAtMost_tens _ _ _ hmem) (by decide)
    have hm : (List.replicate k 'm').count 'c' = 0 := by simp [List.count_replicate]
    rw [canonical, ← List.append_assoc] at hrow
    rcases infix_of_replicate_infix_append hhead hrow with hrow | hrow
    · have hle := le_count_of_infix_replicate hrow
      rw [List.count_append, hm, Nat.zero_add] at hle
      exact absurd (hle.trans (Place.count_digit_le ..)) (by decide)
    · have hle := le_count_of_infix_replicate hrow
      rw [List.count_append] at hle
      have hmost := Nat.add_le_add (Place.tens.count_digit_le (n / 10 % 10) 'c')
        (Place.units.count_digit_le (n % 10) 'c')
      exact absurd (hle.trans hmost) (by decide)

/-- Thousands and what follows them are well formed. -/
theorem isWellFormed_thousands {n : Nat} (h : n < 1000) (k : Nat) :
    IsWellFormed (List.replicate k 'm' ++ canonical n) := by
  refine ⟨?_, fun c hc => not_four_in_a_row hc k n, ?_, isChain_thousands h k⟩
  · intro c hmem
    rw [canonical, List.mem_append, List.mem_append, List.mem_append] at hmem
    rcases hmem with hmem | hmem | hmem | hmem
    · rw [List.eq_of_mem_replicate hmem]
      decide
    · rcases Place.mem_digit hmem with rfl | rfl | rfl <;> decide
    · rcases Place.mem_digit hmem with rfl | rfl | rfl <;> decide
    · rcases Place.mem_digit hmem with rfl | rfl | rfl <;> decide
  · intro c hmem
    simp only [List.mem_cons, List.not_mem_nil, or_false] at hmem
    rcases hmem with rfl | rfl | rfl <;>
      exact (count_thousands_le (by decide) k n).trans (by decide)

/-! ## Numerals -/

/-- What a numeral of a number is. -/
structure IsRomanNumeral (n : Nat) (s : List Char) : Prop where
  value : readRoman s = n
  form : s = List.replicate (n / 1000) 'm' ++ canonical (n % 1000)
  rules : IsWellFormed s

/-- A numeral without the loop that writes it. -/
theorem roman_eq (n : Nat) : roman n =
    if n = 0 then "0" else .ofList (List.replicate (n / 1000) 'm' ++ canonical (n % 1000)) := by
  rw [roman, romanDigits_romanSteps]

/-- Every number but zero is written as its thousands and the three places below. -/
theorem toList_roman {n : Nat} (h : 0 < n) :
    (roman n).toList = List.replicate (n / 1000) 'm' ++ canonical (n % 1000) := by
  rw [roman_eq, if_neg (Nat.ne_of_gt h), String.toList_ofList]

/-- Reading undoes writing. -/
theorem readRoman_roman (n : Nat) : readRoman (roman n).toList = n := by
  rcases Nat.eq_zero_or_pos n with rfl | hn
  · decide
  · have hhead : HeadAtMost (romanValue 'm') (canonical (n % 1000)) :=
      (headAtMost_canonical _).mono (by decide)
    have hm : romanValue 'm' = 1000 := rfl
    rw [toList_roman hn, readRoman_replicate_append hhead,
      readRoman_canonical (Nat.mod_lt _ (by decide)), hm]
    omega

/-- No two numbers are written alike. -/
theorem roman_injective : Function.Injective roman := by
  intro m n heq
  have hvalue : ((m : Nat) : Int) = n := by rw [← readRoman_roman m, heq, readRoman_roman]
  exact Int.ofNat_inj.1 hvalue

/-- Every number from 1 on is written as the Roman numeral that it is, and no two numbers are
written alike. -/
theorem roman_isRomanNumeral :
    (∀ n, 1 ≤ n → IsRomanNumeral n (roman n).toList) ∧ Function.Injective roman := by
  refine ⟨?_, roman_injective⟩
  intro n hn
  have hform := toList_roman hn
  refine ⟨readRoman_roman n, hform, ?_⟩
  rw [hform]
  exact isWellFormed_thousands (Nat.mod_lt _ (by decide)) _

/-- A number with a smaller letter before a larger one in each place. -/
theorem mmmmcmxcix_isRomanNumeral : roman 4999 = "mmmmcmxcix" ∧
    IsRomanNumeral 4999 "mmmmcmxcix".toList := by
  have hwritten : roman 4999 = "mmmmcmxcix" := by
    rw [roman_eq]
    decide
  exact ⟨hwritten, hwritten ▸ roman_isRomanNumeral.1 4999 (by decide)⟩

end StyledText.Markdown.Numeral
