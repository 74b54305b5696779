/-!
# Attribute keys

What an attribute says about a text. Keys are ordered: the built-in ones as they are listed,
then the custom ones by name. A custom key that bears the name of a built-in one is not that key.
-/

namespace StyledText.Attribute

inductive Key where
  | font
  | foregroundColor
  | backgroundColor
  | link
  | toolTip
  | attachment
  /-- The current value of a template variable. -/
  | variableValue
  /-- The name of a template variable. -/
  | variableName
  | custom (name : String)
deriving DecidableEq, Repr, Inhabited

namespace Key

/-- The name a key is listed under. -/
def name : Key → String
  | font => "font"
  | foregroundColor => "foregroundColor"
  | backgroundColor => "backgroundColor"
  | link => "link"
  | toolTip => "toolTip"
  | attachment => "attachment"
  | variableValue => "ObjectValue"
  | variableName => "ObjectValueKey"
  | custom name => name

/-- The place of a key in the listing; custom keys share the last. -/
def rank : Key → Nat
  | font => 0
  | foregroundColor => 1
  | backgroundColor => 2
  | link => 3
  | toolTip => 4
  | attachment => 5
  | variableValue => 6
  | variableName => 7
  | custom _ => 8

/-! ## Order -/

/-- By rank, then by name. -/
instance : Ord Key := ⟨compareLex (compareOn rank) (compareOn name)⟩

instance : Std.TransOrd Key :=
  inferInstanceAs (Std.TransCmp (compareLex (compareOn rank) (compareOn name)))

/-- The order of keys looks at rank and name only, and loses nothing. -/
theorem eq_of_rank_name {a b : Key} (rank_eq : a.rank = b.rank) (name_eq : a.name = b.name) :
    a = b := by
  cases a <;> cases b <;> simp_all [rank, name]

instance : Std.LawfulEqOrd Key where
  compare_self {a} := by
    show compareLex (compareOn rank) (compareOn name) a a = .eq
    simp [compareLex, compareOn]
  eq_of_compare {a b} h := by
    have h : (compare a.rank b.rank).then (compare a.name b.name) = .eq := h
    rw [Ordering.then_eq_eq] at h
    exact eq_of_rank_name (Std.LawfulEqCmp.eq_of_compare h.1) (Std.LawfulEqCmp.eq_of_compare h.2)

end Key

end StyledText.Attribute
