import StyledText.Font.Size

/-!
# Fonts

A font is a family name, a size and a set of traits. No metrics are known here; a host that
draws text looks the face up by these three.
-/

namespace StyledText

/-- Traits that a face may combine. -/
structure Font.Traits where
  bold : Bool := false
  italic : Bool := false
  monospace : Bool := false
deriving DecidableEq, Repr, Inhabited

/-- A font description. -/
structure Font where
  family : String
  size : Font.Size
  traits : Font.Traits := {}
deriving DecidableEq, Repr, Inhabited

namespace Font

namespace Traits

def union (s t : Traits) : Traits :=
  ⟨s.bold || t.bold, s.italic || t.italic, s.monospace || t.monospace⟩

theorem union_assoc (s t u : Traits) : (s.union t).union u = s.union (t.union u) := by
  simp [union, Bool.or_assoc]

theorem union_comm (s t : Traits) : s.union t = t.union s := by
  simp [union, Bool.or_comm]

@[simp] theorem union_self (s : Traits) : s.union s = s := by
  simp [union]

@[simp] theorem union_empty (s : Traits) : s.union {} = s := by
  simp [union]

end Traits

def withTraits (f : Font) (traits : Traits) : Font := { f with traits := f.traits.union traits }

def withSize (f : Font) (size : Size) : Font := { f with size }

/-- Whether two fonts have one family, one set of traits and, as a number, one size. -/
def alike (f g : Font) : Bool := f.family = g.family && f.size.alike g.size && f.traits = g.traits

/-- Adding traits twice is adding them once. -/
@[simp] theorem withTraits_withTraits (f : Font) (s t : Traits) :
    (f.withTraits s).withTraits t = f.withTraits (s.union t) := by
  simp [withTraits, Traits.union_assoc]

end Font

end StyledText
