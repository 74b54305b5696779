/-!
# Terminal styles

A style says which colours and modifiers a piece of text gets, and leaves open what it does not
mention. Styles are laid over each other by `Style.patch`.
-/

namespace StyledText

/-- A terminal colour. The three forms are never converted into each other. -/
inductive Color where
  | reset | black | red | green | yellow | blue | magenta | cyan | gray
  | darkGray | lightRed | lightGreen | lightYellow | lightBlue | lightMagenta | lightCyan | white
  /-- An entry of the terminal's palette. -/
  | indexed (entry : UInt8)
  | rgb (red green blue : UInt8)
deriving DecidableEq, Repr, Inhabited

namespace Terminal

/-- A set of text modifiers, one bit each. Only those that a text can be drawn with have a name. -/
structure Modifiers where
  bits : UInt16
deriving DecidableEq, Repr, Inhabited

namespace Modifiers

def none : Modifiers := ⟨0⟩

def bold : Modifiers := ⟨1⟩

def italic : Modifiers := ⟨4⟩

def underlined : Modifiers := ⟨8⟩

def union (s t : Modifiers) : Modifiers := ⟨s.bits ||| t.bits⟩

/-- The modifiers of `s` that are not in `t`. -/
def diff (s t : Modifiers) : Modifiers := ⟨s.bits &&& ~~~t.bits⟩

end Modifiers

/-- Colours to set, and modifiers to add and to take away. -/
structure Style where
  foreground : Option Color := none
  background : Option Color := none
  underline : Option Color := none
  added : Modifiers := .none
  removed : Modifiers := .none
deriving DecidableEq, Repr, Inhabited

namespace Style

/-- Lays `upper` on top: where both speak, `upper` is heard. -/
def patch (s upper : Style) : Style where
  foreground := upper.foreground <|> s.foreground
  background := upper.background <|> s.background
  underline := upper.underline <|> s.underline
  added := (s.added.diff upper.removed).union upper.added
  removed := (s.removed.diff upper.added).union upper.removed

def add (s : Style) (m : Modifiers) : Style :=
  { s with added := s.added.union m, removed := s.removed.diff m }

/-- The style with another text colour, if one is given. -/
def withForeground (s : Style) : Option Color → Style
  | some color => { s with foreground := some color }
  | none => s

/-- The style with another background colour, if one is given. -/
def withBackground (s : Style) : Option Color → Style
  | some color => { s with background := some color }
  | none => s

end Style

/-- The styles a text is drawn with. -/
structure Theme where
  /-- Ordinary text. -/
  primary : Style := {}
  /-- Stand-ins for what a terminal cannot show. -/
  muted : Style := { foreground := some .darkGray }
  /-- Fixed-pitch text, laid over `primary`. -/
  code : Style := { foreground := some .cyan }
  /-- Links, laid over what the text has else. -/
  link : Style := { foreground := some .cyan, added := .underlined }
  /-- The number of spaces that stand for a tab. -/
  tabWidth : Nat := 4
deriving DecidableEq, Repr, Inhabited

end Terminal

end StyledText
