import StyledText.Attachment
import StyledText.Attribute.Key
import StyledText.Font.Basic
import StyledText.Link
import StyledText.Terminal.Style

/-!
# Attribute sets

The attributes of a piece of text: at most one value for each key.

* Any key may hold any kind of value. The typed readers (`font?`, `color?`, …) find nothing where
  a value of another kind stands.
* `alike` compares sets entry by entry, sizes as numbers.
-/

namespace StyledText

inductive Attribute.Value where
  | font (font : Font)
  | color (color : Color)
  | link (target : LinkTarget)
  | text (text : String)
  | attachment (attachment : Attachment)
deriving DecidableEq, Repr, Inhabited

/-- Whether two values are of one kind and agree, sizes compared as numbers. -/
def Attribute.Value.alike : Attribute.Value → Attribute.Value → Bool
  | .font f, .font g => f.alike g
  | v, w => v = w

/-- A set of attributes. -/
abbrev Attributes := OrderedMap Attribute.Key Attribute.Value

namespace Attributes

open Attribute

def font? (a : Attributes) : Option Font :=
  match a.get? .font with
  | some (.font font) => some font
  | _ => none

def color? (a : Attributes) (key : Key) : Option Color :=
  match a.get? key with
  | some (.color color) => some color
  | _ => none

def link? (a : Attributes) : Option LinkTarget :=
  match a.get? .link with
  | some (.link target) => some target
  | _ => none

def text? (a : Attributes) (key : Key) : Option String :=
  match a.get? key with
  | some (.text text) => some text
  | _ => none

def attachment? (a : Attributes) : Option Attachment :=
  match a.get? .attachment with
  | some (.attachment attachment) => some attachment
  | _ => none

/-- Whether two sets have the same keys with values that agree. -/
def alike (a b : Attributes) : Bool :=
  a.entries.isEqv b.entries fun e f => e.1 = f.1 && e.2.alike f.2

end Attributes

end StyledText
