import StyledText.Text.Basic

/-!
# Template variables in a text

A run belongs to a variable if its attribute `variableName` is a text, the variable's name. A span
is a longest stretch of neighbouring runs of one variable, where empty runs do not count.
-/

namespace StyledText

/-- A stretch of text that belongs to one variable. -/
structure Variable.Span where
  name : String
  range : ByteRange
  /-- The index of the first run. -/
  firstRun : Nat
  /-- The index after the last run. -/
  endRun : Nat
deriving DecidableEq, Repr, Inhabited

namespace Text

/-- One run holding a value, tagged as the given variable. -/
def template (value name : String) : Text :=
  styled value <| .ofList [(.variableValue, .text value), (.variableName, .text name)]

open Variable

/-- The spans of a list of runs. The first run has the given index and starts at `offset`;
`current` is the span that ends there. -/
def spansFrom (index offset : Nat) (current : Option Span) : List Run → List Span
  | [] => current.toList
  | r :: rest =>
    if r.isEmpty then spansFrom (index + 1) offset current rest
    else
      let stop := offset + r.length
      match r.variableName?, current with
      | none, _ => current.toList ++ spansFrom (index + 1) stop none rest
      | some name, none =>
        spansFrom (index + 1) stop (some ⟨name, ⟨offset, stop⟩, index, index + 1⟩) rest
      | some name, some span =>
        if span.name = name then
          let longer := { span with range := ⟨span.range.start, stop⟩, endRun := index + 1 }
          spansFrom (index + 1) stop (some longer) rest
        else
          span :: spansFrom (index + 1) stop (some ⟨name, ⟨offset, stop⟩, index, index + 1⟩) rest

/-- The spans of all variables, from left to right. -/
def spans (t : Text) : List Span := spansFrom 0 0 none t.runs

def hasVariables (t : Text) : Bool := !t.spans.isEmpty

end Text

end StyledText
