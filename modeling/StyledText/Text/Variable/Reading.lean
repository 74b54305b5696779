import StyledText.Text.Variable.Span

/-!
# Reading template variables

* `variableTexts` lists the names in a range with the text now shown for each.
* `nextVariable?` steps from an offset to the nearest variable in one direction.
-/

namespace StyledText

/-- Which way to look for a variable. -/
inductive Variable.Direction where
  | forward
  | backward
deriving DecidableEq, Repr, Inhabited

namespace Text

open Variable

/-- The names of the variables in a range, each with the part of its text that lies there. Where a
name occurs twice, the last occurrence is shown. -/
def variableTexts (t : Text) (range : Option ByteRange) : OrderedMap String String :=
  let range := range.getD t.extent
  .ofList <| t.spans.filterMap fun span =>
    let clip := span.range.inter range
    if clip.isEmpty then none else (t.slice? clip).map (span.name, ·)

/-- The nearest span with a byte from `offset` on, or before `offset`, and that part of it. A span
that holds the offset is near in both directions. -/
def nextSpan? (t : Text) (offset : Nat) : Direction → Option (Span × ByteRange)
  | .forward =>
    (t.spans.find? fun span => offset < span.range.stop).map fun span =>
      (span, ⟨max span.range.start offset, span.range.stop⟩)
  | .backward =>
    (t.spans.reverse.find? fun span => span.range.start < offset).map fun span =>
      (span, ⟨span.range.start, min span.range.stop offset⟩)

/-- The name and the value of the nearest variable. The value is the one stored with the run where
the part found starts, or else the text of that part. -/
def nextVariable? (t : Text) (offset : Nat) (direction : Direction) : Option (String × String) :=
  (t.nextSpan? offset direction).bind fun (span, clip) =>
    let stored := (t.runAt? clip.start).bind (·.attributes.text? .variableValue)
    (stored <|> t.slice? clip).map (span.name, ·)

end Text

end StyledText
