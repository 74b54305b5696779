import StyledText.Text.Variable.Span

/-!
# Updating template variables

`Text.updated` writes new values for variables into a text. Of each span, the part in the given
range is replaced by one run with the new value, styled like the run in which that part starts;
what is left of the cut runs keeps its attributes.
-/

namespace StyledText

/-- A stretch of text to replace, and what to put there. -/
structure Variable.Edit where
  range : ByteRange
  value : String
deriving DecidableEq, Repr, Inhabited

/-- The part of a run between two offsets, where the run itself starts at `base`. Nothing comes of
a part that is empty or has an end inside a character. -/
def Run.between (r : Run) (base start stop : Nat) : List Run :=
  match Chars.slice? (start - base) (stop - base) r.chars with
  | some (c :: cs) => [{ r with text := String.ofList (c :: cs) }]
  | _ => []

/-- A run with a new value, otherwise styled as before. -/
def Run.withValue (r : Run) (value : String) : Run :=
  { text := value, attributes := r.attributes.insert .variableValue (.text value) }

namespace Text

open Variable

/-- The stretches to replace when the variables with new values are written into a range. -/
def edits (t : Text) (values : OrderedMap String String) (range : ByteRange) : List Edit :=
  t.spans.filterMap fun span =>
    let clip := span.range.inter range
    (values.get? span.name).bind fun value => if clip.isEmpty then none else some ⟨clip, value⟩

/-- Writes the edits that touch the run `r`, which takes the bytes from `base` to `stop`; all before
`cursor` is done. Also yields the edits still open after the run. -/
def editRun (r : Run) (base stop : Nat) : Nat → List Edit → List Run × List Edit
  | cursor, [] => (r.between base cursor stop, [])
  | cursor, e :: rest =>
    if stop ≤ e.range.start then (r.between base cursor stop, e :: rest)
    else
      let written :=
        if cursor ≤ e.range.start then
          r.between base cursor e.range.start ++ [r.withValue e.value]
        else []
      let next := max cursor (min e.range.stop stop)
      if stop < e.range.stop then (written ++ r.between base next stop, e :: rest)
      else
        let (more, left) := editRun r base stop next rest
        (written ++ more, left)

/-- Writes edits into a list of runs, the first of which starts at `offset`. -/
def editRuns (offset : Nat) (edits : List Edit) : List Run → List Run
  | [] => []
  | r :: rest =>
    if r.isEmpty then r :: editRuns offset edits rest
    else
      let (written, left) := editRun r offset (offset + r.length) offset edits
      written ++ editRuns (offset + r.length) left rest

/-- The text with new values for its variables, inside a range or everywhere. -/
def updated (t : Text) (values : OrderedMap String String) (range : Option ByteRange) : Text :=
  ⟨editRuns 0 (t.edits values (range.getD t.extent)) t.runs⟩

end Text

end StyledText
