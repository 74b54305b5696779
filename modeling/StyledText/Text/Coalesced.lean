import StyledText.Text.Basic

/-!
# Coalescing

`Text.coalesced` writes a text with as few runs as its styling allows: empty runs vanish and
neighbours with agreeing attributes become one. A run that carries an attachment is kept as it
is, even without characters, and nothing is joined to it.
-/

namespace StyledText.Text

/-- Whether a run shows nothing: no characters and no attachment. -/
def isInvisible (r : Run) : Bool := r.isEmpty && r.attributes.attachment?.isNone

/-- Whether the characters of `next` may be written into `r`. -/
def absorbs (r next : Run) : Bool :=
  r.attributes.alike next.attributes && r.attributes.attachment?.isNone

/-- Writes out the run `current`, which takes in what follows as long as it can. -/
def coalesceOnto (current : Run) : List Run → List Run
  | [] => [current]
  | r :: rest =>
    if isInvisible r then coalesceOnto current rest
    else if absorbs current r then
      coalesceOnto { current with text := current.text ++ r.text } rest
    else current :: coalesceOnto r rest

/-- Writes out a list of runs, joined where that is possible. -/
def coalesceRuns : List Run → List Run
  | [] => []
  | r :: rest => if isInvisible r then coalesceRuns rest else coalesceOnto r rest

/-- The same styled content in as few runs as possible. -/
def coalesced (t : Text) : Text := ⟨coalesceRuns t.runs⟩

end StyledText.Text
