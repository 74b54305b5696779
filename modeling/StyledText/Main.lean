import StyledText.Command.Answer
import StyledText.Markdown.Paragraphs

/-!
# The command

Lists a Markdown source, from a file or the standard input. On its own the command reads
paragraphs only, and keeps links as they are written.
-/

open StyledText StyledText.Command

/-- The absolute path of a directory, if it can be told. -/
def resolved? (path : String) : IO (Option String) := do
  try return some (← IO.FS.realPath path).toString
  catch _ => return none

/-- Reads the file a request names, or else the standard input. -/
def readSource (request : Request) : IO (Option Source) := do
  match request.path? with
  | some path =>
    try
      let text ← IO.FS.readFile path
      return some (.ofFile path (← resolved? (directory path)) text)
    catch _ => return none
  | none =>
    match request with
    | .list _ => return some { text := ← (← IO.getStdin).readToEnd }
    | _ => return none

def main (arguments : List String) : IO UInt32 := do
  let request := Request.ofArguments arguments
  let source ← readSource request
  let result := answer ⟨.paragraphs, .schemeless, Chars.showsInk⟩ request source
  IO.print result.output
  IO.eprint result.errors
  return result.code.toUInt32
