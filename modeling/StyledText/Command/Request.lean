/-!
# Command line arguments

What a caller asks for. Flags come first; the first argument that is none is the path, and what
follows it is not looked at. A request for help counts wherever it stands.
-/

namespace StyledText.Command

/-- What to list, and how. -/
structure Settings where
  /-- Whether to list runs, and not lines. -/
  showsRuns : Bool := false
  plainMarkers : Bool := false
  respectsListStart : Bool := false
  indent : Option String := none
  baseUrl : Option String := none
  /-- The file to read, or none for the standard input. -/
  path : Option String := none
deriving DecidableEq, Repr, Inhabited

/-- What the arguments ask for. -/
inductive Request where
  | help
  | list (settings : Settings)
  /-- A flag comes last that needs a value. -/
  | valueMissing (flag : String)
deriving DecidableEq, Repr, Inhabited

namespace Request

def ofFlags (settings : Settings) : List String → Request
  | [] => .list settings
  | "--runs" :: rest => ofFlags { settings with showsRuns := true } rest
  | "--plain-markers" :: rest => ofFlags { settings with plainMarkers := true } rest
  | "--respect-list-start" :: rest => ofFlags { settings with respectsListStart := true } rest
  | "--indent" :: value :: rest => ofFlags { settings with indent := some value } rest
  | "--base-url" :: value :: rest => ofFlags { settings with baseUrl := some value } rest
  | [last] =>
    if last = "--indent" || last = "--base-url" then .valueMissing last
    else .list { settings with path := some last }
  | path :: _ => .list { settings with path := some path }

def ofArguments (arguments : List String) : Request :=
  if arguments.any fun a => a = "-h" || a = "--help" then .help else ofFlags {} arguments

/-- The file that must be read first. -/
def path? : Request → Option String
  | list settings => settings.path
  | _ => none

end Request

/-- The directory part of a path: what stands before its last slash, or the root. It is empty if the
path has no slash. -/
def directory (path : String) : String :=
  let upToSlash := path.toList.reverse.dropWhile (· ≠ '/')
  let parent := upToSlash.dropWhile (· = '/')
  if upToSlash ≠ [] && parent = [] then "/" else .ofList parent.reverse

example : directory "notes/may/6.md" = "notes/may" ∧ directory "/6.md" = "/" ∧
    directory "6.md" = "" := by decide

def helpText : String :=
  "Usage: dump [options] [path]\n" ++
  "\n" ++
  "Options:\n" ++
  "--runs                      Print one line per run with its byte range and attribute keys\n" ++
  "--plain-markers             Use \x60•\x60 and \x60N.\x60 markers at every nesting level\n" ++
  "--respect-list-start        Number ordered lists from their source start number\n" ++
  "--indent <text>             Indentation unit per nesting level (default: tab)\n" ++
  "--base-url <url>            Resolve relative links against this base\n" ++
  "-h, --help                  Show this help\n" ++
  "\n" ++
  "If [path] is omitted, reads Markdown from stdin.\n"

end StyledText.Command
