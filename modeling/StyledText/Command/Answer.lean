import StyledText.Command.Listing
import StyledText.Command.Request
import StyledText.Markdown.Conversion.Basic

/-!
# Answers to a command line

What the command prints for given arguments and input. Nothing is read or printed here.
-/

namespace StyledText.Command

open Markdown

structure Source where
  text : String
  /-- The directory of the file, as a URL, for files. -/
  directoryUrl : Option String := none
deriving DecidableEq, Repr, Inhabited

/-- The source in a file. The host may know `resolved`, the directory as an absolute path; else the
directory is taken as the path names it. -/
def Source.ofFile (path : String) (resolved : Option String) (text : String) : Source :=
  { text
    directoryUrl := some ("file://" ++ resolved.getD (directory path) ++ "/") }

/-- What the host provides for the command. -/
structure Host where
  reader : Reader
  urls : UrlReader
  /-- Whether a character can be seen in a quoted text. -/
  shows : Char → Bool

/-- What the command prints, and its exit code. -/
structure Answer where
  code : Nat := 0
  output : String := ""
  errors : String := ""
deriving DecidableEq, Repr, Inhabited

namespace Answer

def failure (report : String) : Answer := { code := 1, errors := "Error: " ++ report ++ "\n" }

/-- The failure of a flag without the value it needs. -/
def valueMissing (shows : Char → Bool) (flag : String) : Answer :=
  failure ("Custom \x7b kind: InvalidInput, error: " ++
    Chars.quoted shows (flag ++ " expects a value") ++ " \x7d")

def notFound (shows : Char → Bool) : Answer :=
  failure ("Os \x7b code: 2, kind: NotFound, message: " ++
    Chars.quoted shows "No such file or directory" ++ " \x7d")

/-- The failure to turn the source into a text. -/
def invalid (shows : Char → Bool) (error : ConversionError) : Answer :=
  failure ("Custom \x7b kind: InvalidData, error: " ++ error.describe shows ++ " \x7d")

def ofLines (lines : List String) : Answer :=
  { output := String.join (lines.map fun line => line ++ "\n") }

end Answer

/-- How a source is turned into a text. Without a base URL, the directory of the file is it. -/
def Settings.conversionOptions (settings : Settings) (host : Host) (source : Source) :
    ConversionOptions :=
  { baseUrl := settings.baseUrl <|> source.directoryUrl
    indent := settings.indent.getD "\t"
    markers := if settings.plainMarkers then .plain else .tiered
    respectsListStart := settings.respectsListStart
    urls := host.urls }

def list (host : Host) (settings : Settings) (source : Source) : Answer :=
  match Text.ofMarkdown host.reader source.text {} {} (settings.conversionOptions host source) with
  | .ok text =>
    .ofLines (if settings.showsRuns then text.runLines host.shows else text.drawnLines)
  | .error error => .invalid host.shows error

/-- The answer to a request. The source is missing if the file could not be read. -/
def answer (host : Host) (request : Request) (source : Option Source) : Answer :=
  match request with
  | .help => { errors := helpText }
  | .valueMissing flag => .valueMissing host.shows flag
  | .list settings =>
    match source with
    | some source => list host settings source
    | none => .notFound host.shows

end StyledText.Command
