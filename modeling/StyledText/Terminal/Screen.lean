import StyledText.Text.Basic

/-!
# Drawing a text in a terminal

* A line ends at a line feed, a line separator and a paragraph separator.
* A tab stands for a number of spaces, whatever column it is in.
* An attachment has no picture here; its name is drawn in brackets, before the characters of its
  run, and is never broken.

Runs are drawn one after the other on a `Page`, which holds the lines that have ended and the one
that is still open. A run goes on where the one before it stopped.
-/

namespace StyledText

namespace Terminal

/-- A piece of a line in one style. -/
structure Span where
  text : String
  style : Style
deriving DecidableEq, Repr, Inhabited

/-- Whether a line ends at a character. -/
def isLineBreak (c : Char) : Bool := c = '\n' || c = lineSeparator || c = paragraphSeparator

/-- Characters with each tab replaced by spaces. -/
def expandTabs (tabWidth : Nat) (cs : List Char) : List Char :=
  cs.flatMap fun c => if c = '\t' then List.replicate tabWidth ' ' else [c]

/-- The style of text with the given attributes. -/
def Theme.styleFor (theme : Theme) (attributes : Attributes) : Style :=
  let traits := (attributes.font?.map Font.traits).getD {}
  let style := if traits.monospace then theme.primary.patch theme.code else theme.primary
  let style := if traits.bold then style.add .bold else style
  let style := if traits.italic then style.add .italic else style
  let style := if attributes.link?.isSome then style.patch theme.link else style
  (style.withForeground (attributes.color? .foregroundColor)).withBackground
    (attributes.color? .backgroundColor)

/-! ## Pages -/

/-- Lines while they are drawn. -/
structure Page where
  /-- The lines that have ended. -/
  ended : List (List Span) := []
  /-- The spans of the line that has not. -/
  current : List Span := []
deriving DecidableEq, Repr, Inhabited

namespace Page

def lines (p : Page) : List (List Span) := p.ended ++ [p.current]

/-- The page with a span more on its last line. -/
def put (p : Page) (s : Span) : Page := { p with current := p.current ++ [s] }

/-- The page with its last line ended. -/
def breakLine (p : Page) : Page := ⟨p.lines, []⟩

/-- Draws characters without a line break. No characters give no span. -/
def putPiece (theme : Theme) (style : Style) (p : Page) (piece : List Char) : Page :=
  if piece = [] then p else p.put ⟨String.ofList (expandTabs theme.tabWidth piece), style⟩

/-- Draws pieces, with a line break between each two. -/
def putPieces (theme : Theme) (style : Style) (p : Page) : List (List Char) → Page
  | [] => p
  | [piece] => p.putPiece theme style piece
  | piece :: rest => putPieces theme style (p.putPiece theme style piece).breakLine rest

/-- Draws a run: its attachment, then its characters. -/
def putRun (theme : Theme) (p : Page) (r : Run) : Page :=
  let marked :=
    match r.attributes.attachment? with
    | some a => p.put ⟨"[" ++ a.name ++ "]", theme.muted⟩
    | none => p
  marked.putPieces theme (theme.styleFor r.attributes) (r.chars.splitOnP isLineBreak)

def putRuns (theme : Theme) (p : Page) (runs : List Run) : Page := runs.foldl (putRun theme) p

end Page

/-! ## Screens -/

/-- A text as it is drawn. -/
structure Screen where
  lines : List (List Span)
deriving DecidableEq, Repr, Inhabited

namespace Screen

/-- The number of cells a line takes, where `measure` tells how many a text takes. -/
def lineWidth (measure : String → Nat) : List Span → Nat
  | [] => 0
  | s :: rest => measure s.text + lineWidth measure rest

/-- The most cells a screen can be wide. -/
def maxWidth : Nat := 65535

/-- The cells of the widest line. -/
def widthBy (measure : String → Nat) (s : Screen) : Nat :=
  min ((s.lines.map (lineWidth measure)).max?.getD 0) maxWidth

/-- The number of lines, counted with 32 bits. -/
def height (s : Screen) : Nat := s.lines.length % UInt32.size

def lineText (line : List Span) : String := String.join (line.map Span.text)

end Screen

end Terminal

def Text.render (t : Text) (theme : Terminal.Theme) : Terminal.Screen :=
  ⟨(Terminal.Page.putRuns theme {} t.runs).lines⟩

end StyledText
