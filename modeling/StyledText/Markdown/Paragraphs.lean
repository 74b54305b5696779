import StyledText.Chars.Blank
import StyledText.Markdown.Event

/-!
# A reader of paragraphs

The least of all Markdown readers. It knows paragraphs, which blank lines set apart, and takes the
characters in them as they are. It serves where the host offers no other reader.
-/

namespace StyledText.Markdown.Reader

/-- The events of the lines of a paragraph. -/
def paragraphEvents (lines : List (List Char)) : List Event :=
  .start .paragraph :: (lines.map fun line =>
    Event.text (.ofList (line.dropWhile Chars.isBlank))).intersperse .softBreak ++ [.stop]

/-- Reads paragraphs only. -/
def paragraphs : Reader where
  events _ source :=
    let lines := source.toList.splitOn '\n'
    let groups := (lines.splitOnP (·.all Chars.isBlank)).filter (· ≠ [])
    groups.flatMap paragraphEvents

end StyledText.Markdown.Reader
