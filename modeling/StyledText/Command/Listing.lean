import StyledText.Chars.Quoted
import StyledText.Terminal.Screen

/-!
# Listings

Two ways to print a text: one line for each run, or the lines as they are drawn.
-/

namespace StyledText

namespace Text

/-- One run in a listing: its bytes, its quoted text and the names of its keys. -/
def runLine (shows : Char → Bool) (entry : ByteRange × Run) : String :=
  toString entry.1.start ++ ".." ++ toString entry.1.stop ++ "\t" ++
    Chars.quoted shows entry.2.text ++ "\t[" ++
    String.intercalate "," (entry.2.attributes.keys.map Attribute.Key.name) ++ "]"

def runLines (shows : Char → Bool) (t : Text) : List String := t.ranges.map (runLine shows)

/-- The characters of the lines as they are drawn. -/
def drawnLines (t : Text) : List String := (t.render {}).lines.map Terminal.Screen.lineText

end Text

end StyledText
