import StyledText.Chars.Blank

/-!
# Quoted text

The form in which listings and messages show a text: between double quotes, on one line, with
everything a reader could not see written as an escape. Quotes, backslashes, tabs, newlines,
carriage returns and the null character are always escaped. Which of the other characters a reader
can see is a matter of the Unicode version at hand, so `shows` tells it.
-/

namespace StyledText.Chars

def hexadecimal (n : Nat) : List Char := Nat.toDigits 16 n

/-- A character between double quotes. -/
def quotedChar (shows : Char → Bool) (c : Char) : List Char :=
  match c with
  | '"' => ['\\', '"']
  | '\\' => ['\\', '\\']
  | '\t' => ['\\', 't']
  | '\n' => ['\\', 'n']
  | '\r' => ['\\', 'r']
  | '\x00' => ['\\', '0']
  | c => if shows c then [c] else ['\\', 'u', '\x7b'] ++ hexadecimal c.toNat ++ ['\x7d']

/-- A text between double quotes. -/
def quoted (shows : Char → Bool) (s : String) : String :=
  String.ofList ('"' :: s.toList.flatMap (quotedChar shows) ++ ['"'])

/-- A choice that needs no tables: controls are not shown, nor are blanks other than the space. -/
def showsInk (c : Char) : Bool :=
  c = ' ' || !(c.toNat < 0x20 || 0x7F ≤ c.toNat && c.toNat < 0xA0 || isBlank c)

end StyledText.Chars
