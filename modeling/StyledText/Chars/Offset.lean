/-!
# Byte offsets

Positions in a text count the bytes of its UTF-8 form, while a text is a list of characters.

* `byteLength` measures a list of characters; it is additive (`byteLength_append`).
* `slice? start stop` cuts out the characters between two offsets. It refuses a range that is
  reversed, reaches past the end, or has an end inside a character.
-/

namespace StyledText.Chars

/-- The number of bytes of the UTF-8 form. -/
def byteLength : List Char → Nat
  | [] => 0
  | c :: cs => c.utf8Size + byteLength cs

@[simp] theorem byteLength_nil : byteLength [] = 0 := rfl

@[simp] theorem byteLength_cons (c : Char) (cs : List Char) :
    byteLength (c :: cs) = c.utf8Size + byteLength cs := rfl

@[simp] theorem byteLength_append (cs ds : List Char) :
    byteLength (cs ++ ds) = byteLength cs + byteLength ds := by
  induction cs with
  | nil => simp
  | cons c cs ih => simp [ih, Nat.add_assoc]

/-- The characters from byte `offset` on, if a character starts or the text ends there. -/
def dropBytes? : Nat → List Char → Option (List Char)
  | 0, cs => some cs
  | _ + 1, [] => none
  | n + 1, c :: rest => if c.utf8Size ≤ n + 1 then dropBytes? (n + 1 - c.utf8Size) rest else none

/-- The characters before byte `offset`, if a character starts or the text ends there. -/
def takeBytes? : Nat → List Char → Option (List Char)
  | 0, _ => some []
  | _ + 1, [] => none
  | n + 1, c :: rest =>
    if c.utf8Size ≤ n + 1 then (takeBytes? (n + 1 - c.utf8Size) rest).map (c :: ·) else none

/-- Whether a character starts, or the text ends, at byte `offset`. -/
def isBoundary (offset : Nat) (cs : List Char) : Bool := (dropBytes? offset cs).isSome

/-- The characters from byte `start` up to byte `stop`. -/
def slice? (start stop : Nat) (cs : List Char) : Option (List Char) :=
  if start ≤ stop then (dropBytes? start cs).bind (takeBytes? (stop - start)) else none

end StyledText.Chars
