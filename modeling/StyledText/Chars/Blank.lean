/-!
# Blanks and words

* `isBlank` is the Unicode property `White_Space`.
* `words` are the maximal stretches without blanks; `squeeze` sets one space between them.
-/

namespace StyledText.Chars

/-- The code points with the property `White_Space`, as first and last of each stretch. -/
def blankRanges : List (Nat × Nat) :=
  [(0x09, 0x0D), (0x20, 0x20), (0x85, 0x85), (0xA0, 0xA0), (0x1680, 0x1680), (0x2000, 0x200A),
    (0x2028, 0x2029), (0x202F, 0x202F), (0x205F, 0x205F), (0x3000, 0x3000)]

/-- Whether a code point lies in one of some stretches. -/
def inRanges (ranges : List (Nat × Nat)) (c : Char) : Bool :=
  ranges.any fun r => r.1 ≤ c.toNat && c.toNat ≤ r.2

/-- Whether a character is white space. -/
def isBlank (c : Char) : Bool := inRanges blankRanges c

/-- The maximal stretches of characters that are not blank. -/
def words (cs : List Char) : List (List Char) := (cs.splitOnP isBlank).filter (· ≠ [])

/-- The words with one space between each two, and no other blank. -/
def squeeze (cs : List Char) : List Char := List.intercalate [' '] (words cs)

end StyledText.Chars
