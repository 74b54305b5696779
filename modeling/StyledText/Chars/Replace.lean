/-!
# Replacing

`replaceAll` exchanges every occurrence of a pattern, read from left to right. What has been put in
is not read again.
-/

namespace StyledText.Chars

universe u

variable {α : Type u} [BEq α]

/-- Replaces from here on, after passing over `skip` elements of an occurrence found before. -/
def replaceFrom (pattern replacement : List α) : Nat → List α → List α
  | _, [] => []
  | skip + 1, _ :: rest => replaceFrom pattern replacement skip rest
  | 0, x :: rest =>
    if pattern.isPrefixOf (x :: rest) then
      replacement ++ replaceFrom pattern replacement (pattern.length - 1) rest
    else
      x :: replaceFrom pattern replacement 0 rest

/-- The list with each occurrence of a non-empty pattern replaced. -/
def replaceAll (pattern replacement xs : List α) : List α :=
  replaceFrom pattern replacement 0 xs

end StyledText.Chars
