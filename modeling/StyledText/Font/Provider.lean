import StyledText.Font.Basic

/-!
# Font providers

A host decides which faces exist. `Provider` lists the questions that are put to it, and
`Families` answers them from two family names.
-/

namespace StyledText.Font

/-- The answers of a host font system. -/
structure Provider where
  /-- The font of text for which none is set. -/
  defaultFont : Font
  /-- The fixed-pitch variant of a font, at the same size. -/
  monospaced : Font → Font
  /-- The font with further traits. -/
  addingTraits : Font → Traits → Font := withTraits
  /-- The font at another size. -/
  resized : Font → Size → Font := withSize

/-- Two families, one proportional and one of fixed pitch. -/
structure Families where
  family : String := "system-ui"
  monospaceFamily : String := "monospace"
  /-- The size of text for which no font is set. -/
  size : Size := 13.0
  /-- Whether the fixed-pitch family has bold and italic faces. Without them, a switch to it
  drops all other traits. -/
  combinesTraits : Bool := true
deriving DecidableEq, Repr, Inhabited

namespace Families

/-- The proportional family at the common size, upright and regular. -/
def defaultFont (fs : Families) : Font := ⟨fs.family, fs.size, {}⟩

/-- The fixed-pitch family at the size of `f`. -/
def monospaced (fs : Families) (f : Font) : Font :=
  { family := fs.monospaceFamily
    size := f.size
    traits := if fs.combinesTraits then { f.traits with monospace := true }
      else { monospace := true } }

/-- The font system that knows these two families. -/
def provider (fs : Families) : Provider :=
  { defaultFont := fs.defaultFont, monospaced := fs.monospaced }

end Families

end StyledText.Font
