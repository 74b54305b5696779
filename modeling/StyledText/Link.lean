/-!
# Link targets

Where a link points, and the host service that reads destinations.

A destination that is an absolute URL is kept in its normal form. A relative one is joined to the
base URL if there is one, and otherwise kept as written. Anything else gives no target.
-/

namespace StyledText

/-- An absolute URL in its normal form. -/
structure Url where
  text : String
deriving DecidableEq, Repr, Inhabited

/-- Where a link points. -/
inductive LinkTarget where
  /-- A resolved URL. -/
  | absolute (url : Url)
  /-- A reference that nothing resolved, as written. -/
  | relative (reference : String)
deriving DecidableEq, Repr, Inhabited

namespace LinkTarget

def text : LinkTarget → String
  | absolute url => url.text
  | relative reference => reference

def url? : LinkTarget → Option Url
  | absolute url => some url
  | relative _ => none

end LinkTarget

/-- What a destination turns out to be. -/
inductive Destination where
  | absolute (url : Url)
  /-- Well formed, but meaningful only against a base. -/
  | relative
  | malformed
deriving DecidableEq, Repr, Inhabited

/-- A host service that reads URLs. -/
structure UrlReader where
  /-- Reads a destination on its own. -/
  read : String → Destination
  /-- Resolves a relative reference against a base. -/
  join : Url → String → Option Url

namespace UrlReader

/-- A reader without knowledge of any scheme: all destinations are relative. -/
def schemeless : UrlReader := ⟨fun _ => .relative, fun _ _ => none⟩

/-- The base URL a text names, if that text is an absolute URL. -/
def base? (reader : UrlReader) (text : String) : Option Url :=
  match reader.read text with
  | .absolute url => some url
  | _ => none

/-- The target a link destination stands for. An empty destination is never read. -/
def target? (reader : UrlReader) (base : Option Url) (destination : String) :
    Option LinkTarget :=
  if destination = "" then none
  else match reader.read destination with
    | .absolute url => some (.absolute url)
    | .relative =>
      match base.bind (reader.join · destination) with
      | some url => some (.absolute url)
      | none => some (.relative destination)
    | .malformed => none

end UrlReader

end StyledText
