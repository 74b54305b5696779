import StyledText.Font.Provider
import StyledText.Link
import StyledText.Markdown.Html.Renderer
import StyledText.Markdown.List.Marker

/-!
# Options and errors of a conversion
-/

namespace StyledText.Markdown

/-- How a tree is turned into a text. -/
structure ConversionOptions where
  /-- What relative link destinations are joined to. Ignored if it is no absolute URL. -/
  baseUrl : Option String := none
  /-- What an item is indented by, once for each list that holds it. -/
  indent : String := "\t"
  markers : MarkerStyle := .tiered
  /-- Whether ordered lists count from the number they start with, and not from 1. -/
  respectsListStart : Bool := false
  fonts : Font.Provider := Font.Families.provider {}
  /-- Renders blocks that hold raw markup. -/
  html : HtmlRenderer := .literal
  urls : UrlReader := .schemeless

namespace ConversionOptions

/-- The options that are plain data, for messages. -/
def describe (shows : Char → Bool) (o : ConversionOptions) : String :=
  let baseUrl := match o.baseUrl with
    | some url => "Some(" ++ Chars.quoted shows url ++ ")"
    | none => "None"
  let markers := match o.markers with
    | .tiered => "Tiered"
    | .plain => "Plain"
  "CompileOptions \x7b base_url: " ++ baseUrl ++ ", indent: " ++ Chars.quoted shows o.indent ++
    ", list_markers: " ++ markers ++ ", respect_list_start: " ++
    (if o.respectsListStart then "true" else "false") ++ ", .. \x7d"

end ConversionOptions

/-- Why a tree could not be turned into a text. -/
inductive ConversionError where
  /-- No attachment is known for the destination of an image. -/
  | attachmentMissing (key : String)
  | html (error : HtmlError)
deriving DecidableEq, Repr, Inhabited

namespace ConversionError

def message : ConversionError → String
  | attachmentMissing key => "missing attachment for image \x60" ++ key ++ "\x60"
  | html error => error.message

/-- The error as data, for reports. -/
def describe (shows : Char → Bool) : ConversionError → String
  | attachmentMissing key => "AttachmentMissing \x7b key: " ++ Chars.quoted shows key ++ " \x7d"
  | html error =>
    "HtmlRender(HtmlRenderError \x7b message: " ++ Chars.quoted shows error.detail ++ " \x7d)"

end ConversionError

end StyledText.Markdown
