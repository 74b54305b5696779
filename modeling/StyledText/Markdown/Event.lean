import StyledText.Markdown.Kind

/-!
# Markdown events

How a reader of Markdown reports what it finds: tags that open and close, and content between them.
The grammar of Markdown is the business of that reader, a service of the host.
-/

namespace StyledText.Markdown

/-- A construct that is opened and later closed. -/
inductive Tag where
  | paragraph
  | heading (level : Nat)
  | blockQuote
  /-- Code in lines of its own, indented or, with `info`, between fences. -/
  | codeBlock (info : Option String)
  | htmlBlock
  /-- A list, ordered if it has a number to start from. -/
  | list (start : Option Nat)
  | item
  | footnoteDefinition (label : String)
  | table
  | tableHead
  | tableRow
  | tableCell
  | emphasis
  | strong
  | strikethrough
  | link (destination title : String)
  | image (destination title : String)
  /-- A construct of an extension that is never asked for. -/
  | extension
deriving DecidableEq, Repr, Inhabited

namespace Tag

def isInline : Tag → Bool
  | emphasis | strong | strikethrough | link .. | image .. => true
  | _ => false

/-- The kind of node a construct becomes. Lists are tight until they turn out not to be. -/
def kind : Tag → Kind
  | paragraph => .paragraph
  | heading level => .heading level
  | blockQuote => .blockQuote
  | codeBlock info => .codeBlock (info.getD "") ""
  | htmlBlock => .htmlBlock ""
  | list none => .list .bullet 1 true
  | list (some start) => .list .ordered start true
  | item => .item
  | footnoteDefinition _ => .unsupported "footnote_definition"
  | table => .unsupported "table"
  | tableHead => .unsupported "table_head"
  | tableRow => .unsupported "table_row"
  | tableCell => .unsupported "table_cell"
  | emphasis => .emphasis
  | strong => .strong
  | strikethrough => .unsupported "strikethrough"
  | link destination title => .link destination title
  | image destination title => .image destination title ""
  | extension => .unsupported "extension"

end Tag

/-- One thing a reader reports. -/
inductive Event where
  | start (tag : Tag)
  /-- The end of the innermost open tag. -/
  | stop
  | text (s : String)
  | code (s : String)
  /-- A line of a block of raw markup. -/
  | html (s : String)
  | inlineHtml (s : String)
  | footnoteReference (label : String)
  | math (s : String)
  | softBreak
  | hardBreak
  | rule
  | taskListMarker (done : Bool)
deriving DecidableEq, Repr, Inhabited

/-- Extensions of the grammar, all off unless asked for. -/
structure Extensions where
  tables : Bool := false
  strikethrough : Bool := false
  footnotes : Bool := false
  taskLists : Bool := false
  smartPunctuation : Bool := false
deriving DecidableEq, Repr, Inhabited

/-- A host service that reads Markdown. -/
structure Reader where
  events : Extensions → String → List Event

end StyledText.Markdown
