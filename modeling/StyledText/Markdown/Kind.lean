/-!
# Kinds of Markdown nodes

What a node of a Markdown tree is. Blocks hold blocks or inline content; inline nodes hold inline
content or a text of their own, the *literal*.
-/

namespace StyledText.Markdown

/-- The two kinds of lists. -/
inductive ListKind where
  | bullet
  | ordered
deriving DecidableEq, Repr, Inhabited

/-- The kind of a node, with what is particular to it. -/
inductive Kind where
  | document
  | blockQuote
  | paragraph
  | heading (level : Nat)
  /-- Code in lines of its own; `info` is what stands after the opening fence. -/
  | codeBlock (info literal : String)
  /-- Raw markup in lines of its own. -/
  | htmlBlock (literal : String)
  /-- A list. In a tight one the items' paragraphs are not set apart. -/
  | list (kind : ListKind) (start : Nat) (tight : Bool)
  | item
  | thematicBreak
  | text (literal : String)
  | code (literal : String)
  /-- Raw markup inside a line. -/
  | inlineHtml (literal : String)
  | emphasis
  | strong
  | link (destination title : String)
  /-- An image. `alt` is the text of its description. -/
  | image (destination title alt : String)
  | softBreak
  | hardBreak
  /-- A construct that is recognized, but gets no styling. -/
  | unsupported (name : String)
deriving DecidableEq, Repr, Inhabited

namespace Kind

def literal? : Kind → Option String
  | text s | code s | inlineHtml s | codeBlock _ s | htmlBlock s => some s
  | _ => none

def list? : Kind → Option ListKind
  | list kind _ _ => some kind
  | _ => none

def isImage : Kind → Bool
  | image .. => true
  | _ => false

/-- Whether this is a block of raw markup. -/
def isHtmlBlock : Kind → Bool
  | htmlBlock _ => true
  | _ => false

/-- The kind with more text, for kinds that gather text as it comes in. -/
def appending (more : String) : Kind → Kind
  | codeBlock info s => codeBlock info (s ++ more)
  | htmlBlock s => htmlBlock (s ++ more)
  | text s => text (s ++ more)
  | image destination title alt => image destination title (alt ++ more)
  | kind => kind

/-- The kind with its items set apart, for lists. -/
def loosened : Kind → Kind
  | list kind start _ => list kind start false
  | kind => kind

end Kind

end StyledText.Markdown
