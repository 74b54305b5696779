import StyledText.Markdown.Event
import StyledText.Markdown.Tree.Basic

/-!
# Trees of events

`Tree.ofEvents` folds a list of events into a tree, one `Draft.step` at a time.

* A start opens a node below the innermost open one, and an end closes that.
* Items hold blocks only. Inline content that comes right inside an item gets a paragraph of its
  own, which no end event closes: it is *implicit*, and goes away as soon as a block or an end
  comes.
* Text is joined to text that stands right before it. Inside a code block, a block of raw markup or
  an image it is added to what that node holds. The tags inside an image leave no trace but the
  text between them.
* A list becomes loose when a paragraph is opened right inside one of its items.
-/

namespace StyledText.Markdown

/-- An open node. -/
structure Frame where
  id : NodeId
  /-- Whether this is a paragraph no event has opened. -/
  implicit : Bool := false
deriving DecidableEq, Repr, Inhabited

/-- A tree under construction. -/
structure Draft where
  tree : Tree
  /-- The open nodes, innermost first. The root is not among them. -/
  frames : List Frame := []
  /-- The number of tags open inside the innermost image. -/
  hidden : Nat := 0
deriving DecidableEq, Repr

namespace Draft

def empty : Draft := { tree := .ofRoot .document }

instance : Inhabited Draft := ⟨empty⟩

/-- The innermost open node. -/
def top (d : Draft) : NodeId :=
  match d.frames with
  | frame :: _ => frame.id
  | [] => Tree.root

def topKind (d : Draft) : Kind := d.tree.kind d.top

def inImage (d : Draft) : Bool := d.topKind.isImage

/-- Adds a node without opening it. -/
def addLeaf (d : Draft) (kind : Kind) : Draft := { d with tree := d.tree.push d.top kind }

/-- Adds a node and opens it. -/
def openNode (d : Draft) (kind : Kind) (implicit : Bool) : Draft :=
  { d with
    tree := d.tree.push d.top kind
    frames := ⟨d.tree.size, implicit⟩ :: d.frames }

def close (d : Draft) : Draft := { d with frames := d.frames.tail }

/-- Closes the innermost open node if it is an implicit paragraph. -/
def closeImplicit (d : Draft) : Draft :=
  match d.frames with
  | ⟨_, true⟩ :: outer => { d with frames := outer }
  | _ => d

/-- Opens an implicit paragraph if the innermost open node is an item. -/
def ensureInline (d : Draft) : Draft :=
  if d.topKind = .item then d.openNode .paragraph true else d

/-- Loosens the list whose item is the innermost open node. -/
def loosen (d : Draft) : Draft :=
  if d.topKind = .item then
    match d.tree.parent? d.top with
    | some list => { d with tree := d.tree.modifyKind list Kind.loosened }
    | none => d
  else d

/-- Adds text to what a node holds. -/
def extend (d : Draft) (id : NodeId) (s : String) : Draft :=
  { d with tree := d.tree.modifyKind id (Kind.appending s) }

def addInline (d : Draft) (kind : Kind) : Draft := d.ensureInline.addLeaf kind

/-- Adds text below the innermost open node, to the text that comes last there if it can. -/
def addTextNode (d : Draft) (s : String) : Draft :=
  match (d.tree.children d.top).getLast? with
  | some last =>
    match d.tree.kind last with
    | .text _ => d.extend last s
    | _ => d.addLeaf (.text s)
  | none => d.addLeaf (.text s)

def addText (d : Draft) (s : String) : Draft :=
  match d.topKind with
  | .codeBlock .. | .htmlBlock _ | .image .. => d.extend d.top s
  | _ => d.ensureInline.addTextNode s

def openTag (d : Draft) (tag : Tag) : Draft :=
  let d := if tag.isInline then d.ensureInline else d.closeImplicit
  let d := if tag = .paragraph then d.loosen else d
  d.openNode tag.kind false

def step (d : Draft) : Event → Draft
  | .start tag => if d.inImage then { d with hidden := d.hidden + 1 } else d.openTag tag
  | .stop =>
    if d.inImage && 0 < d.hidden then { d with hidden := d.hidden - 1 }
    else d.closeImplicit.close
  | .text s => d.addText s
  | .code s => if d.inImage then d.extend d.top s else d.addInline (.code s)
  | .html s => if d.topKind.isHtmlBlock then d.addText s else d.addInline (.inlineHtml s)
  | .inlineHtml s => d.addInline (.inlineHtml s)
  | .softBreak => if d.inImage then d.extend d.top " " else d.addInline .softBreak
  | .hardBreak => if d.inImage then d.extend d.top " " else d.addInline .hardBreak
  | .rule => d.closeImplicit.addLeaf .thematicBreak
  | .footnoteReference _ => d.addInline (.unsupported "footnote_reference")
  | .taskListMarker _ => d.addInline (.unsupported "task_list_marker")
  | .math _ => d.addInline (.unsupported "math")

def run (d : Draft) (events : List Event) : Draft := events.foldl step d

end Draft

/-- The tree of a list of events. -/
def Tree.ofEvents (events : List Event) : Tree := (Draft.empty.run events).tree

/-- The tree of a Markdown source. -/
def Tree.read (reader : Reader) (extensions : Extensions) (source : String) : Tree :=
  .ofEvents (reader.events extensions source)

end StyledText.Markdown
