import StyledText.Markdown.Tree.Basic

/-!
# Outlines

An outline is a Markdown tree without names: a kind and the outlines of the children. It is what
all that only looks downwards works on.
-/

namespace StyledText.Markdown

/-- A node and everything below it. -/
inductive Outline where
  | node (kind : Kind) (children : List Outline)
deriving Repr, Inhabited

namespace Outline

def kind : Outline → Kind
  | node kind _ => kind

def children : Outline → List Outline
  | node _ children => children

end Outline

namespace Tree

/-- What is below a node, down to a given depth. -/
def outlineTo (t : Tree) : Nat → NodeId → Outline
  | 0, id => .node (t.kind id) []
  | depth + 1, id => .node (t.kind id) ((t.children id).map (t.outlineTo depth))

/-- A node and everything below it. No path is longer than there are nodes. -/
def outline (t : Tree) (id : NodeId) : Outline := t.outlineTo t.size id

/-- The kinds of the lists that hold a node, innermost first. The node itself does not count. -/
def enclosingLists (t : Tree) (id : NodeId) : List ListKind :=
  (t.ancestors id).tail.filterMap fun a => (t.kind a).list?

end Tree

end StyledText.Markdown
