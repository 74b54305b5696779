import StyledText.Markdown.Kind

/-!
# Markdown trees

A tree owns its nodes in one array and names them by their index. Each node knows its parent and
its children.

* The root has the index 0.
* Nodes are only added, as the last child of a node already there. So a parent has a smaller index
  than its children, and the children of a node have increasing indices.
-/

namespace StyledText.Markdown

/-- The name of a node: its index. -/
abbrev NodeId := Nat

/-- A node and its links. -/
structure Node where
  kind : Kind := .document
  parent : Option NodeId := none
  children : List NodeId := []
deriving DecidableEq, Repr, Inhabited

structure Tree where
  nodes : Array Node
deriving DecidableEq, Repr, Inhabited

namespace Tree

def ofRoot (kind : Kind) : Tree := ⟨#[{ kind }]⟩

def root : NodeId := 0

def size (t : Tree) : Nat := t.nodes.size

def isEmpty (t : Tree) : Bool := t.nodes.isEmpty

/-- The node of a given name. A name that the tree does not know stands for a lone document. -/
def node (t : Tree) (id : NodeId) : Node := t.nodes[id]?.getD {}

def kind (t : Tree) (id : NodeId) : Kind := (t.node id).kind

def parent? (t : Tree) (id : NodeId) : Option NodeId := (t.node id).parent

def children (t : Tree) (id : NodeId) : List NodeId := (t.node id).children

/-- The tree with a new last child of `parent`. The new node has the name `t.size`. -/
def push (t : Tree) (parent : NodeId) (kind : Kind) : Tree :=
  ⟨(t.nodes.modify parent fun n => { n with children := n.children ++ [t.size] }).push
    { kind, parent := some parent }⟩

/-- The tree with a node of another kind, in the same place. -/
def modifyKind (t : Tree) (id : NodeId) (f : Kind → Kind) : Tree :=
  ⟨t.nodes.modify id fun n => { n with kind := f n.kind }⟩

/-- A node, its parent, and so on, in no more than `steps` steps. -/
def chain (t : Tree) : Nat → NodeId → List NodeId
  | 0, id => [id]
  | steps + 1, id =>
    match t.parent? id with
    | some p => id :: t.chain steps p
    | none => [id]

/-- A node, its parent, and so on up to the root. There are at most as many as nodes. -/
def ancestors (t : Tree) (id : NodeId) : List NodeId := t.chain t.size id

end Tree

end StyledText.Markdown
