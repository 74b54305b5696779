import StyledText.Markdown.Tree.OfEvents

/-!
# Drafts as zippers

A draft keeps all nodes in one array. A `Zipper` keeps them where they belong: the innermost open
node and those that hold it, each with what is already closed below it. Nodes are numbered in the
order in which they are opened, so a zipper determines the array (`Zipper.tree`) and the whole draft
(`Zipper.draft`). Every step of a draft is a step of its zipper (`draft_step`, `draft_run`).
-/

namespace StyledText.Markdown

/-! ## Arrays of nodes -/

namespace Tree

/-- The tree of nodes given in the order of their names. -/
def ofNodes (nodes : List Node) : Tree := ⟨nodes.toArray⟩

/-- What stands right behind `l` is at the length of `l`. -/
theorem modify_middle (l r : List Node) (n : Node) (f : Node → Node) :
    (l ++ n :: r).modify l.length f = l ++ f n :: r := by
  induction l with
  | nil => rfl
  | cons m l ih => rw [List.cons_append, List.length_cons, List.modify_succ_cons, ih]; rfl

variable {l : List Node} {id : Nat} (hid : l.length = id) (n : Node) (r : List Node)
include hid

/-- The node behind others has their number as its name. -/
theorem node_ofNodes : (ofNodes (l ++ n :: r)).node id = n := by
  simp [node, ofNodes, ← hid]

theorem modifyKind_ofNodes (f : Kind → Kind) : (ofNodes (l ++ n :: r)).modifyKind id f =
    ofNodes (l ++ { n with kind := f n.kind } :: r) := by
  unfold modifyKind ofNodes
  rw [List.modify_toArray, ← hid, modify_middle]

/-- A new node comes last and is a child of the one in the middle. -/
theorem push_ofNodes (kind : Kind) : (ofNodes (l ++ n :: r)).push id kind =
    ofNodes (l ++ { n with children := n.children ++ [(l ++ n :: r).length] } :: r ++
      [{ kind, parent := some id }]) := by
  unfold push ofNodes
  rw [List.modify_toArray, ← hid, modify_middle, List.push_toArray]
  rfl

end Tree

/-! ## Marked outlines -/

/-- A node and everything below it, with a mark on the nodes that no event has opened. -/
inductive Marked where
  | node (kind : Kind) (implicit : Bool) (children : List Marked)
deriving Repr, Inhabited

namespace Marked

def kind : Marked → Kind
  | node kind _ _ => kind

mutual

def size : Marked → Nat
  | node _ _ children => 1 + sizeAll children

def sizeAll : List Marked → Nat
  | [] => 0
  | o :: rest => o.size + sizeAll rest

end

/-- The names of nodes in a row, the first one `id`. -/
def ids (id : Nat) : List Marked → List Nat
  | [] => []
  | o :: rest => id :: ids (id + o.size) rest

mutual

/-- The nodes in the order of their names, the first one `id`. -/
def nodes (parent id : Nat) : Marked → List Node
  | node kind _ children =>
    { kind, parent := some parent, children := ids (id + 1) children } ::
      nodesAll id (id + 1) children

def nodesAll (parent id : Nat) : List Marked → List Node
  | [] => []
  | o :: rest => o.nodes parent id ++ nodesAll parent (id + o.size) rest

end

/-- Names of nodes go on from those before. -/
theorem ids_append (id : Nat) (l m : List Marked) :
    ids id (l ++ m) = ids id l ++ ids (id + sizeAll l) m := by
  induction l generalizing id with
  | nil => simp [sizeAll, ids]
  | cons o rest ih => simp [sizeAll, ids, ih, Nat.add_assoc]

/-- Nodes go on from those before. -/
theorem nodesAll_append (parent id : Nat) (l m : List Marked) :
    nodesAll parent id (l ++ m) = nodesAll parent id l ++ nodesAll parent (id + sizeAll l) m := by
  induction l generalizing id with
  | nil => simp [sizeAll, nodesAll]
  | cons o rest ih => simp [sizeAll, nodesAll, ih, Nat.add_assoc]

mutual

theorem length_nodes (parent id : Nat) : (o : Marked) → (o.nodes parent id).length = o.size
  | node _ _ children => by
    rw [nodes, size, List.length_cons, length_nodesAll id (id + 1) children, Nat.add_comm]

theorem length_nodesAll (parent id : Nat) :
    (l : List Marked) → (nodesAll parent id l).length = sizeAll l
  | [] => rfl
  | o :: rest => by
    rw [nodesAll, sizeAll, List.length_append, length_nodes parent id o,
      length_nodesAll parent (id + o.size) rest]

end

end Marked

/-! ## Zippers -/

/-- An open node with the nodes that are closed right below it. -/
structure Level where
  kind : Kind
  implicit : Bool := false
  done : List Marked := []
deriving Repr, Inhabited

namespace Level

/-- The number of nodes, the open one included. -/
def width (l : Level) : Nat := 1 + Marked.sizeAll l.done

def widthAll : List Level → Nat
  | [] => 0
  | l :: outer => l.width + widthAll outer

/-- The node that holds the node of a level, from the levels outside. -/
def parentIn : List Level → Option Nat
  | [] => none
  | _ :: outer => some (widthAll outer)

/-- The open node itself. The node that is open right below it is `inside`. -/
def node (l : Level) (outer : List Level) (inside : Option Nat) : Node :=
  { kind := l.kind
    parent := parentIn outer
    children := Marked.ids (widthAll outer + 1) l.done ++ inside.toList }

/-- The nodes that are closed below a level, in the order of their names. -/
def closed (l : Level) (outer : List Level) : List Node :=
  Marked.nodesAll (widthAll outer) (widthAll outer + 1) l.done

/-- The nodes of all levels, in the order of their names. -/
def nodes (inside : Option Nat) : List Level → List Node
  | [] => []
  | l :: outer => nodes (some (widthAll outer)) outer ++ l.node outer inside :: l.closed outer

theorem widthAll_cons (l : Level) (outer : List Level) :
    widthAll (l :: outer) = l.width + widthAll outer := rfl

theorem length_closed (l : Level) (outer : List Level) :
    (l.closed outer).length = Marked.sizeAll l.done := Marked.length_nodesAll _ _ _

/-- The levels have as many nodes as they are wide. -/
theorem length_nodes (inside : Option Nat) (levels : List Level) :
    (nodes inside levels).length = widthAll levels := by
  induction levels generalizing inside with
  | nil => rfl
  | cons l outer ih =>
    rw [nodes, List.length_append, ih, List.length_cons, length_closed, widthAll_cons, width]
    omega

/-- The frames of the levels above the root. -/
def frames : List Level → List Frame
  | [] | [_] => []
  | l :: outer => ⟨widthAll outer, l.implicit⟩ :: frames outer

def append (l : Level) (o : Marked) : Level := { l with done := l.done ++ [o] }

end Level

/-- A tree under construction. -/
structure Zipper where
  /-- The innermost open node. -/
  top : Level
  /-- The nodes that hold it, innermost first. The last one is the root. -/
  outer : List Level := []
  hidden : Nat := 0
deriving Repr, Inhabited

namespace Zipper

def empty : Zipper := { top := { kind := .document } }

def levels (z : Zipper) : List Level := z.top :: z.outer

/-- The tree with all levels closed. -/
def tree (z : Zipper) : Tree := .ofNodes (Level.nodes none z.levels)

/-- The draft that a zipper stands for. -/
def draft (z : Zipper) : Draft :=
  { tree := z.tree, frames := Level.frames z.levels, hidden := z.hidden }

/-! ## Steps -/

def append (z : Zipper) (o : Marked) : Zipper := { z with top := z.top.append o }

def addLeaf (z : Zipper) (kind : Kind) : Zipper := z.append (.node kind false [])

def openNode (z : Zipper) (kind : Kind) (implicit : Bool) : Zipper :=
  { z with top := { kind, implicit }, outer := z.top :: z.outer }

def close (z : Zipper) : Zipper :=
  match z.outer with
  | [] => z
  | l :: outer =>
    { z with top := l.append (.node z.top.kind z.top.implicit z.top.done), outer }

def closeImplicit (z : Zipper) : Zipper := if z.top.implicit then z.close else z

def ensureInline (z : Zipper) : Zipper :=
  if z.top.kind = .item then z.openNode .paragraph true else z

def modifyTop (z : Zipper) (f : Kind → Kind) : Zipper :=
  { z with top := { z.top with kind := f z.top.kind } }

/-- The levels with the innermost one loosened. -/
def loosenHead : List Level → List Level
  | [] => []
  | l :: outer => { l with kind := l.kind.loosened } :: outer

def loosen (z : Zipper) : Zipper :=
  if z.top.kind = .item then { z with outer := loosenHead z.outer } else z

def extend (z : Zipper) (s : String) : Zipper := z.modifyTop (Kind.appending s)

def addInline (z : Zipper) (kind : Kind) : Zipper := z.ensureInline.addLeaf kind

def addTextNode (z : Zipper) (s : String) : Zipper :=
  match z.top.done.getLast? with
  | some (.node (.text r) implicit children) =>
    { z with top := { z.top with
      done := z.top.done.dropLast ++ [.node (.text (r ++ s)) implicit children] } }
  | _ => z.addLeaf (.text s)

def addText (z : Zipper) (s : String) : Zipper :=
  match z.top.kind with
  | .codeBlock .. | .htmlBlock _ | .image .. => z.extend s
  | _ => z.ensureInline.addTextNode s

def openTag (z : Zipper) (tag : Tag) : Zipper :=
  let z := if tag.isInline then z.ensureInline else z.closeImplicit
  let z := if tag = .paragraph then z.loosen else z
  z.openNode tag.kind false

def inImage (z : Zipper) : Bool := z.top.kind.isImage

def step (z : Zipper) : Event → Zipper
  | .start tag => if z.inImage then { z with hidden := z.hidden + 1 } else z.openTag tag
  | .stop =>
    if z.inImage && 0 < z.hidden then { z with hidden := z.hidden - 1 }
    else z.closeImplicit.close
  | .text s => z.addText s
  | .code s => if z.inImage then z.extend s else z.addInline (.code s)
  | .html s => if z.top.kind.isHtmlBlock then z.addText s else z.addInline (.inlineHtml s)
  | .inlineHtml s => z.addInline (.inlineHtml s)
  | .softBreak => if z.inImage then z.extend " " else z.addInline .softBreak
  | .hardBreak => if z.inImage then z.extend " " else z.addInline .hardBreak
  | .rule => z.closeImplicit.addLeaf .thematicBreak
  | .footnoteReference _ => z.addInline (.unsupported "footnote_reference")
  | .taskListMarker _ => z.addInline (.unsupported "task_list_marker")
  | .math _ => z.addInline (.unsupported "math")

def run (z : Zipper) (events : List Event) : Zipper := events.foldl step z

/-! ## Steps of a zipper are steps of its draft -/

/-- The innermost open node comes before what is closed below it. -/
theorem tree_eq (z : Zipper) : z.tree = .ofNodes
    (Level.nodes (some (Level.widthAll z.outer)) z.outer ++
      z.top.node z.outer none :: z.top.closed z.outer) := rfl

/-- The tree is as wide as its levels. -/
theorem size_tree (z : Zipper) : z.tree.size = Level.widthAll z.levels :=
  Level.length_nodes none z.levels

/-- The innermost open node comes after all levels outside. -/
theorem draft_top (z : Zipper) : z.draft.top = Level.widthAll z.outer := by
  rcases z with ⟨top, outer, hidden⟩
  cases outer <;> rfl

/-- The innermost open node is at its place in the tree. -/
theorem node_top (z : Zipper) : z.tree.node (Level.widthAll z.outer) = z.top.node z.outer none :=
  Tree.node_ofNodes (Level.length_nodes _ z.outer) _ _

/-- The innermost open node has its kind. -/
theorem draft_topKind (z : Zipper) : z.draft.topKind = z.top.kind := by
  rw [Draft.topKind, draft_top, Tree.kind]
  exact congrArg Node.kind z.node_top

/-- Zipper and draft are in an image together. -/
theorem draft_inImage (z : Zipper) : z.draft.inImage = z.inImage := by
  rw [Draft.inImage, draft_topKind, inImage]

theorem tree_modifyTop (z : Zipper) (f : Kind → Kind) :
    z.tree.modifyKind (Level.widthAll z.outer) f = (z.modifyTop f).tree :=
  Tree.modifyKind_ofNodes (Level.length_nodes _ z.outer) _ _ f

/-- A new node in the tree comes last. -/
theorem push_top (z : Zipper) (kind : Kind) : z.tree.push (Level.widthAll z.outer) kind = .ofNodes
    (Level.nodes (some (Level.widthAll z.outer)) z.outer ++
      z.top.node z.outer (some (Level.widthAll z.levels)) :: z.top.closed z.outer ++
      [{ kind, parent := some (Level.widthAll z.outer) }]) := by
  have hlength : (Level.nodes (some (Level.widthAll z.outer)) z.outer ++
      z.top.node z.outer none :: z.top.closed z.outer).length = Level.widthAll z.levels :=
    Level.length_nodes none z.levels
  rw [tree_eq, Tree.push_ofNodes (Level.length_nodes _ z.outer), hlength]
  simp [Level.node]

/-- A new leaf is a new node in the tree. -/
theorem tree_addLeaf (z : Zipper) (kind : Kind) :
    z.tree.push (Level.widthAll z.outer) kind = (z.addLeaf kind).tree := by
  -- The only node that changes is the one that is open: it gets one more child.
  have hnode : (z.addLeaf kind).top.node z.outer none =
      z.top.node z.outer (some (Level.widthAll z.levels)) := by
    simp [addLeaf, append, Level.append, Level.node, Marked.ids_append, Marked.ids, levels,
      Level.widthAll_cons, Level.width]
    omega
  have hclosed : (z.addLeaf kind).top.closed z.outer = z.top.closed z.outer ++
      [{ kind, parent := some (Level.widthAll z.outer) }] := by
    simp [addLeaf, append, Level.append, Level.closed, Marked.nodesAll_append, Marked.nodesAll,
      Marked.nodes, Marked.ids]
  rw [push_top, tree_eq (z.addLeaf kind)]
  change _ = Tree.ofNodes (_ ++ (z.addLeaf kind).top.node z.outer none ::
    (z.addLeaf kind).top.closed z.outer)
  rw [hnode, hclosed, List.append_assoc, List.cons_append]
  rfl

/-- A new open node is a new node in the tree. -/
theorem tree_openNode (z : Zipper) (kind : Kind) (implicit : Bool) :
    z.tree.push (Level.widthAll z.outer) kind = (z.openNode kind implicit).tree := by
  rw [push_top]
  rfl

/-- Closing changes no node. -/
theorem tree_close (z : Zipper) : z.tree = z.close.tree := by
  rcases z with ⟨top, outer, hidden⟩
  cases outer with
  | nil => rfl
  | cons l outer =>
    have hnode : (l.append (.node top.kind top.implicit top.done)).node outer none =
        l.node outer (some (Level.widthAll (l :: outer))) := by
      simp [Level.append, Level.node, Marked.ids_append, Marked.ids, Level.widthAll_cons,
        Level.width]
      omega
    -- The node that is closed keeps its name, as it comes after all that was closed before it.
    have hid : Level.widthAll outer + 1 + Marked.sizeAll l.done = Level.widthAll (l :: outer) := by
      rw [Level.widthAll_cons, Level.width]
      omega
    have hclosed : (l.append (.node top.kind top.implicit top.done)).closed outer =
        l.closed outer ++ top.node (l :: outer) none :: top.closed (l :: outer) := by
      simp [Level.append, Level.closed, Level.node, Level.parentIn, Marked.nodesAll_append,
        Marked.nodesAll, Marked.nodes, hid]
    unfold tree close levels
    simp only [Level.nodes]
    rw [hnode, hclosed, List.append_assoc, List.cons_append]

theorem draft_close (z : Zipper) : z.draft.close = z.close.draft := by
  have htree := z.tree_close
  rcases z with ⟨top, outer, hidden⟩
  unfold Draft.close draft
  rw [htree]
  cases outer with
  | nil => rfl
  | cons l outer => cases outer <;> rfl

theorem draft_closeImplicit (z : Zipper) : z.draft.closeImplicit = z.closeImplicit.draft := by
  have hclose := z.draft_close
  rcases z with ⟨⟨kind, implicit, done⟩, outer, hidden⟩
  unfold closeImplicit
  cases implicit with
  | false => cases outer <;> rfl
  | true =>
    rw [if_pos rfl, ← hclose]
    cases outer <;> rfl

theorem draft_addLeaf (z : Zipper) (kind : Kind) :
    z.draft.addLeaf kind = (z.addLeaf kind).draft := by
  have htree := z.tree_addLeaf kind
  unfold Draft.addLeaf
  rw [draft_top]
  change Draft.mk (z.tree.push _ kind) _ _ = _
  rw [htree]
  rcases z with ⟨top, outer, hidden⟩
  cases outer <;> rfl

theorem draft_openNode (z : Zipper) (kind : Kind) (implicit : Bool) :
    z.draft.openNode kind implicit = (z.openNode kind implicit).draft := by
  have htree := z.tree_openNode kind implicit
  unfold Draft.openNode
  rw [draft_top]
  change Draft.mk (z.tree.push _ kind) (⟨z.tree.size, implicit⟩ :: _) _ = _
  rw [htree, size_tree]
  rfl

theorem draft_ensureInline (z : Zipper) : z.draft.ensureInline = z.ensureInline.draft := by
  unfold Draft.ensureInline ensureInline
  rw [draft_topKind, draft_openNode]
  split <;> rfl

theorem draft_addInline (z : Zipper) (kind : Kind) :
    z.draft.addInline kind = (z.addInline kind).draft := by
  rw [Draft.addInline, draft_ensureInline, draft_addLeaf, addInline]

theorem draft_modifyTop (z : Zipper) (f : Kind → Kind) :
    { z.draft with tree := z.draft.tree.modifyKind z.draft.top f } = (z.modifyTop f).draft := by
  rw [draft_top]
  change Draft.mk (z.tree.modifyKind _ f) _ _ = _
  rw [tree_modifyTop]
  rcases z with ⟨top, outer, hidden⟩
  cases outer <;> rfl

theorem draft_extend (z : Zipper) (s : String) :
    z.draft.extend z.draft.top s = (z.extend s).draft := draft_modifyTop z (Kind.appending s)

/-- The parent of the innermost open node is the next level outside. -/
theorem draft_parent?_top (z : Zipper) :
    z.draft.tree.parent? z.draft.top = Level.parentIn z.outer := by
  rw [draft_top]
  exact congrArg Node.parent z.node_top

/-- The list around an item is the level right outside of it. -/
theorem draft_loosen (z : Zipper) : z.draft.loosen = z.loosen.draft := by
  -- The parent that the draft looks up is the level that the zipper changes.
  unfold Draft.loosen loosen
  rw [draft_topKind, draft_parent?_top]
  split
  · rcases z with ⟨top, outer, hidden⟩
    cases outer with
    | nil => rfl
    | cons l outer =>
      have htree : (Zipper.mk top (l :: outer) hidden).tree = .ofNodes
          (Level.nodes (some (Level.widthAll outer)) outer ++
            l.node outer (some (Level.widthAll (l :: outer))) ::
              (l.closed outer ++ top.node (l :: outer) none :: top.closed (l :: outer))) := by
        simp only [tree, levels, Level.nodes]
        rw [List.append_assoc, List.cons_append]
      change Draft.mk (Tree.modifyKind (Zipper.tree _) (Level.widthAll outer) _) _ _ = _
      rw [htree, Tree.modifyKind_ofNodes (Level.length_nodes _ outer)]
      simp only [draft, tree, levels, loosenHead, Level.nodes]
      rw [List.append_assoc, List.cons_append]
      cases outer <;> rfl
  · rfl

/-- The nodes that come before the one that was closed last. -/
def beforeLast (top : Level) (outer : List Level) (init : List Marked) : List Node :=
  Level.nodes (some (Level.widthAll outer)) outer ++
    { kind := top.kind
      parent := Level.parentIn outer
      children := Marked.ids (Level.widthAll outer + 1) init ++
        [Level.widthAll outer + 1 + Marked.sizeAll init] } ::
      Marked.nodesAll (Level.widthAll outer) (Level.widthAll outer + 1) init

/-- How many nodes come before the last closed one. -/
theorem length_beforeLast (top : Level) (outer : List Level) (init : List Marked) :
    (beforeLast top outer init).length = Level.widthAll outer + 1 + Marked.sizeAll init := by
  rw [beforeLast, List.length_append, List.length_cons, Level.length_nodes, Marked.length_nodesAll]
  omega

/-- The nodes of the last closed node come last. -/
theorem tree_of_done {z : Zipper} {init : List Marked} {o : Marked}
    (hdone : z.top.done = init ++ [o]) : z.tree = .ofNodes (beforeLast z.top z.outer init ++
      o.nodes (Level.widthAll z.outer) (Level.widthAll z.outer + 1 + Marked.sizeAll init)) := by
  rw [tree_eq, Level.node, Level.closed, hdone]
  simp only [beforeLast, Marked.ids_append, Marked.ids, Marked.nodesAll_append, Marked.nodesAll,
    Option.toList_none, List.append_nil, List.append_assoc, List.cons_append]

section Last

variable {z : Zipper} {init : List Marked} {kind : Kind} {implicit : Bool} {children : List Marked}
  (hdone : z.top.done = init ++ [.node kind implicit children])
include hdone

/-- The last closed node is at its place in the tree. -/
theorem kind_last :
    z.draft.tree.kind (Level.widthAll z.outer + 1 + Marked.sizeAll init) = kind := by
  change z.tree.kind _ = _
  rw [tree_of_done hdone, Tree.kind, Marked.nodes, Tree.node_ofNodes (length_beforeLast _ _ _)]

/-- Changing the last closed node changes it in the tree. -/
theorem draft_modifyLast (f : Kind → Kind) :
    { z.draft with
      tree := z.draft.tree.modifyKind (Level.widthAll z.outer + 1 + Marked.sizeAll init) f } =
    ({ z with top := { z.top with
      done := init ++ [.node (f kind) implicit children] } } : Zipper).draft := by
  change Draft.mk (z.tree.modifyKind _ f) _ _ = _
  rw [tree_of_done hdone, Marked.nodes, Tree.modifyKind_ofNodes (length_beforeLast _ _ _), draft]
  congr 1
  · exact (tree_of_done (z := { z with top := { z.top with
      done := init ++ [.node (f kind) implicit children] } }) rfl).symm
  · rcases z with ⟨top, outer, hidden⟩
    cases outer <;> rfl

end Last

/-- Text joins the same node in both, or both add a new one. -/
theorem draft_addTextNode (z : Zipper) (s : String) :
    z.draft.addTextNode s = (z.addTextNode s).draft := by
  have hchildren : z.draft.tree.children z.draft.top =
      Marked.ids (Level.widthAll z.outer + 1) z.top.done := by
    rw [draft_top]
    have hnode := congrArg Node.children z.node_top
    rw [Level.node, Option.toList_none, List.append_nil] at hnode
    exact hnode
  -- The last child of the draft is the last closed node, and text joins it only if it is a text.
  unfold Draft.addTextNode addTextNode
  rw [hchildren]
  rcases List.eq_nil_or_concat z.top.done with hnone | ⟨init, ⟨kind, implicit, children⟩, hdone⟩
  · rw [hnone]
    exact draft_addLeaf z _
  · rw [List.concat_eq_append] at hdone
    simp only [hdone, Marked.ids_append, Marked.ids, List.getLast?_concat, List.dropLast_concat,
      kind_last hdone]
    cases kind with
    | text r => exact draft_modifyLast hdone (Kind.appending s)
    | _ => exact draft_addLeaf z _

theorem draft_addText (z : Zipper) (s : String) : z.draft.addText s = (z.addText s).draft := by
  have hplain : z.draft.ensureInline.addTextNode s = (z.ensureInline.addTextNode s).draft := by
    rw [draft_ensureInline, draft_addTextNode]
  unfold Draft.addText addText
  rw [draft_topKind]
  cases z.top.kind with
  | codeBlock | htmlBlock | image => exact draft_extend z s
  | _ => exact hplain

theorem draft_openTag (z : Zipper) (tag : Tag) : z.draft.openTag tag = (z.openTag tag).draft := by
  have hroom : (if tag.isInline then z.draft.ensureInline else z.draft.closeImplicit) =
      (if tag.isInline then z.ensureInline else z.closeImplicit).draft := by
    split
    · exact draft_ensureInline z
    · exact draft_closeImplicit z
  unfold Draft.openTag openTag
  simp only [hroom]
  split
  · rw [draft_loosen, draft_openNode]
  · rw [draft_openNode]

/-- Every step of a draft is a step of its zipper. -/
theorem draft_step (z : Zipper) (e : Event) : z.draft.step e = (z.step e).draft := by
  have hhidden : z.draft.hidden = z.hidden := rfl
  -- Both steps ask the same, so each event needs the equations of the two branches.
  cases e with
  | start tag =>
    simp only [Draft.step, step, draft_inImage, draft_openTag]
    split <;> rfl
  | stop =>
    simp only [Draft.step, step, draft_inImage, draft_closeImplicit, draft_close, hhidden]
    split <;> rfl
  | text s => exact draft_addText z s
  | code s =>
    simp only [Draft.step, step, draft_inImage, draft_extend, draft_addInline]
    split <;> rfl
  | html s =>
    simp only [Draft.step, step, draft_topKind, draft_addText, draft_addInline]
    split <;> rfl
  | softBreak | hardBreak =>
    simp only [Draft.step, step, draft_inImage, draft_extend, draft_addInline]
    split <;> rfl
  | rule => simp only [Draft.step, step, draft_closeImplicit, draft_addLeaf]
  | inlineHtml | footnoteReference | taskListMarker | math => exact draft_addInline z _

/-- A run of a zipper is a run of its draft. -/
theorem draft_run (z : Zipper) (events : List Event) :
    z.draft.run events = (z.run events).draft := by
  induction events generalizing z with
  | nil => rfl
  | cons e rest ih =>
    rw [Draft.run, List.foldl_cons, draft_step]
    exact ih (z.step e)

end Zipper

end StyledText.Markdown
