import StyledText.Proofs.Tree.Built
import StyledText.Proofs.Tree.Zipper

/-!
# Reading a tree back

`Tree.readBack` reads a tree from top to bottom and leaves out some nodes, but not what they hold.
Left out are the paragraphs that no event has opened: those that are implicit at some time while the
tree is built (`Draft.implicits`). What is read is then what the zipper holds, without the marked
nodes (`readBack_tree`).
-/

namespace StyledText.Markdown

/-! ## What is left out -/

namespace Draft

/-- The implicit paragraphs that are open. -/
def openImplicits (d : Draft) : List NodeId := (d.frames.filter (·.implicit)).map (·.id)

/-- The paragraphs that are implicit at some time while events come in. -/
def implicits (d : Draft) : List Event → List NodeId
  | [] => d.openImplicits
  | e :: rest => d.openImplicits ++ (d.step e).implicits rest

end Draft

namespace Tree

/-- What is below a node, down to a given depth. In the place of a node that is left out stands what
it holds. -/
def readTo (t : Tree) (omitted : List NodeId) : Nat → NodeId → List Outline
  | 0, id => if id ∈ omitted then [] else [.node (t.kind id) []]
  | depth + 1, id =>
    let content := (t.children id).flatMap (t.readTo omitted depth)
    if id ∈ omitted then content else [.node (t.kind id) content]

/-- A node and everything below it, except for the nodes that are left out. -/
def readBack (t : Tree) (omitted : List NodeId) (id : NodeId) : List Outline :=
  t.readTo omitted t.size id

/-- A paragraph right inside an item. -/
def IsParagraphInItem (t : Tree) (id : NodeId) : Prop :=
  t.kind id = .paragraph ∧ ∃ p, t.parent? id = some p ∧ t.kind p = .item

namespace IsParagraphInItem

variable {t : Tree} {id : Nat}

/-- A paragraph in an item stays one beside a new node. -/
theorem push (h : t.IsParagraphInItem id) {p : Nat} (hp : p < t.size) {kind : Kind} :
    (t.push p kind).IsParagraphInItem id := by
  rcases h with ⟨hkind, q, hparent, hitem⟩
  have hid := lt_size_of_kind hkind (by decide)
  have hq := lt_size_of_kind hitem (by decide)
  refine ⟨?_, q, ?_, ?_⟩
  · rw [kind_push hp, if_neg (Nat.ne_of_lt hid), hkind]
  · rw [parent?_push hp, if_neg (Nat.ne_of_lt hid), hparent]
  · rw [kind_push hp, if_neg (Nat.ne_of_lt hq), hitem]

/-- A paragraph in an item stays one if its kind and that of the item stay. -/
theorem modifyKind (h : t.IsParagraphInItem id) (i : Nat) {f : Kind → Kind}
    (hparagraph : f .paragraph = .paragraph) (hitem : f .item = .item) :
    (t.modifyKind i f).IsParagraphInItem id := by
  rcases Nat.lt_or_ge i t.size with hi | hi
  · rcases h with ⟨hkind, q, hparent, hq⟩
    refine ⟨?_, q, ?_, ?_⟩
    · rw [kind_modifyKind hi, hkind, hparagraph, ite_self]
    · rw [parent?_modifyKind, hparent]
    · rw [kind_modifyKind hi, hq, hitem, ite_self]
  · rw [modifyKind_of_size_le hi]
    exact h

end IsParagraphInItem

end Tree

/-! ## Marks -/

namespace Marked

mutual

/-- The marks of the nodes in the order of their names. -/
def marks : Marked → List Bool
  | node _ implicit children => implicit :: marksAll children

def marksAll : List Marked → List Bool
  | [] => []
  | o :: rest => o.marks ++ marksAll rest

end

mutual

/-- The outlines of a node and everything below it, without the marked nodes. -/
def read : Marked → List Outline
  | node kind implicit children =>
    if implicit then readAll children else [.node kind (readAll children)]

def readAll : List Marked → List Outline
  | [] => []
  | o :: rest => o.read ++ readAll rest

end

mutual

theorem length_marks : (o : Marked) → o.marks.length = o.size
  | node _ _ children => by
    rw [marks, size, List.length_cons, length_marksAll children, Nat.add_comm]

theorem length_marksAll : (l : List Marked) → (marksAll l).length = sizeAll l
  | [] => rfl
  | o :: rest => by
    rw [marksAll, sizeAll, List.length_append, length_marks o, length_marksAll rest]

end

theorem marksAll_append (l m : List Marked) : marksAll (l ++ m) = marksAll l ++ marksAll m := by
  induction l with
  | nil => rfl
  | cons o rest ih => rw [List.cons_append, marksAll, marksAll, ih, List.append_assoc]

theorem readAll_append (l m : List Marked) : readAll (l ++ m) = readAll l ++ readAll m := by
  induction l with
  | nil => rfl
  | cons o rest ih => rw [List.cons_append, readAll, readAll, ih, List.append_assoc]

/-- A list stands in another one at a position. -/
def StandsAt {α : Type} (part : List α) (i : Nat) (whole : List α) : Prop :=
  ∃ before after, before.length = i ∧ whole = before ++ (part ++ after)

namespace StandsAt

variable {α : Type} {part more whole : List α} {i : Nat} {a : α}

/-- The first part stands where the whole does. -/
theorem left (h : StandsAt (part ++ more) i whole) : StandsAt part i whole := by
  rcases h with ⟨before, after, hlength, rfl⟩
  exact ⟨before, more ++ after, hlength, by rw [List.append_assoc]⟩

/-- The second part stands behind the first. -/
theorem right (h : StandsAt (part ++ more) i whole) : StandsAt more (i + part.length) whole := by
  rcases h with ⟨before, after, rfl, rfl⟩
  exact ⟨before ++ part, after, List.length_append, by simp only [List.append_assoc]⟩

theorem tail (h : StandsAt (a :: more) i whole) : StandsAt more (i + 1) whole := by
  rcases h with ⟨before, after, rfl, rfl⟩
  exact ⟨before ++ [a], after, List.length_append, by simp⟩

/-- What stands somewhere begins there. -/
theorem getElem?_head (h : StandsAt (a :: more) i whole) : whole[i]? = some a := by
  rcases h with ⟨before, after, rfl, rfl⟩
  simp

end StandsAt

section Read

variable {omitted : List NodeId} {nodes : List Node} {flags : List Bool}

mutual

/-- Where the nodes of a marked outline stand in the array, they are read back. -/
theorem readTo_nodes (hflags : ∀ i, i ∈ omitted ↔ flags[i]? = some true)
    (parent id depth : Nat) : (o : Marked) → o.size ≤ depth →
    StandsAt (o.nodes parent id) id nodes → StandsAt o.marks id flags →
    (Tree.ofNodes nodes).readTo omitted depth id = o.read
  | node kind implicit children, hdepth, hnodes, hmarks => by
    rw [size] at hdepth
    obtain ⟨depth, rfl⟩ : ∃ d, depth = d + 1 := ⟨depth - 1, by omega⟩
    rw [Marked.nodes] at hnodes
    rw [marks] at hmarks
    have hnode : (Tree.ofNodes nodes).node id =
        { kind, parent := some parent, children := ids (id + 1) children } := by
      rw [Tree.node, Tree.ofNodes, List.getElem?_toArray, hnodes.getElem?_head]
      rfl
    have hchildren := readTo_nodesAll hflags id (id + 1) depth children (by omega)
      hnodes.tail hmarks.tail
    -- The flag at its name decides whether the node is left out.
    have homitted : id ∈ omitted ↔ implicit := by
      rw [hflags, hmarks.getElem?_head, Option.some.injEq]
    rw [Tree.readTo, read, Tree.children, Tree.kind, hnode]
    simp only [hchildren, homitted]

/-- Siblings are read back where their nodes stand. -/
theorem readTo_nodesAll (hflags : ∀ i, i ∈ omitted ↔ flags[i]? = some true)
    (parent id depth : Nat) : (l : List Marked) → sizeAll l ≤ depth →
    StandsAt (nodesAll parent id l) id nodes → StandsAt (marksAll l) id flags →
    (ids id l).flatMap ((Tree.ofNodes nodes).readTo omitted depth) = readAll l
  | [], _, _, _ => rfl
  | o :: rest, hdepth, hnodes, hmarks => by
    -- The nodes of `rest` stand right behind those of `o`, and so do their marks.
    rw [sizeAll] at hdepth
    rw [nodesAll] at hnodes
    rw [marksAll] at hmarks
    have hnodes' := hnodes.right
    have hmarks' := hmarks.right
    rw [length_nodes] at hnodes'
    rw [length_marks] at hmarks'
    rw [ids, List.flatMap_cons, readAll,
      readTo_nodes hflags parent id depth o (by omega) hnodes.left hmarks.left,
      readTo_nodesAll hflags parent (id + o.size) depth rest (by omega) hnodes' hmarks']

end

end Read

end Marked

/-! ## Marks of zippers -/

namespace Level

/-- The marks of the nodes of all levels, in the order of their names. -/
def marks : List Level → List Bool
  | [] => []
  | l :: outer => marks outer ++ l.implicit :: Marked.marksAll l.done

/-- There is a mark for each node of the levels. -/
theorem length_marks (levels : List Level) : (marks levels).length = widthAll levels := by
  induction levels with
  | nil => rfl
  | cons l outer ih =>
    rw [marks, List.length_append, ih, List.length_cons, Marked.length_marksAll, widthAll_cons,
      width]
    omega

end Level

namespace Zipper

def marks (z : Zipper) : List Bool := Level.marks z.levels

/-- A zipper with all nodes closed but the root is read back from its tree. -/
theorem readBack_tree {z : Zipper} (houter : z.outer = []) {omitted : List NodeId}
    (homitted : ∀ i, i ∈ omitted ↔ z.marks[i]? = some true) :
    z.tree.readBack omitted Tree.root =
      (Marked.node z.top.kind z.top.implicit z.top.done).read := by
  have hnode := z.node_top
  have hsize := z.size_tree
  rw [levels, Level.widthAll_cons, houter, Level.width, Nat.add_comm 1] at hsize
  have hnodes : Marked.StandsAt (Marked.nodesAll 0 1 z.top.done) 1 (Level.nodes none z.levels) := by
    rw [levels, houter]
    exact ⟨[_], [], rfl, by rw [List.append_nil]; rfl⟩
  have hmarks : Marked.StandsAt (Marked.marksAll z.top.done) 1 z.marks := by
    rw [marks, levels, houter]
    exact ⟨[_], [], rfl, by rw [List.append_nil]; rfl⟩
  have hchildren := Marked.readTo_nodesAll homitted 0 1 (Marked.sizeAll z.top.done) z.top.done
    (Nat.le_refl _) hnodes hmarks
  -- The root has the name 0, and what it holds starts at 1.
  have hroot : 0 ∈ omitted ↔ z.top.implicit := by
    rw [homitted, marks, levels, houter]
    simp [Level.marks]
  rw [houter] at hnode
  change z.tree.node 0 = _ at hnode
  rw [Tree.readBack, hsize]
  change Tree.readTo _ _ (Marked.sizeAll z.top.done + 1) 0 = _
  rw [Tree.readTo, Tree.children, Tree.kind, hnode]
  simp only [Level.node, Option.toList_none, List.append_nil, hroot, Marked.read]
  change (if _ then List.flatMap _ (Marked.ids 1 _) else _) = _
  rw [← hchildren]
  rfl

/-! ## Marks are made by steps -/

/-- No mark is made or lost, and a paragraph in an item stays one. -/
structure Follows (z z' : Zipper) : Prop where
  marks_iff : ∀ i : Nat, z'.marks[i]? = some true ↔ z.marks[i]? = some true
  persists : ∀ i : Nat, z.tree.IsParagraphInItem i → z'.tree.IsParagraphInItem i

namespace Follows

theorem refl (z : Zipper) : z.Follows z := ⟨fun _ => Iff.rfl, fun _ h => h⟩

/-- Marks may be kept in two steps. -/
theorem trans {z z' z'' : Zipper} (h : z.Follows z') (h' : z'.Follows z'') : z.Follows z'' :=
  ⟨fun i => (h'.marks_iff i).trans (h.marks_iff i), fun i hi => h'.persists i (h.persists i hi)⟩

end Follows

variable {z : Zipper}

theorem top_lt_size (z : Zipper) : Level.widthAll z.outer < z.tree.size := by
  rw [size_tree, levels, Level.widthAll_cons, Level.width]
  omega

/-- The marks of a new node come last. -/
theorem marks_append (z : Zipper) (o : Marked) : (z.append o).marks = z.marks ++ o.marks := by
  simp [append, marks, levels, Level.marks, Level.append, Marked.marksAll_append, Marked.marksAll]

/-- A node that is opened has the last mark. -/
theorem marks_openNode (z : Zipper) (kind : Kind) (implicit : Bool) :
    (z.openNode kind implicit).marks = z.marks ++ [implicit] := by
  simp [openNode, marks, levels, Level.marks, Marked.marksAll]

/-- One more node without a mark marks nothing. -/
theorem getElem?_append_false (flags : List Bool) (i : Nat) :
    (flags ++ [false])[i]? = some true ↔ flags[i]? = some true := by
  rw [List.getElem?_append]
  split
  · exact Iff.rfl
  · next hle =>
    rw [List.getElem?_eq_none (Nat.le_of_not_lt hle)]
    cases i - flags.length <;> simp

/-- One more node with a mark is the only one that is new. -/
theorem getElem?_append_true (flags : List Bool) (i : Nat) :
    (flags ++ [true])[i]? = some true ↔ flags[i]? = some true ∨ i = flags.length := by
  rw [List.getElem?_append]
  split
  · next hlt =>
    have hne : i ≠ flags.length := Nat.ne_of_lt hlt
    simp [hne]
  · next hle =>
    rw [List.getElem?_eq_none (Nat.le_of_not_lt hle)]
    cases hsub : i - flags.length with
    | zero =>
      have heq : i = flags.length := by omega
      simp [heq]
    | succ n =>
      have hne : i ≠ flags.length := by omega
      simp [hne]

theorem follows_addLeaf (z : Zipper) (kind : Kind) : z.Follows (z.addLeaf kind) := by
  constructor
  · intro i
    rw [addLeaf, marks_append]
    exact getElem?_append_false _ _
  · intro i hi
    rw [← tree_addLeaf]
    exact hi.push z.top_lt_size

theorem follows_openNode (z : Zipper) (kind : Kind) : z.Follows (z.openNode kind false) := by
  constructor
  · intro i
    rw [marks_openNode]
    exact getElem?_append_false _ _
  · intro i hi
    rw [← tree_openNode]
    exact hi.push z.top_lt_size

theorem follows_close (z : Zipper) : z.Follows z.close := by
  constructor
  · intro i
    rcases z with ⟨top, outer, hidden⟩
    cases outer with
    | nil => exact Iff.rfl
    | cons l outer =>
      simp [close, marks, levels, Level.marks, Level.append, Marked.marksAll_append,
        Marked.marksAll, Marked.marks]
  · intro i hi
    rw [← tree_close]
    exact hi

theorem follows_closeImplicit (z : Zipper) : z.Follows z.closeImplicit := by
  unfold closeImplicit
  split
  · exact follows_close z
  · exact .refl z

theorem follows_extend (z : Zipper) (s : String) : z.Follows (z.extend s) := by
  constructor
  · intro i
    exact Iff.rfl
  · intro i hi
    rw [extend, ← tree_modifyTop]
    exact hi.modifyKind _ rfl rfl

theorem follows_loosen (z : Zipper) : z.Follows z.loosen := by
  constructor
  · intro i
    unfold loosen
    split
    · rcases z with ⟨top, outer, hidden⟩
      cases outer <;> exact Iff.rfl
    · exact Iff.rfl
  · intro i hi
    have htree : z.loosen.tree = z.draft.loosen.tree := congrArg Draft.tree z.draft_loosen.symm
    rw [htree, Draft.loosen]
    split
    · split
      · exact hi.modifyKind _ rfl rfl
      · exact hi
    · exact hi

theorem follows_addTextNode (z : Zipper) (s : String) : z.Follows (z.addTextNode s) := by
  constructor
  · intro i
    unfold addTextNode
    -- Text joins a text that came last, which has a mark or not as before. Else it is a new leaf.
    rcases List.eq_nil_or_concat z.top.done with hnone | ⟨init, ⟨kind, implicit, children⟩, hdone⟩
    · rw [hnone]
      exact (follows_addLeaf z _).marks_iff i
    · rw [List.concat_eq_append] at hdone
      simp only [hdone, List.getLast?_concat, List.dropLast_concat]
      cases kind with
      | text r => simp [marks, levels, Level.marks, hdone, Marked.marksAll_append, Marked.marksAll,
          Marked.marks]
      | _ => exact (follows_addLeaf z _).marks_iff i
  · intro i hi
    have htree : (z.addTextNode s).tree = (z.draft.addTextNode s).tree :=
      congrArg Draft.tree (z.draft_addTextNode s).symm
    have hleaf : (z.draft.addLeaf (.text s)).tree.IsParagraphInItem i := by
      rw [Draft.addLeaf, draft_top]
      exact hi.push z.top_lt_size
    rw [htree, Draft.addTextNode]
    split
    · split
      · exact hi.modifyKind _ rfl rfl
      · exact hleaf
    · exact hleaf

/-- What is marked is a paragraph in an item. -/
def MarksParagraphs (z : Zipper) : Prop :=
  ∀ i : Nat, z.marks[i]? = some true → z.tree.IsParagraphInItem i

/-- What may come out of a step that starts at `z`: whatever is marked then has been marked before
or is open. -/
structure Comes (z z' : Zipper) : Prop where
  kept : ∀ i : Nat, z.marks[i]? = some true → z'.marks[i]? = some true
  fresh : ∀ i : Nat, z'.marks[i]? = some true →
    z.marks[i]? = some true ∨ i ∈ z'.draft.openImplicits
  sound : z.MarksParagraphs → z'.MarksParagraphs

/-- Where no mark is new, none has to be that of an open paragraph. -/
theorem Follows.comes {z z' : Zipper} (h : z.Follows z') : z.Comes z' where
  kept i hi := (h.marks_iff i).2 hi
  fresh i hi := .inl ((h.marks_iff i).1 hi)
  sound hz i hi := h.persists i (hz i ((h.marks_iff i).1 hi))

/-- Where inline content comes in, only the paragraph that is opened for it has a new mark. -/
theorem Comes.of_ensureInline {z' : Zipper} (h : z.ensureInline.Follows z')
    (hopen : z'.draft.openImplicits = z.ensureInline.draft.openImplicits) : z.Comes z' := by
  by_cases hitem : z.top.kind = .item
  · have hopened : z.ensureInline = z.openNode .paragraph true := if_pos hitem
    -- The paragraph that is opened here is the only new mark.
    have hmarks : ∀ i : Nat, z'.marks[i]? = some true ↔
        z.marks[i]? = some true ∨ i = Level.widthAll z.levels := by
      intro i
      have hlength : z.marks.length = Level.widthAll z.levels := Level.length_marks _
      rw [h.marks_iff, hopened, marks_openNode, getElem?_append_true, hlength]
    have htree := z.tree_openNode .paragraph true
    rw [← hopened] at htree
    constructor
    · intro i hi
      exact (hmarks i).2 (.inl hi)
    · intro i hi
      rcases (hmarks i).1 hi with hold | rfl
      · exact .inl hold
      · right
        rw [hopen, hopened]
        exact List.mem_cons_self
    · intro hz i hi
      apply h.persists
      rw [← htree]
      rcases (hmarks i).1 hi with hold | rfl
      · exact (hz i hold).push z.top_lt_size
      · -- The new paragraph is the one below the item.
        have hne := Nat.ne_of_lt z.top_lt_size
        rw [← size_tree]
        refine ⟨?_, Level.widthAll z.outer, ?_, ?_⟩
        · rw [Tree.kind_push z.top_lt_size, if_pos rfl]
        · rw [Tree.parent?_push z.top_lt_size, if_pos rfl]
        · rw [Tree.kind_push z.top_lt_size, if_neg hne, Tree.kind, node_top]
          exact hitem
  · have hsame : z.ensureInline = z := if_neg hitem
    rw [hsame] at h
    exact h.comes

theorem openImplicits_append (z : Zipper) (o : Marked) :
    (z.append o).draft.openImplicits = z.draft.openImplicits := by
  rcases z with ⟨top, outer, hidden⟩
  cases outer <;> rfl

theorem openImplicits_openNode (z : Zipper) (kind : Kind) :
    (z.openNode kind false).draft.openImplicits = z.draft.openImplicits := rfl

theorem openImplicits_loosen (z : Zipper) :
    z.loosen.draft.openImplicits = z.draft.openImplicits := by
  rcases z with ⟨top, outer, hidden⟩
  unfold loosen
  split
  · rcases outer with - | ⟨l, - | ⟨m, outer⟩⟩ <;> rfl
  · rfl

theorem openImplicits_addTextNode (z : Zipper) (s : String) :
    (z.addTextNode s).draft.openImplicits = z.draft.openImplicits := by
  rcases z with ⟨top, outer, hidden⟩
  unfold addTextNode
  split
  · cases outer <;> rfl
  · exact openImplicits_append _ _

theorem comes_addInline (z : Zipper) (kind : Kind) : z.Comes (z.addInline kind) :=
  .of_ensureInline (follows_addLeaf _ kind) (openImplicits_append _ _)

/-- Text marks a new paragraph at most. -/
theorem comes_addText (z : Zipper) (s : String) : z.Comes (z.addText s) := by
  have hplain : z.Comes (z.ensureInline.addTextNode s) :=
    .of_ensureInline (follows_addTextNode _ s) (openImplicits_addTextNode _ s)
  unfold addText
  cases z.top.kind with
  | codeBlock | htmlBlock | image => exact (follows_extend z s).comes
  | _ => exact hplain

/-- A tag marks a new paragraph at most. -/
theorem comes_openTag (z : Zipper) (tag : Tag) : z.Comes (z.openTag tag) := by
  have hrest : ∀ y : Zipper, y.Follows ((if tag = .paragraph then y.loosen else y).openNode
      tag.kind false) ∧ ((if tag = .paragraph then y.loosen else y).openNode
        tag.kind false).draft.openImplicits = y.draft.openImplicits := by
    intro y
    rw [openImplicits_openNode]
    split
    · exact ⟨(follows_loosen y).trans (follows_openNode _ _), openImplicits_loosen y⟩
    · exact ⟨follows_openNode y _, rfl⟩
  unfold openTag
  split
  · exact .of_ensureInline (hrest _).1 (hrest _).2
  · exact ((follows_closeImplicit z).trans (hrest _).1).comes

/-- An event marks a new paragraph at most. -/
theorem comes_step (z : Zipper) (e : Event) : z.Comes (z.step e) := by
  have hhidden : ∀ n, z.Comes { z with hidden := n } := fun n =>
    ⟨fun _ h => h, fun _ h => .inl h, fun h => h⟩
  -- By kind of event. Only inline content in an item opens a paragraph.
  cases e with
  | start tag =>
    simp only [step]
    split
    · exact hhidden _
    · exact comes_openTag z tag
  | stop =>
    simp only [step]
    split
    · exact hhidden _
    · exact ((follows_closeImplicit z).trans (follows_close _)).comes
  | text s => exact comes_addText z s
  | code | softBreak | hardBreak =>
    simp only [step]
    split
    · exact (follows_extend z _).comes
    · exact comes_addInline z _
  | html s =>
    simp only [step]
    split
    · exact comes_addText z s
    · exact comes_addInline z _
  | rule => exact ((follows_closeImplicit z).trans (follows_addLeaf _ _)).comes
  | inlineHtml | footnoteReference | taskListMarker | math => exact comes_addInline z _

/-- The implicit paragraphs that are open are marked. -/
theorem marks_of_mem_openImplicits {i : Nat} (h : i ∈ z.draft.openImplicits) :
    z.marks[i]? = some true := by
  have hlevels : ∀ levels, i ∈ ((Level.frames levels).filter (·.implicit)).map (·.id) →
      (Level.marks levels)[i]? = some true := by
    intro levels
    -- The frame of a level is behind those of the levels outside, and so is its mark.
    induction levels with
    | nil => simp [Level.frames]
    | cons l outer ih =>
      intro hi
      have hlength := Level.length_marks outer
      cases outer with
      | nil => simp [Level.frames] at hi
      | cons m outer =>
        rcases List.mem_map.1 hi with ⟨frame, hmem, rfl⟩
        rcases List.mem_filter.1 hmem with ⟨hmem, himplicit⟩
        rw [Level.marks]
        rcases List.mem_cons.1 hmem with rfl | hmem
        · rw [List.getElem?_append_right (Nat.le_of_eq hlength), hlength, Nat.sub_self]
          exact congrArg some himplicit
        · have hold := ih (List.mem_map.2 ⟨frame, List.mem_filter.2 ⟨hmem, himplicit⟩, rfl⟩)
          rcases List.getElem?_eq_some_iff.1 hold with ⟨hlt, -⟩
          rw [List.getElem?_append_left hlt, hold]
  exact hlevels z.levels h

/-- What is open and implicit now is implicit at some time. -/
theorem mem_implicits_of_mem_openImplicits {d : Draft} {events : List Event} {i : Nat}
    (h : i ∈ d.openImplicits) : i ∈ d.implicits events := by
  cases events with
  | nil => exact h
  | cons e rest => exact List.mem_append_left _ h

/-- The marked nodes are the paragraphs that have been implicit at some time. -/
theorem marks_run_iff (z : Zipper) (events : List Event) (i : Nat) :
    (z.run events).marks[i]? = some true ↔
      z.marks[i]? = some true ∨ i ∈ z.draft.implicits events := by
  induction events generalizing z with
  | nil =>
    constructor
    · exact .inl
    · rintro (hi | hi)
      · exact hi
      · exact marks_of_mem_openImplicits hi
  | cons e rest ih =>
    -- A mark made by the first step is open then, and stays until the end.
    have hcomes := comes_step z e
    rw [Draft.implicits, List.mem_append, draft_step]
    change ((z.step e).run rest).marks[i]? = _ ↔ _
    rw [ih]
    constructor
    · rintro (hi | hi)
      · rcases hcomes.fresh i hi with hold | hopen
        · exact .inl hold
        · exact .inr (.inr (mem_implicits_of_mem_openImplicits hopen))
      · exact .inr (.inr hi)
    · rintro (hi | hi | hi)
      · exact .inl (hcomes.kept i hi)
      · exact .inl (hcomes.kept i (marks_of_mem_openImplicits hi))
      · exact .inr hi

/-- However the events come, only paragraphs in items are marked. -/
theorem marksParagraphs_run (z : Zipper) (events : List Event) (h : z.MarksParagraphs) :
    (z.run events).MarksParagraphs := by
  induction events generalizing z with
  | nil => exact h
  | cons e rest ih => exact ih (z.step e) ((comes_step z e).sound h)

end Zipper

end StyledText.Markdown
