import Mathlib.Data.List.Basic
import Mathlib.Logic.Relation
import StyledText.Markdown.Conversion.Basic
import StyledText.Proofs.Tree.Built

/-!
# The walk through a tree

A conversion walks through the tree from the top. It comes to a node in a certain role
(`Visit`), goes on to the children or not (`Tree.within`), and leaves something there
(`Tree.Shows`). A `Stop` is a visit with one part of what is left.

`Tree.visitsFrom` lists the visits from a visit on: all of them (`mem_visitsFrom_iff`), in document
order (`visitsFrom_sorted`). `Tree.stopsFrom` lists the stops of these visits.
-/

namespace StyledText.Markdown

/-! ## Visits -/

/-- How a node stands among its siblings. -/
inductive Role where
  /-- It follows them without a break. So does the top, which has none. -/
  | inline
  /-- It is set apart from them by separators. -/
  | block
  /-- It is an item of a list, whatever its kind. -/
  | item
deriving DecidableEq, Repr

/-- A node the walk comes to. -/
structure Visit where
  node : NodeId
  role : Role := .inline
  /-- The positions among siblings, on the way from the top. -/
  place : List Nat := []
  /-- The kinds on the way from the top, the node's own last. -/
  path : List Kind

namespace Visit

def position (v : Visit) : Nat := v.place.getLastD 0

/-- The attributes of a visit: each kind on the way changes those of the kind before it. -/
def attributes (v : Visit) (h : Inheritance) (inherited : Attributes) : Attributes :=
  v.path.foldl (fun a kind => h.resolve kind a) inherited

end Visit

namespace Tree

def visitTop (t : Tree) (id : NodeId) : Visit := { node := id, path := [t.kind id] }

def visitChild (t : Tree) (v : Visit) (role : Role) (child : NodeId × Nat) : Visit :=
  { node := child.1
    role
    place := v.place ++ [child.2]
    path := v.path ++ [if role = .item then .item else t.kind child.1] }

/-- Whether raw markup stands right inside a node. -/
def holdsHtml (t : Tree) (id : NodeId) : Bool := (t.children id).any fun c => (t.kind c).isHtmlBlock

/-- The role in which the walk comes to the children, if it goes on to them. -/
def within (t : Tree) (v : Visit) : Option Role :=
  if v.role = .item then some .block
  else match t.kind v.node with
    | .document | .blockQuote | .item => if t.holdsHtml v.node then none else some .block
    | .paragraph | .heading _ | .emphasis | .strong | .link .. => some .inline
    | .list .. => some .item
    | _ => none

/-- The visits right after a visit, one level down. -/
def nexts (t : Tree) (v : Visit) : List Visit :=
  match t.within v with
  | some role => (t.children v.node).zipIdx.map (t.visitChild v role)
  | none => []

/-- The walk comes from one visit to the other. -/
def Reaches (t : Tree) : Visit → Visit → Prop := Relation.ReflTransGen fun v w => w ∈ t.nexts v

/-- The visits from a visit on, down to a given depth. -/
def visitsTo (t : Tree) : Nat → Visit → List Visit
  | 0, v => [v]
  | depth + 1, v => v :: (t.nexts v).flatMap (t.visitsTo depth)

/-- The visits from a visit on. No path is longer than there are nodes. -/
def visitsFrom (t : Tree) (v : Visit) : List Visit := t.visitsTo t.size v

end Tree

/-! ## Stops -/

/-- What the text of a leaf is. -/
def Kind.leafText? : Kind → Option String
  | .softBreak => some " "
  | .hardBreak | .thematicBreak => some lineSeparator.toString
  | kind => kind.literal?

def Kind.destination? : Kind → Option String
  | .image destination _ _ => if destination = "" then none else some destination
  | _ => none

/-- What a visit can leave in the text, in this order. -/
inductive Part where
  /-- What sets it apart from the sibling before. -/
  | separator
  /-- Indentation and marker of an item. -/
  | lead
  | leaf
  | image
  /-- What the renderer makes of a block. -/
  | html
  /-- What stands for content where there is none. -/
  | blank
deriving DecidableEq, Repr

def Part.rank : Part → Nat
  | separator => 0
  | lead => 1
  | leaf => 2
  | image => 3
  | html => 4
  | blank => 5

def Part.all : List Part := [separator, lead, leaf, image, html, blank]

/-- Whether a visit leaves a part in the text. -/
def Tree.Shows (t : Tree) (v : Visit) : Part → Prop
  | .separator => v.role ≠ .inline ∧ 0 < v.position
  | .lead => v.role = .item
  | .leaf => v.role ≠ .item ∧ (t.kind v.node).leafText?.isSome
  | .image => v.role ≠ .item ∧ (t.kind v.node).destination?.isSome
  | .html => v.role ≠ .item ∧ t.kind v.node ∈ [.document, .blockQuote, .item] ∧
    t.holdsHtml v.node
  | .blank => (t.within v).isSome ∧ t.children v.node = []

instance (t : Tree) (v : Visit) : DecidablePred (t.Shows v) := fun part => by
  cases part <;> unfold Tree.Shows <;> infer_instance

/-- A part of what the walk leaves in the text. -/
structure Stop where
  visit : Visit
  part : Part

/-- Document order: what holds something comes before it, and siblings come in their order. -/
def Stop.Before (s s' : Stop) : Prop :=
  s.visit.place < s'.visit.place ∨
    s.visit.place = s'.visit.place ∧ s.part.rank < s'.part.rank

/-- No two stops come before each other. -/
theorem Stop.Before.asymm {s s' : Stop} (h : s.Before s') : ¬ s'.Before s := by
  rintro (hlt' | ⟨heq', hrank'⟩) <;> rcases h with hlt | ⟨heq, hrank⟩
  · exact List.lt_asymm hlt hlt'
  · exact List.lt_irrefl _ (heq ▸ hlt')
  · exact List.lt_irrefl _ (heq' ▸ hlt)
  · omega

namespace Tree

/-- What a visit itself leaves in the text. -/
def stopsAt (t : Tree) (v : Visit) : List Stop :=
  (Part.all.filter fun part => t.Shows v part).map (Stop.mk v)

/-- The stops from a visit on, down to a given depth. -/
def stopsTo (t : Tree) : Nat → Visit → List Stop
  | 0, v => t.stopsAt v
  | depth + 1, v => t.stopsAt v ++ (t.nexts v).flatMap (t.stopsTo depth)

/-- The stops from a visit on. No path is longer than there are nodes. -/
def stopsFrom (t : Tree) (v : Visit) : List Stop := t.stopsTo t.size v

variable {t : Tree} {v w : Visit} {s : Stop}

/-! ## Visits one level down -/

/-- The visits right after a visit are those of the children, in the role they have there. -/
theorem mem_nexts_iff : w ∈ t.nexts v ↔ ∃ role i c, t.within v = some role ∧
    (t.children v.node)[i]? = some c ∧ w = t.visitChild v role (c, i) := by
  unfold nexts
  cases hrole : t.within v with
  | none => simp
  | some role =>
    rw [List.mem_map]
    constructor
    · rintro ⟨⟨c, i⟩, hmem, rfl⟩
      exact ⟨role, i, c, rfl, List.mk_mem_zipIdx_iff_getElem?.1 hmem, rfl⟩
    · rintro ⟨role', i, c, hrole', hc, rfl⟩
      rcases Option.some.inj hrole' with rfl
      exact ⟨(c, i), List.mk_mem_zipIdx_iff_getElem?.2 hc, rfl⟩

/-- The walk goes down from a node to its children. -/
theorem node_mem_children (h : w ∈ t.nexts v) : w.node ∈ t.children v.node := by
  rcases mem_nexts_iff.1 h with ⟨role, i, c, -, hc, rfl⟩
  exact List.mem_of_getElem? hc

/-- Below a node without a number in the tree there is nothing. -/
theorem nexts_of_size_le (h : t.size ≤ v.node) : t.nexts v = [] := by
  rw [nexts, children_of_size_le h]
  split <;> rfl

/-- However deep the walk may go, it ends when there are no more nodes. -/
theorem visitsTo_congr (h : t.Linked) {m n : Nat} {v : Visit} (hm : t.size ≤ m + v.node)
    (hn : t.size ≤ n + v.node) : t.visitsTo m v = t.visitsTo n v := by
  -- One level down, depth and the nodes that are left both become fewer.
  induction m generalizing n v with
  | zero => cases n <;> simp [visitsTo, nexts_of_size_le (v := v) (by simpa using hm)]
  | succ m ih =>
    cases n with
    | zero => simp [visitsTo, nexts_of_size_le (v := v) (by simpa using hn)]
    | succ n =>
      simp only [visitsTo]
      congr 1
      apply List.flatMap_congr
      intro w hw
      have hlt := h.lt_of_mem_children (node_mem_children hw)
      exact ih (by omega) (by omega)

/-- The visits from a visit on are itself and those from the next visits on. -/
theorem visitsFrom_eq (h : t.Linked) (v : Visit) :
    t.visitsFrom v = v :: (t.nexts v).flatMap t.visitsFrom := by
  unfold visitsFrom
  rw [visitsTo_congr h (m := t.size) (n := t.size + 1) (by omega) (by omega), visitsTo]

@[simp] theorem position_visitChild (v : Visit) (role : Role) (child : NodeId × Nat) :
    (t.visitChild v role child).position = child.2 := by
  simp [Visit.position, visitChild]

@[simp] theorem attributes_visitChild (v : Visit) (role : Role) (child : NodeId × Nat)
    (h : Inheritance) (inherited : Attributes) :
    (t.visitChild v role child).attributes h inherited =
      h.resolve (if role = .item then .item else t.kind child.1) (v.attributes h inherited) := by
  simp [Visit.attributes, visitChild]

/-! ## All visits -/

/-- The list has all visits that the walk comes to. -/
theorem mem_visitsFrom_iff (h : t.Linked) : w ∈ t.visitsFrom v ↔ t.Reaches v w := by
  have hnode : ∀ id, ∀ v : Visit, v.node = id → (w ∈ t.visitsFrom v ↔ t.Reaches v w) := by
    -- Children have larger numbers than what holds them, so the claim may be used for all of them.
    refine h.induction_up ?_
    intro id ih v hv
    rw [visitsFrom_eq h, List.mem_cons, List.mem_flatMap]
    constructor
    · rintro (rfl | ⟨u, hu, hw⟩)
      · exact .refl
      · exact .head hu ((ih u.node (hv ▸ node_mem_children hu) u rfl).1 hw)
    · intro hreach
      rcases Relation.ReflTransGen.cases_head hreach with rfl | ⟨u, hu, hreach⟩
      · exact .inl rfl
      · exact .inr ⟨u, hu, (ih u.node (hv ▸ node_mem_children hu) u rfl).2 hreach⟩
  exact hnode v.node v rfl

/-! ## All stops -/

/-- The stops of a visit are what it leaves in the text. -/
theorem mem_stopsAt_iff : s ∈ t.stopsAt v ↔ s.visit = v ∧ t.Shows s.visit s.part := by
  rcases s with ⟨w, part⟩
  unfold stopsAt
  rw [List.mem_map]
  constructor
  · rintro ⟨part', hmem, heq⟩
    rcases Stop.mk.inj heq with ⟨rfl, rfl⟩
    exact ⟨rfl, by simpa using (List.mem_filter.1 hmem).2⟩
  · rintro ⟨rfl, hshows⟩
    refine ⟨part, List.mem_filter.2 ⟨?_, by simpa using hshows⟩, rfl⟩
    -- every part is among all parts
    cases part <;> decide

/-- The stops are those of the visits. -/
theorem stopsFrom_eq_flatMap (v : Visit) : t.stopsFrom v = (t.visitsFrom v).flatMap t.stopsAt := by
  have hdepth : ∀ depth, ∀ v, t.stopsTo depth v = (t.visitsTo depth v).flatMap t.stopsAt := by
    intro depth
    induction depth with
    | zero => simp [stopsTo, visitsTo]
    | succ depth ih =>
      intro v
      rw [stopsTo, visitsTo, List.flatMap_cons, List.flatMap_assoc]
      congr 1
      exact List.flatMap_congr fun w _ => ih w
  exact hdepth t.size v

/-- The stops from a visit on are its own and those from the next visits on. -/
theorem stopsFrom_eq (h : t.Linked) (v : Visit) :
    t.stopsFrom v = t.stopsAt v ++ (t.nexts v).flatMap t.stopsFrom := by
  rw [stopsFrom_eq_flatMap, visitsFrom_eq h, List.flatMap_cons, List.flatMap_assoc]
  congr 1
  exact List.flatMap_congr fun w _ => (stopsFrom_eq_flatMap w).symm

/-- The list has all that the walk leaves in the text. -/
theorem mem_stopsFrom_iff (h : t.Linked) :
    s ∈ t.stopsFrom v ↔ t.Reaches v s.visit ∧ t.Shows s.visit s.part := by
  rw [stopsFrom_eq_flatMap, List.mem_flatMap]
  constructor
  · rintro ⟨w, hw, hs⟩
    obtain ⟨rfl, hshows⟩ := mem_stopsAt_iff.1 hs
    exact ⟨(mem_visitsFrom_iff h).1 hw, hshows⟩
  · rintro ⟨hreach, hshows⟩
    exact ⟨s.visit, (mem_visitsFrom_iff h).2 hreach, mem_stopsAt_iff.2 ⟨rfl, hshows⟩⟩

/-! ## The way to a visit -/

/-- The kind that counts for the attributes of a visit. -/
def kindAt (t : Tree) (v : Visit) : Kind := if v.role = .item then .item else t.kind v.node

/-- Nothing is below a leaf, so a literal can only be at the end of the way. -/
theorem Reaches.exists_path {id : NodeId} (hreach : t.Reaches (t.visitTop id) v) :
    ∃ above, v.path = above ++ [t.kindAt v] ∧ ∀ kind ∈ above, kind.literal? = none := by
  induction hreach with
  | refl => exact ⟨[], by simp [visitTop, kindAt], by simp⟩
  | tail _ hstep ih =>
    next v w _ =>
    obtain ⟨above, hpath, habove⟩ := ih
    obtain ⟨role, i, c, hrole, hc, rfl⟩ := mem_nexts_iff.1 hstep
    have hlast : (t.kindAt v).literal? = none := by
      unfold within at hrole
      unfold kindAt
      split
      · rfl
      · next hitem =>
        rw [if_neg hitem] at hrole
        split at hrole <;> simp_all [Kind.literal?]
    refine ⟨v.path, rfl, ?_⟩
    rw [hpath]
    simpa [or_imp, forall_and] using ⟨habove, hlast⟩

/-- What is on the way to a visit are kinds of the node and of nodes that hold it, and items. -/
theorem Reaches.mem_path (h : t.Linked) {id : NodeId} {kind : Kind}
    (hreach : t.Reaches (t.visitTop id) v) (hkind : kind ∈ v.path) : kind = .item ∨
      ∃ a ∈ (t.ancestors v.node).take (v.place.length + 1), t.kind a = kind := by
  -- With each step down there is one more kind on the way and one more ancestor that counts.
  induction hreach with
  | refl =>
    have hself : id ∈ (t.ancestors id).take 1 := by
      cases hparent : t.parent? id with
      | none => simp [ancestors_of_parent?_eq_none hparent]
      | some p => simp [h.ancestors_of_parent? hparent]
    exact .inr ⟨id, hself, (List.mem_singleton.1 hkind).symm⟩
  | tail _ hstep ih =>
    next v w _ =>
    obtain ⟨role, i, c, -, hc, rfl⟩ := mem_nexts_iff.1 hstep
    have hparent := h.mem_children_iff.1 (List.mem_of_getElem? hc)
    simp only [visitChild, List.length_append, List.length_singleton] at hkind ⊢
    rw [h.ancestors_of_parent? hparent, List.take_succ_cons]
    rcases List.mem_append.1 hkind with hkind | hkind
    · rcases ih hkind with hitem | ⟨a, ha, hka⟩
      · exact .inl hitem
      · exact .inr ⟨a, List.mem_cons_of_mem _ ha, hka⟩
    · rw [List.mem_singleton] at hkind
      split at hkind
      · exact .inl hkind
      · exact .inr ⟨c, List.mem_cons_self, hkind.symm⟩

/-! ## Document order -/

/-- What is reached has its place below. -/
theorem Reaches.prefix_place (h : t.Reaches v w) : v.place <+: w.place := by
  induction h with
  | refl => exact List.prefix_rfl
  | tail _ hstep ih =>
    rcases mem_nexts_iff.1 hstep with ⟨role, i, c, -, -, rfl⟩
    exact ih.trans (List.prefix_append _ _)

/-- The stops of a visit are in document order. -/
theorem pairwise_stopsAt (v : Visit) : (t.stopsAt v).Pairwise Stop.Before := by
  unfold stopsAt
  rw [List.pairwise_map]
  apply List.Pairwise.filter
  have hall : Part.all.Pairwise fun a b => a.rank < b.rank := by decide
  exact hall.imp fun hlt => .inr ⟨rfl, hlt⟩

/-- The next visits are in the order of their places, one level down. -/
theorem nexts_sorted (v : Visit) : (t.nexts v).Pairwise fun u w =>
    ∃ i j, i < j ∧ u.place = v.place ++ [i] ∧ w.place = v.place ++ [j] := by
  unfold nexts
  cases t.within v with
  | none => exact .nil
  | some role =>
    have hlt : ((t.children v.node).zipIdx.map Prod.snd).Pairwise (· < ·) := by
      rw [List.zipIdx_map_snd]
      exact List.pairwise_lt_range'
    rw [List.pairwise_map] at hlt ⊢
    exact hlt.imp fun {a b} hab => ⟨a.2, b.2, hab, rfl, rfl⟩

/-- The visits are in the order of their places. -/
theorem visitsFrom_sorted (h : t.Linked) (v : Visit) :
    (t.visitsFrom v).Pairwise fun u w => u.place < w.place := by
  have hnode : ∀ id, ∀ v : Visit, v.node = id →
      (t.visitsFrom v).Pairwise fun u w => u.place < w.place := by
    refine h.induction_up ?_
    intro id ih v hv
    rw [visitsFrom_eq h, List.pairwise_cons]
    constructor
    · -- the place of a visit is a proper prefix of all places below it
      intro u hu
      rcases List.mem_flatMap.1 hu with ⟨w, hw, hu⟩
      rcases ((mem_visitsFrom_iff h).1 hu).prefix_place with ⟨rest, hrest⟩
      rcases mem_nexts_iff.1 hw with ⟨role, i, c, -, -, rfl⟩
      have hlt : v.place ++ [] < v.place ++ ([i] ++ rest) :=
        List.append_left_lt (List.nil_lt_cons _ _)
      rw [List.append_nil, ← List.append_assoc] at hlt
      rw [← hrest]
      exact hlt
    · rw [List.pairwise_flatMap]
      refine ⟨fun w hw => ih w.node (hv ▸ node_mem_children hw) w rfl, ?_⟩
      -- Visits below different children differ where the children do.
      refine (nexts_sorted v).imp ?_
      rintro u w ⟨i, j, hij, hu, hw⟩ u' hu' w' hw'
      rcases ((mem_visitsFrom_iff h).1 hu').prefix_place with ⟨rest, hrest⟩
      rcases ((mem_visitsFrom_iff h).1 hw').prefix_place with ⟨rest', hrest'⟩
      rw [← hrest, ← hrest', hu, hw, List.append_assoc, List.append_assoc]
      exact List.append_left_lt (List.cons_lt_cons_iff.2 (.inl hij))
  exact hnode v.node v rfl

/-- The stops are in document order. -/
theorem stopsFrom_sorted (h : t.Linked) (v : Visit) : (t.stopsFrom v).Pairwise Stop.Before := by
  rw [stopsFrom_eq_flatMap, List.pairwise_flatMap]
  refine ⟨fun w _ => pairwise_stopsAt w, ?_⟩
  refine (visitsFrom_sorted h v).imp ?_
  intro u w hlt s hs s' hs'
  rw [← (mem_stopsAt_iff.1 hs).1, ← (mem_stopsAt_iff.1 hs').1] at hlt
  exact .inl hlt

/-- The stops in front of a stop are those before it in document order. -/
theorem mem_of_stopsFrom_eq (h : t.Linked) {before after : List Stop} {s' : Stop}
    (hsplit : t.stopsFrom v = before ++ s :: after) (hs' : s' ∈ t.stopsFrom v)
    (hbefore : s'.Before s) : s' ∈ before := by
  have hsorted := stopsFrom_sorted h v
  rw [hsplit] at hsorted hs'
  rcases List.mem_append.1 hs' with hearlier | hlater
  · exact hearlier
  · rcases List.mem_cons.1 hlater with rfl | hlater
    · exact absurd hbefore hbefore.asymm
    · have horder := (List.pairwise_cons.1 (List.pairwise_append.1 hsorted).2.1).1 _ hlater
      exact absurd hbefore horder.asymm

end Tree

end StyledText.Markdown
