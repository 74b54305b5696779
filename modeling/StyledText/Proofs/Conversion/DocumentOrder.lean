import StyledText.Proofs.Conversion.Walk

/-!
# Conversion in document order

A conversion is a single pass over the stops of the walk: `toText_eq_gather` says that the text of
a node is made of the runs of the stops, in document order, and that it fails where the first stop
fails. What a stop contributes depends on its visit alone (`Conversion.runsAt`), so nothing leaks
from one part of the tree into another.
-/

namespace StyledText.Markdown

namespace Conversion

/-! ## The runs of a stop -/

/-- What an item of a list starts with. -/
def leadText (c : Conversion) (t : Tree) (item : NodeId) (position : Nat) : String :=
  match t.parent? item with
  | some list =>
    match t.kind list with
    | .list kind start _ =>
      String.join (List.replicate (t.nestingLevel list) c.options.indent) ++
        kind.marker (t.markerTier list) (c.itemNumber start position) c.options.markers ++ " "
    | _ => ""
  | none => ""

/-- The runs that a stop contributes. -/
def runsAt (c : Conversion) (t : Tree) (inherited : Attributes) (s : Stop) :
    Except ConversionError (List Run) :=
  let attributes := s.visit.attributes c.inheritance inherited
  let kind := t.kind s.visit.node
  match s.part with
  | .separator => .ok [{ text := paragraphSeparator.toString }]
  | .lead => .ok [{ text := c.leadText t s.visit.node s.visit.position, attributes }]
  | .leaf => .ok [{ text := kind.leafText?.getD "", attributes }]
  | .image =>
    let destination := kind.destination?.getD ""
    match c.attachments.get? destination with
    | some attachment => .ok [.ofAttachment attachment attributes]
    | none => .error (.attachmentMissing destination)
  | .html =>
    match c.options.html.render (t.outline s.visit.node).toHtml attributes with
    | .ok text => .ok text.runs
    | .error e => .error (.html e)
  | .blank => .ok [{}]

/-- The runs of stops in a row. The first failure ends it. -/
def gather (c : Conversion) (t : Tree) (inherited : Attributes) (stops : List Stop) :
    Except ConversionError (List Run) :=
  List.flatten <$> stops.mapM (c.runsAt t inherited)

variable {c : Conversion} {t : Tree} {inherited : Attributes}

/-- Gathering goes on where it stopped. -/
theorem gather_append (l m : List Stop) : c.gather t inherited (l ++ m) = do
    let first ← c.gather t inherited l
    let more ← c.gather t inherited m
    return first ++ more := by
  unfold gather
  rw [List.mapM_append]
  cases l.mapM (c.runsAt t inherited) with
  | error e => rfl
  | ok pieces =>
    cases m.mapM (c.runsAt t inherited) with
    | error e => rfl
    | ok more => exact congrArg Except.ok List.flatten_append

theorem gather_singleton (s : Stop) : c.gather t inherited [s] = c.runsAt t inherited s := by
  unfold gather
  rw [List.mapM_cons, List.mapM_nil]
  cases c.runsAt t inherited s with
  | error e => rfl
  | ok runs => exact congrArg Except.ok (List.append_nil runs)

/-- It succeeds on both parts or not at all. -/
theorem gather_append_eq_ok_iff {stops later : List Stop} {runs : List Run} :
    c.gather t inherited (stops ++ later) = .ok runs ↔
      ∃ first more, c.gather t inherited stops = .ok first ∧
        c.gather t inherited later = .ok more ∧ runs = first ++ more := by
  rw [gather_append]
  cases c.gather t inherited stops with
  | error e => simp [bind, Except.bind]
  | ok first =>
    cases c.gather t inherited later with
    | error e => simp [bind, Except.bind]
    | ok more => simp [bind, Except.bind, pure, Except.pure, eq_comm]

theorem gather_cons_eq_ok_iff {s : Stop} {stops : List Stop} {runs : List Run} :
    c.gather t inherited (s :: stops) = .ok runs ↔
    ∃ row more, c.runsAt t inherited s = .ok row ∧ c.gather t inherited stops = .ok more ∧
      runs = row ++ more := by
  rw [← List.singleton_append, gather_append_eq_ok_iff, gather_singleton]

/-- Each run is one of some stop. -/
theorem exists_stop_of_mem_gather {stops : List Stop} {runs : List Run}
    (hruns : c.gather t inherited stops = .ok runs) {r : Run} (hr : r ∈ runs) :
    ∃ s ∈ stops, ∃ row, c.runsAt t inherited s = .ok row ∧ r ∈ row := by
  induction stops generalizing runs with
  | nil =>
    rcases hruns with ⟨⟩
    exact absurd hr List.not_mem_nil
  | cons s stops ih =>
    obtain ⟨row, more, hrow, hmore, rfl⟩ := gather_cons_eq_ok_iff.1 hruns
    rcases List.mem_append.1 hr with hmem | hmem
    · exact ⟨s, List.mem_cons_self, row, hrow, hmem⟩
    · obtain ⟨s', hs', hrest⟩ := ih hmore hmem
      exact ⟨s', List.mem_cons_of_mem s hs', hrest⟩

/-! ## Rows of nodes -/

/-- The text of an item, its lead included. -/
def convertItem (c : Conversion) (enclosing : List ListKind) (attributes : Attributes)
    (kind : ListKind) (start position : Nat) : Outline → Except ConversionError Text
  | .node itemKind children => do
    let content ← c.convertAll (listsInside itemKind enclosing) attributes children
    let lead := c.itemLead enclosing kind (c.itemNumber start position)
    return .styled lead attributes ++ Text.joined blockSeparator content

/-- The recursion over siblings is a plain `mapM`. The positions are not used here. -/
theorem convertAll_eq_mapM (enclosing : List ListKind) (attributes : Attributes)
    (ids : List NodeId) (k : Nat) : c.convertAll enclosing attributes (ids.map t.outline) =
      (ids.zipIdx k).mapM fun e => c.convert enclosing attributes (t.outline e.1) := by
  induction ids generalizing k with
  | nil => simp only [List.map_nil, convertAll, List.zipIdx_nil, List.mapM_nil]; rfl
  | cons id rest ih =>
    simp only [List.map_cons, convertAll, List.zipIdx_cons, List.mapM_cons]
    rw [ih (k + 1)]

/-- So is the recursion over items, which have their positions for numbers. -/
theorem convertItems_eq_mapM (enclosing : List ListKind) (attributes : Attributes)
    (kind : ListKind) (start : Nat) (ids : List NodeId) (k : Nat) :
    c.convertItems enclosing attributes kind start k (ids.map t.outline) =
      (ids.zipIdx k).mapM fun e =>
        c.convertItem enclosing attributes kind start e.2 (t.outline e.1) := by
  induction ids generalizing k with
  | nil => simp only [List.map_nil, convertItems, List.zipIdx_nil, List.mapM_nil]; rfl
  | cons id rest ih =>
    simp only [List.map_cons, List.zipIdx_cons, List.mapM_cons]
    rw [← ih (k + 1)]
    cases t.outline id with
    | node itemKind children =>
      simp only [convertItems, convertItem]
      cases c.convertAll (listsInside itemKind enclosing) attributes children <;> rfl

/-- What sets a node apart from the sibling before it. -/
def separatorOf : Role → Option String
  | .inline => none
  | .block | .item => blockSeparator

/-- The runs of a separator. -/
def separatorRuns (role : Role) : List Run := ((separatorOf role).map fun s => { text := s }).toList

/-- The runs of siblings that come after others. -/
theorem gather_later (v : Visit) (role : Role) (f : NodeId × Nat → Except ConversionError Text)
    (es : List (NodeId × Nat)) (hf : ∀ e ∈ es, c.gather t inherited (t.stopsFrom
      (t.visitChild v role e)) = (fun text => separatorRuns role ++ text.runs) <$> f e) :
    c.gather t inherited ((es.map (t.visitChild v role)).flatMap t.stopsFrom) =
      (fun texts => texts.flatMap fun part => separatorRuns role ++ part.runs) <$> es.mapM f := by
  induction es with
  | nil => rfl
  | cons e rest ih =>
    have hfirst := hf e List.mem_cons_self
    have hrest := ih fun e he => hf e (List.mem_cons_of_mem _ he)
    rw [List.map_cons, List.flatMap_cons, gather_append, hfirst, hrest, List.mapM_cons]
    cases f e with
    | error e => rfl
    | ok text => cases rest.mapM f <;> rfl

/-- The runs of all siblings. -/
theorem gather_row (v : Visit) (role : Role) (f : NodeId × Nat → Except ConversionError Text)
    (ids : List NodeId) (hne : ids ≠ []) (hf : ∀ e ∈ ids.zipIdx, c.gather t inherited
      (t.stopsFrom (t.visitChild v role e)) =
        (fun text => (if 0 < e.2 then separatorRuns role else []) ++ text.runs) <$> f e) :
    c.gather t inherited ((ids.zipIdx.map (t.visitChild v role)).flatMap t.stopsFrom) =
      (fun texts => (Text.joined (separatorOf role) texts).runs) <$> ids.zipIdx.mapM f := by
  cases ids with
  | nil => contradiction
  | cons id rest =>
    -- Only the first sibling comes without a separator.
    rw [List.zipIdx_cons] at hf ⊢
    have hfirst := hf (id, 0) List.mem_cons_self
    have hrest := gather_later v role f (rest.zipIdx 1) fun e he => by
      have hpos := List.le_snd_of_mem_zipIdx he
      rw [hf e (List.mem_cons_of_mem _ he), if_pos (by omega)]
    rw [List.map_cons, List.flatMap_cons, gather_append, hfirst, hrest, List.mapM_cons]
    cases f (id, 0) with
    | error e => rfl
    | ok text => cases (rest.zipIdx 1).mapM f <;> rfl

/-! ## Leads -/

/-- The lists around an item are counted from its own list upwards. -/
theorem length_enclosingLists (h : t.Linked) {item list : NodeId}
    (hparent : t.parent? item = some list) :
    (t.enclosingLists item).length = t.nestingLevel list := by
  unfold Tree.enclosingLists
  rw [h.ancestors_of_parent? hparent, List.tail_cons, List.length_filterMap_eq_countP]
  rfl

theorem count_enclosingLists (h : t.Linked) {item list : NodeId} {kind : ListKind}
    (hparent : t.parent? item = some list) (hkind : (t.kind list).list? = some kind) :
    (t.enclosingLists item).count kind = t.markerTier list := by
  unfold Tree.enclosingLists Tree.markerTier
  rw [h.ancestors_of_parent? hparent, List.tail_cons, List.count_filterMap, hkind]
  apply List.countP_congr
  intro a _
  simp

/-- An item starts with the lead that its list gives it. -/
theorem itemLead_eq_leadText (h : t.Linked) {item list : NodeId} {kind : ListKind} {start : Nat}
    {tight : Bool} (hparent : t.parent? item = some list)
    (hlist : t.kind list = .list kind start tight) (position : Nat) :
    c.itemLead (t.enclosingLists item) kind (c.itemNumber start position) =
      c.leadText t item position := by
  have hkind : (t.kind list).list? = some kind := by rw [hlist]; rfl
  unfold itemLead leadText
  rw [length_enclosingLists h hparent, count_enclosingLists h hparent hkind, hparent]
  simp only [hlist]

/-! ## The stops of a visit -/

/-- What a visit leaves in the text besides the separator before it. -/
def ownStops (t : Tree) (v : Visit) : List Stop :=
  (Part.all.tail.filter fun part => t.Shows v part).map (Stop.mk v)

/-- The runs between a visit and the sibling before it. -/
def runsBefore (v : Visit) : List Run := if 0 < v.position then separatorRuns v.role else []

/-- The runs from a visit on begin with the separator before it, if there is one. -/
theorem gather_stopsFrom (h : t.Linked) (v : Visit) : c.gather t inherited (t.stopsFrom v) =
    (runsBefore v ++ ·) <$>
      c.gather t inherited (ownStops t v ++ (t.nexts v).flatMap t.stopsFrom) := by
  -- The separator is the first part of a visit.
  have hseparator : t.stopsAt v =
      (if t.Shows v .separator then [⟨v, .separator⟩] else []) ++ ownStops t v := by
    unfold Tree.stopsAt ownStops Part.all
    rw [List.filter_cons]
    by_cases hshows : t.Shows v .separator <;> simp [hshows]
  have hruns : c.gather t inherited (if t.Shows v .separator then [⟨v, .separator⟩] else []) =
      .ok (runsBefore v) := by
    unfold runsBefore
    cases hrole : v.role with
    | inline => simp [Tree.Shows, hrole, separatorRuns, separatorOf]; rfl
    | block =>
      by_cases hpos : 0 < v.position <;> simp [Tree.Shows, hrole, hpos, gather_singleton] <;> rfl
    | item =>
      by_cases hpos : 0 < v.position <;> simp [Tree.Shows, hrole, hpos, gather_singleton] <;> rfl
  rw [Tree.stopsFrom_eq h, hseparator, List.append_assoc, gather_append, hruns]
  cases c.gather t inherited (ownStops t v ++ (t.nexts v).flatMap t.stopsFrom) <;> rfl

/-- Where the walk goes on, there is nothing of a visit's own but the lead of an item and what
stands for missing content. -/
theorem ownStops_of_within {v : Visit} {role : Role} (hrole : t.within v = some role) :
    ownStops t v = (if v.role = .item then [⟨v, .lead⟩] else []) ++
      if t.children v.node = [] then [⟨v, .blank⟩] else [] := by
  -- A node with children to go on to is no leaf, and nothing is rendered in its place.
  have hnone : ¬ t.Shows v .leaf ∧ ¬ t.Shows v .image ∧ ¬ t.Shows v .html := by
    unfold Tree.within at hrole
    split at hrole
    · next hitem => simp [Tree.Shows, hitem]
    · split at hrole <;> simp_all [Tree.Shows, Kind.leafText?, Kind.literal?, Kind.destination?]
  have hlead : t.Shows v .lead ↔ v.role = .item := Iff.rfl
  have hblank : t.Shows v .blank ↔ t.children v.node = [] := by simp [Tree.Shows, hrole]
  unfold ownStops Part.all
  simp only [List.tail_cons, List.filter_cons, List.filter_nil, hnone, hlead, hblank]
  by_cases hitem : v.role = .item <;> by_cases hempty : t.children v.node = [] <;>
    simp [hitem, hempty]

/-- Where the walk ends, a visit leaves one stop at most. -/
theorem ownStops_of_end {v : Visit} (hrole : t.within v = none) :
    ownStops t v = ([.leaf, .image, .html].filter fun part => t.Shows v part).map (Stop.mk v) := by
  have hlead : ¬ t.Shows v .lead := by
    intro (hitem : v.role = .item)
    rw [Tree.within, if_pos hitem] at hrole
    contradiction
  have hblank : ¬ t.Shows v .blank := by simp [Tree.Shows, hrole]
  unfold ownStops Part.all
  simp only [List.tail_cons, List.filter_cons, List.filter_nil, hlead, hblank]
  rfl

/-- The runs of what a visit holds, where the walk goes on. -/
theorem gather_content {v : Visit} {role : Role} (hrole : t.within v = some role)
    (f : NodeId × Nat → Except ConversionError Text)
    (hf : ∀ e ∈ (t.children v.node).zipIdx, c.gather t inherited
      (t.stopsFrom (t.visitChild v role e)) =
        (fun text => runsBefore (t.visitChild v role e) ++ text.runs) <$> f e) :
    c.gather t inherited ((if t.children v.node = [] then [⟨v, .blank⟩] else []) ++
        (t.nexts v).flatMap t.stopsFrom) =
      (fun texts => (Text.joined (separatorOf role) texts).runs) <$>
        (t.children v.node).zipIdx.mapM f := by
  have hnexts : t.nexts v = (t.children v.node).zipIdx.map (t.visitChild v role) := by
    rw [Tree.nexts, hrole]
  rw [hnexts]
  by_cases hempty : t.children v.node = []
  · rw [if_pos hempty, hempty]
    exact gather_singleton _
  · rw [if_neg hempty, List.nil_append]
    apply gather_row v role f _ hempty
    intro e he
    rw [hf e he, runsBefore, t.position_visitChild]
    rfl

/-! ## Whole nodes -/

/-- What a conversion hands down are the lists around the child. -/
theorem listsInside_eq (h : t.Linked) {id p : NodeId} (hparent : t.parent? id = some p) :
    listsInside (t.kind p) (t.enclosingLists p) = t.enclosingLists id :=
  (h.enclosingLists_of_parent? hparent).symm

/-- What the runs from a visit on are, if `above` are the attributes that its node inherits. -/
structure Agrees (c : Conversion) (t : Tree) (inherited : Attributes) (id : NodeId) : Prop where
  node : ∀ {v} above, v.node = id → v.role ≠ .item →
    v.attributes c.inheritance inherited = c.inheritance.resolve (t.kind id) above →
    c.gather t inherited (t.stopsFrom v) = (fun text => runsBefore v ++ text.runs) <$>
      c.convert (t.enclosingLists id) above (t.outline id)
  item : ∀ {v list kind start tight}, v.node = id → v.role = .item → t.parent? id = some list →
    t.kind list = .list kind start tight →
    c.gather t inherited (t.stopsFrom v) = (fun text => runsBefore v ++ text.runs) <$>
      c.convertItem (t.enclosingLists id) (v.attributes c.inheritance inherited) kind start
        v.position (t.outline id)

theorem holdsHtml_outline (h : t.Linked) (id : NodeId) :
    holdsHtml ((t.children id).map t.outline) = t.holdsHtml id := by
  unfold holdsHtml Tree.holdsHtml
  rw [List.any_map]
  congr 1
  funext child
  rw [Function.comp_apply, h.outline_eq]
  rfl

section Step

variable {id : NodeId} {v : Visit} {role : Role}

/-- The children agree with their conversion, so a row of blocks or inline nodes does. -/
theorem gather_nodes (h : t.Linked) (ih : ∀ child ∈ t.children id, Agrees c t inherited child)
    (hnode : v.node = id) (hrole : t.within v = some role) (hitem : role ≠ .item) :
    c.gather t inherited ((if t.children v.node = [] then [⟨v, .blank⟩] else []) ++
        (t.nexts v).flatMap t.stopsFrom) =
      (fun texts => (Text.joined (separatorOf role) texts).runs) <$>
        c.convertAll (listsInside (t.kind id) (t.enclosingLists id))
          (v.attributes c.inheritance inherited) ((t.children id).map t.outline) := by
  subst hnode
  rw [convertAll_eq_mapM _ _ _ 0]
  apply gather_content hrole
  intro e he
  have hmem := List.fst_mem_of_mem_zipIdx he
  rw [listsInside_eq h (h.mem_children_iff.1 hmem)]
  apply (ih e.1 hmem).node _ rfl hitem
  rw [Tree.attributes_visitChild, if_neg hitem]

/-- The items of a list agree with their conversion, so their row does. -/
theorem gather_items (h : t.Linked) (ih : ∀ child ∈ t.children id, Agrees c t inherited child)
    (hnode : v.node = id) (hrole : t.within v = some .item) {kind : ListKind} {start : Nat}
    {tight : Bool} (hkind : t.kind id = .list kind start tight) :
    c.gather t inherited ((if t.children v.node = [] then [⟨v, .blank⟩] else []) ++
        (t.nexts v).flatMap t.stopsFrom) =
      (fun texts => (Text.joined blockSeparator texts).runs) <$>
        c.convertItems (listsInside (t.kind id) (t.enclosingLists id))
          (v.attributes c.inheritance inherited) kind start 0 ((t.children id).map t.outline) := by
  subst hnode
  rw [convertItems_eq_mapM]
  -- each item inherits the lists around it from the list, and its number from its position
  apply gather_content hrole
  intro e he
  have hparent := h.mem_children_iff.1 (List.fst_mem_of_mem_zipIdx he)
  rw [listsInside_eq h hparent]
  have hagrees := (ih e.1 (List.fst_mem_of_mem_zipIdx he)).item (v := t.visitChild v .item e)
    rfl rfl hparent hkind
  rw [Tree.attributes_visitChild, Tree.position_visitChild] at hagrees
  exact hagrees

/-- A container shows nothing of its own. -/
theorem gather_container (hitem : v.role ≠ .item) (hrole : t.within v = some role) :
    c.gather t inherited (ownStops t v ++ (t.nexts v).flatMap t.stopsFrom) =
      c.gather t inherited ((if t.children v.node = [] then [⟨v, .blank⟩] else []) ++
        (t.nexts v).flatMap t.stopsFrom) := by
  rw [ownStops_of_within hrole, if_neg hitem, List.nil_append]

/-- Where the walk ends, only what is shown of the node itself is left. -/
theorem gather_end (hrole : t.within v = none) (parts : List Part)
    (hparts : ([.leaf, .image, .html].filter fun part => t.Shows v part) = parts) :
    c.gather t inherited (ownStops t v ++ (t.nexts v).flatMap t.stopsFrom) =
      c.gather t inherited (parts.map (Stop.mk v)) := by
  rw [ownStops_of_end hrole, hparts, Tree.nexts, hrole]
  simp

/-- One level of the tree: the conversion of a node agrees with the walk, if those of its children
do. -/
theorem gather_node (h : t.Linked) (ih : ∀ child ∈ t.children id, Agrees c t inherited child)
    {above : Attributes} (hnode : v.node = id) (hitem : v.role ≠ .item)
    (hattributes : v.attributes c.inheritance inherited = c.inheritance.resolve (t.kind id) above) :
    c.gather t inherited (ownStops t v ++ (t.nexts v).flatMap t.stopsFrom) =
      (fun text => text.runs) <$> c.convert (t.enclosingLists id) above (t.outline id) := by
  subst hnode
  have houtline := h.outline_eq v.node
  cases hkind : t.kind v.node with
  | text | code | inlineHtml | codeBlock | htmlBlock | softBreak | hardBreak | thematicBreak =>
    have hwithin : t.within v = none := by simp [Tree.within, hitem, hkind]
    rw [gather_end hwithin [.leaf] (by simp [Tree.Shows, hitem, hkind,
      Kind.leafText?, Kind.literal?, Kind.destination?]), List.map_singleton, gather_singleton,
      houtline, hkind]
    simp only [convert, runsAt, hattributes, hkind]
    rfl
  | document | blockQuote | item =>
    have hholds := holdsHtml_outline h v.node
    by_cases hhtml : t.holdsHtml v.node
    · -- The renderer takes over.
      have hwithin : t.within v = none := by simp [Tree.within, hitem, hkind, hhtml]
      rw [gather_end hwithin [.html] (by simp [Tree.Shows, hitem, hkind, hhtml,
        Kind.leafText?, Kind.literal?, Kind.destination?]), List.map_singleton, gather_singleton]
      simp only [runsAt, hattributes, hkind]
      rw [houtline, hkind]
      simp only [convert, hholds, hhtml, if_true, renderHtml]
      cases c.options.html.render _ _ <;> rfl
    · have hwithin : t.within v = some .block := by simp [Tree.within, hitem, hkind, hhtml]
      rw [gather_container hitem hwithin, gather_nodes h ih rfl hwithin (by decide),
        houtline, hattributes, hkind]
      simp only [convert, hholds, hhtml, Functor.map_map, if_false, Bool.false_eq_true]
      rfl
  | paragraph | heading | emphasis | strong | link =>
    have hwithin : t.within v = some .inline := by simp [Tree.within, hitem, hkind]
    rw [gather_container hitem hwithin, gather_nodes h ih rfl hwithin (by decide), houtline,
      hattributes, hkind]
    simp only [convert, Functor.map_map]
    rfl
  | list kind start tight =>
    have hwithin : t.within v = some .item := by simp [Tree.within, hitem, hkind]
    rw [gather_container hitem hwithin, gather_items h ih rfl hwithin hkind, houtline,
      hattributes, hkind]
    simp only [convert, Functor.map_map]
  | image destination title alt =>
    have hwithin : t.within v = none := by simp [Tree.within, hitem, hkind]
    rw [houtline, hkind]
    by_cases hempty : destination = ""
    · rw [gather_end hwithin [] (by simp [Tree.Shows, hkind, hempty,
        Kind.leafText?, Kind.literal?, Kind.destination?])]
      simp only [convert, image, hempty, if_true]
      rfl
    · rw [gather_end hwithin [.image] (by simp [Tree.Shows, hitem, hkind, hempty,
        Kind.leafText?, Kind.literal?, Kind.destination?]), List.map_singleton, gather_singleton]
      simp only [runsAt, convert, image, hattributes, hkind, Kind.destination?, hempty, if_false,
        Option.getD_some]
      cases c.attachments.get? destination <;> rfl
  | unsupported name =>
    have hwithin : t.within v = none := by simp [Tree.within, hitem, hkind]
    rw [gather_end hwithin [] (by simp [Tree.Shows, hkind,
      Kind.leafText?, Kind.literal?, Kind.destination?]), houtline, hkind]
    simp only [convert]
    rfl

end Step

/-- The conversion is the walk, for all nodes and in both roles. -/
theorem agrees (h : t.Linked) (id : NodeId) : Agrees c t inherited id := by
  -- from the children to their parent; a node is converted as itself or as the item of a list
  refine h.induction_up ?_ id
  intro id ih
  constructor
  · intro v above hnode hitem hattributes
    rw [gather_stopsFrom h, gather_node h ih hnode hitem hattributes]
    cases c.convert (t.enclosingLists id) above (t.outline id) <;> rfl
  · intro v list kind start tight hnode hrole hparent hlist
    have hwithin : t.within v = some .block := by rw [Tree.within, if_pos hrole]
    have hcontent := gather_nodes h ih hnode hwithin (by decide)
    rw [gather_stopsFrom h, ownStops_of_within hwithin, if_pos hrole, List.append_assoc,
      gather_append, gather_singleton, hcontent, h.outline_eq, convertItem,
      itemLead_eq_leadText h hparent hlist]
    subst hnode
    cases c.convertAll (listsInside (t.kind v.node) (t.enclosingLists v.node))
      (v.attributes c.inheritance inherited) ((t.children v.node).map t.outline) with
    | error e => rfl
    | ok texts => rfl

end Conversion

namespace Tree

variable {t : Tree}

/-- The children of lists are items. -/
def ListsHoldItems (t : Tree) : Prop :=
  ∀ list, (t.kind list).list?.isSome → ∀ c ∈ t.children list, t.kind c = .item

/-- It is enough to look at the nodes that are there. -/
theorem listsHoldItems_iff : t.ListsHoldItems ↔ ∀ list < t.size, (t.kind list).list?.isSome →
    ∀ c ∈ t.children list, t.kind c = .item := by
  constructor
  · exact fun h list _ => h list
  · intro h list hlist c hc
    exact h list (lt_size_of_mem_children hc) hlist c hc

instance (t : Tree) : Decidable t.ListsHoldItems := decidable_of_iff' _ listsHoldItems_iff

/-- What the walk comes to as an item is one. -/
theorem ListsHoldItems.kind_eq (h : t.ListsHoldItems) {v : Visit} {role : Role} {c : NodeId}
    (hrole : t.within v = some role) (hc : c ∈ t.children v.node) :
    (if role = .item then .item else t.kind c) = t.kind c := by
  split
  · next hitem =>
    subst hitem
    have hlist : (t.kind v.node).list?.isSome := by
      unfold within at hrole
      split at hrole
      · simp at hrole
      · split at hrole <;> simp_all [Kind.list?]
    exact (h v.node hlist c hc).symm
  · rfl

/-- The kinds on the way of a visit are those of the node and of the nodes that hold it. -/
theorem Reaches.path_eq (h : t.Linked) (hitems : t.ListsHoldItems) {id : NodeId} {v : Visit}
    (hreach : t.Reaches (t.visitTop id) v) :
    v.path = ((t.ancestors v.node).take (v.place.length + 1)).reverse.map t.kind := by
  induction hreach with
  | refl =>
    cases hparent : t.parent? id with
    | none => simp [visitTop, ancestors_of_parent?_eq_none hparent]
    | some p => simp [visitTop, h.ancestors_of_parent? hparent]
  | tail _ hstep ih =>
    rcases mem_nexts_iff.1 hstep with ⟨role, i, c, hrole, hc, rfl⟩
    next v _ =>
    have hmem := List.mem_of_getElem? hc
    have hkind := hitems.kind_eq hrole hmem
    -- The way to a child is the way to its parent with one more kind at the end.
    simp only [visitChild, hkind, List.length_append, List.length_singleton]
    rw [h.ancestors_of_parent? (h.mem_children_iff.1 hmem), List.take_succ_cons,
      List.reverse_cons, List.map_append, ← ih]
    rfl

/-- The text of a node is made of the runs of the stops from the visit of that node on. -/
theorem toText_eq_gather (h : t.Linked) (id : NodeId) (inherited : Attributes)
    (attachments : Attachments) (options : ConversionOptions) :
    t.toText id inherited attachments options =
      Text.mk <$> Conversion.gather { options, attachments } t inherited
        (t.stopsFrom (t.visitTop id)) := by
  have hagrees : Conversion.Agrees { options, attachments } t inherited id :=
    Conversion.agrees h id
  rw [hagrees.node (v := t.visitTop id) inherited rfl (by simp [visitTop]) rfl]
  unfold toText
  cases Conversion.convert _ _ inherited (t.outline id) <;> rfl

/-- A conversion succeeds with the runs of its stops. -/
theorem toText_eq_ok_iff (h : t.Linked) {id : NodeId} {inherited : Attributes}
    {attachments : Attachments} {options : ConversionOptions} {text : Text} :
    t.toText id inherited attachments options = .ok text ↔
      Conversion.gather { options, attachments } t inherited (t.stopsFrom (t.visitTop id)) =
        .ok text.runs := by
  rw [toText_eq_gather h]
  obtain ⟨runs⟩ := text
  cases Conversion.gather _ t inherited (t.stopsFrom (t.visitTop id)) <;>
    simp [Functor.map, Except.map]

/-- The text of a node is made of the runs of the stops of the walk, in document order. The
attributes of a stop come from the kinds on the way to it. -/
theorem toText_gathers_stops (h : t.Built) (hitems : t.ListsHoldItems) (id : NodeId)
    (inherited : Attributes) (attachments : Attachments) (options : ConversionOptions) :
    ∃ stops : List Stop,
      stops.Pairwise Stop.Before ∧
      (∀ s, s ∈ stops ↔ t.Reaches (t.visitTop id) s.visit ∧ t.Shows s.visit s.part) ∧
      (∀ s ∈ stops, s.visit.path =
        ((t.ancestors s.visit.node).take (s.visit.place.length + 1)).reverse.map t.kind) ∧
      t.toText id inherited attachments options =
        Text.mk <$> Conversion.gather { options, attachments } t inherited stops := by
  have hlinked := h.linked
  refine ⟨t.stopsFrom (t.visitTop id), stopsFrom_sorted hlinked _,
    fun s => mem_stopsFrom_iff hlinked, ?_, ?_⟩
  · intro s hs
    exact ((mem_stopsFrom_iff hlinked).1 hs).1.path_eq hlinked hitems
  · -- the top is visited as itself, with the attributes that are handed to the conversion
    have hagrees : Conversion.Agrees { options, attachments } t inherited id :=
      Conversion.agrees hlinked id
    rw [hagrees.node (v := t.visitTop id) inherited rfl (by simp [visitTop]) rfl]
    unfold toText
    cases Conversion.convert _ _ inherited (t.outline id) <;> rfl

/-- A document with a paragraph, a list with an empty item, and a quotation of raw markup. -/
def leaflet : Tree :=
  (((((((((ofRoot .document).push 0 .paragraph).push 1 (.text "Bring")).push 0
    (.list .bullet 1 true)).push 3 .item).push 4 (.strong)).push 5 (.text "rope")).push 3
    .item).push 0 .blockQuote).push 8 (.htmlBlock "<hr>")

theorem leaflet_gathers_stops : leaflet.Built ∧ leaflet.ListsHoldItems ∧
    ∃ stops : List Stop,
      stops.Pairwise Stop.Before ∧
      (∀ s, s ∈ stops ↔ leaflet.Reaches (leaflet.visitTop 0) s.visit ∧
        leaflet.Shows s.visit s.part) ∧
      (∀ s ∈ stops, s.visit.path =
        ((leaflet.ancestors s.visit.node).take (s.visit.place.length + 1)).reverse.map
          leaflet.kind) ∧
      leaflet.toText 0 {} {} {} =
        Text.mk <$> Conversion.gather { options := {}, attachments := {} } leaflet {} stops := by
  have hbuilt : leaflet.Built := by
    unfold leaflet
    repeat refine .push _ ?_ (by simp)
    exact .ofRoot _
  have hitems : leaflet.ListsHoldItems := by
    have hall : ∀ list < leaflet.size, (leaflet.kind list).list?.isSome →
        ∀ c ∈ leaflet.children list, leaflet.kind c = .item := by decide
    intro list hlist c hc
    exact hall list (lt_size_of_mem_children hc) hlist c hc
  exact ⟨hbuilt, hitems, toText_gathers_stops hbuilt hitems 0 {} {} {}⟩

end Tree

end StyledText.Markdown
