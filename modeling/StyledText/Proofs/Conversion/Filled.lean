import StyledText.Proofs.Conversion.DocumentOrder

/-!
# Trees with values filled in

Inline markup such as `<key name/>` is a placeholder: it stands for the value of a variable.
`Tree.filled` puts values, as texts, where the walk from a node comes to a placeholder. The walk
through the filled tree makes the same stops (`stopsFrom_filled`).
-/

namespace StyledText.Markdown

/-! ## Placeholders -/

namespace Kind

variable {values : OrderedMap String String} {kind : Kind}

/-- The variable that inline markup names, and the markup itself. -/
def placeholder? : Kind → Option (String × String)
  | .inlineHtml s =>
    match RawMarkup.assignment? s with
    | some (.variableName, name) => some (name, s)
    | _ => none
  | _ => none

/-- The kind with the value of its variable, if one is given. -/
def filled (values : OrderedMap String String) (kind : Kind) : Kind :=
  match kind.placeholder?.bind fun p => values.get? p.1 with
  | some value => .text value
  | none => kind

/-- Only placeholders are filled. -/
theorem filled_of_placeholder?_eq_none (h : kind.placeholder? = none) :
    kind.filled values = kind := by
  simp [filled, h]

/-- Only inline markup is replaced, and only by text. -/
theorem filled_cases (values : OrderedMap String String) (kind : Kind) :
    kind.filled values = kind ∨
      ∃ s value, kind = .inlineHtml s ∧ kind.filled values = .text value := by
  unfold filled
  split
  · next value hvalue =>
    obtain ⟨p, hp, -⟩ := Option.bind_eq_some_iff.1 hvalue
    cases kind with
    | inlineHtml s => exact .inr ⟨s, value, rfl, rfl⟩
    | _ => cases hp
  · exact .inl rfl

/-- What is filled is no placeholder any more. -/
@[simp] theorem filled_filled : (kind.filled values).filled values = kind.filled values := by
  rcases filled_cases values kind with h | ⟨s, value, -, h⟩
  · rw [h, h]
  · rw [h]
    rfl

end Kind

/-! ## Filled trees -/

namespace Tree

/-- The leaves that the walk from a node comes to. -/
def leaves (t : Tree) (id : NodeId) : List NodeId :=
  ((t.stopsFrom (t.visitTop id)).filter fun s => s.part = .leaf).map fun s => s.visit.node

def fillAll (values : OrderedMap String String) (nodes : List NodeId) (t : Tree) : Tree :=
  nodes.foldl (fun u n => u.modifyKind n (Kind.filled values)) t

/-- The tree with values for the placeholders that the walk from a node comes to. -/
def filled (t : Tree) (id : NodeId) (values : OrderedMap String String) : Tree :=
  t.fillAll values (t.leaves id)

variable {values : OrderedMap String String} {t u : Tree} {id n : NodeId} {nodes : List NodeId}

@[simp] theorem size_fillAll : (fillAll values nodes t).size = t.size := by
  induction nodes generalizing t with
  | nil => rfl
  | cons node rest ih => exact ih.trans size_modifyKind

@[simp] theorem parent?_fillAll : (fillAll values nodes t).parent? n = t.parent? n := by
  induction nodes generalizing t with
  | nil => rfl
  | cons node rest ih => exact ih.trans parent?_modifyKind

@[simp] theorem children_fillAll : (fillAll values nodes t).children n = t.children n := by
  induction nodes generalizing t with
  | nil => rfl
  | cons node rest ih => exact ih.trans children_modifyKind

/-- Filling one node leaves the others as they are. -/
theorem kind_modifyKind_filled (node : NodeId) :
    (t.modifyKind node (Kind.filled values)).kind n =
      if n = node then (t.kind n).filled values else t.kind n := by
  by_cases hlt : node < t.size
  · exact kind_modifyKind hlt
  · -- a name that the tree does not know stands for a document
    have hle := Nat.le_of_not_lt hlt
    rw [modifyKind_of_size_le hle]
    split
    · next hn =>
      subst hn
      rw [kind, node_of_size_le hle]
      rfl
    · rfl

/-- Of several nodes that are filled, each one is, however often it comes up. -/
theorem kind_fillAll : (fillAll values nodes t).kind n =
    if n ∈ nodes then (t.kind n).filled values else t.kind n := by
  induction nodes generalizing t with
  | nil => rfl
  | cons node rest ih =>
    refine ih.trans ?_
    rw [kind_modifyKind_filled]
    by_cases hnode : n = node <;> by_cases hrest : n ∈ rest <;> simp [hnode, hrest]

theorem built_fillAll (h : t.Built) : (fillAll values nodes t).Built := by
  induction nodes generalizing t with
  | nil => exact h
  | cons node rest ih => exact ih (h.modifyKind node _)

/-- One tree is the other with values for some of its placeholders. -/
structure Fills (values : OrderedMap String String) (t u : Tree) : Prop where
  size_eq : u.size = t.size
  parent?_eq : ∀ n, u.parent? n = t.parent? n
  children_eq : ∀ n, u.children n = t.children n
  kind_eq : ∀ n, u.kind n = t.kind n ∨ u.kind n = (t.kind n).filled values

/-- A tree with some nodes filled differs by the kinds of placeholders only. -/
theorem fills_fillAll : Fills values t (fillAll values nodes t) := by
  refine ⟨size_fillAll, fun n => parent?_fillAll, fun n => children_fillAll, fun n => ?_⟩
  rw [kind_fillAll]
  split
  · exact .inr rfl
  · exact .inl rfl

end Tree

/-! ## The walk through a filled tree -/

/-- The visit with values for the placeholders on its way. -/
def Visit.filled (values : OrderedMap String String) (v : Visit) : Visit :=
  { v with path := v.path.map (Kind.filled values) }

def Stop.filled (values : OrderedMap String String) (s : Stop) : Stop :=
  { s with visit := s.visit.filled values }

namespace Tree

variable {values : OrderedMap String String} {t u : Tree} {v : Visit} {id n : NodeId}

namespace Fills

theorem kind_eq_of_no_placeholder (h : Fills values t u)
    (hnone : (t.kind n).placeholder? = none) : u.kind n = t.kind n := by
  rcases h.kind_eq n with hsame | hfilled
  · exact hsame
  · rw [hfilled, Kind.filled_of_placeholder?_eq_none hnone]

/-- Either a node stays what it is, or inline markup becomes text. -/
theorem kind_cases (h : Fills values t u) (n : NodeId) :
    u.kind n = t.kind n ∨ ∃ s value, t.kind n = .inlineHtml s ∧ u.kind n = .text value := by
  rcases h.kind_eq n with hsame | hfilled
  · exact .inl hsame
  · rw [hfilled]
    exact Kind.filled_cases values (t.kind n)

theorem list?_eq (h : Fills values t u) (n : NodeId) : (u.kind n).list? = (t.kind n).list? := by
  rcases h.kind_cases n with hsame | ⟨s, value, hinline, htext⟩
  · rw [hsame]
  · rw [hinline, htext]
    rfl

/-- Filling makes no block of raw markup, and takes none away. -/
theorem holdsHtml_eq (h : Fills values t u) (n : NodeId) : u.holdsHtml n = t.holdsHtml n := by
  unfold holdsHtml
  rw [h.children_eq]
  congr 1
  funext c
  rcases h.kind_cases c with hsame | ⟨s, value, hinline, htext⟩
  · rw [hsame]
  · rw [hinline, htext]
    rfl

/-- The walk goes on to the same children in the same roles. -/
theorem within_eq (h : Fills values t u) (v : Visit) : u.within (v.filled values) = t.within v := by
  unfold within
  have hrole : (v.filled values).role = v.role := rfl
  have hnode : (v.filled values).node = v.node := rfl
  rw [hrole, hnode, h.holdsHtml_eq]
  rcases h.kind_cases v.node with hsame | ⟨s, value, hinline, htext⟩
  · rw [hsame]
  · rw [hinline, htext]

/-- And it leaves the same parts in the text. -/
theorem shows_iff (h : Fills values t u) (v : Visit) (part : Part) :
    u.Shows (v.filled values) part ↔ t.Shows v part := by
  have hrole : (v.filled values).role = v.role := rfl
  have hnode : (v.filled values).node = v.node := rfl
  have hposition : (v.filled values).position = v.position := rfl
  cases part with
  | separator | lead => rfl
  | leaf | image =>
    unfold Shows
    rw [hrole, hnode]
    rcases h.kind_cases v.node with hsame | ⟨s, value, hinline, htext⟩
    · rw [hsame]
    · rw [hinline, htext]
      rfl
  | html =>
    unfold Shows
    rw [hrole, hnode, h.holdsHtml_eq]
    rcases h.kind_cases v.node with hsame | ⟨s, value, hinline, htext⟩
    · rw [hsame]
    · rw [hinline, htext]
      simp
  | blank =>
    unfold Shows
    rw [h.within_eq, hnode, h.children_eq]

theorem stopsAt_eq (h : Fills values t u) (v : Visit) :
    u.stopsAt (v.filled values) = (t.stopsAt v).map (Stop.filled values) := by
  unfold stopsAt
  rw [List.map_map]
  simp only [h.shows_iff]
  rfl

theorem ancestors_eq (h : Fills values t u) (n : NodeId) : u.ancestors n = t.ancestors n := by
  have hchain : ∀ steps n, u.chain steps n = t.chain steps n := by
    intro steps
    induction steps with
    | zero => exact fun n => rfl
    | succ steps ih =>
      intro n
      rw [chain, chain, h.parent?_eq]
      cases t.parent? n with
      | none => rfl
      | some p => exact congrArg (n :: ·) (ih p)
  unfold ancestors
  rw [h.size_eq, hchain]

/-- Lists are as they were, and so are the markers of their items. -/
theorem leadText_eq (h : Fills values t u) (c : Conversion) (item : NodeId) (position : Nat) :
    c.leadText u item position = c.leadText t item position := by
  unfold Conversion.leadText nestingLevel markerTier
  simp only [h.parent?_eq, h.ancestors_eq, h.list?_eq]
  cases t.parent? item with
  | none => rfl
  | some list =>
    rcases h.kind_cases list with hsame | ⟨s, value, hinline, htext⟩
    · simp only [hsame]
    · simp only [hinline, htext]

end Fills

/-- Where all leaves of the walk are filled, so are its visits. -/
theorem nexts_filled (hfills : Fills values t u)
    (hleaves : ∀ w, t.Reaches (t.visitTop id) w → w.role ≠ .item →
      u.kind w.node = (t.kind w.node).filled values)
    (hreach : t.Reaches (t.visitTop id) v) :
    u.nexts (v.filled values) = (t.nexts v).map (Visit.filled values) := by
  have hnode : (v.filled values).node = v.node := rfl
  unfold nexts
  rw [hfills.within_eq, hnode, hfills.children_eq]
  cases hrole : t.within v with
  | none => rfl
  | some role =>
    rw [List.map_map]
    apply List.map_congr_left
    intro e he
    have hnext : t.visitChild v role e ∈ t.nexts v :=
      mem_nexts_iff.2 ⟨role, e.2, e.1, hrole, List.mk_mem_zipIdx_iff_getElem?.1 he, rfl⟩
    have hkind : (if role = .item then .item else u.kind e.1) =
        Kind.filled values (if role = .item then .item else t.kind e.1) := by
      by_cases hitem : role = .item
      · rw [if_pos hitem, if_pos hitem]
        rfl
      · rw [if_neg hitem, if_neg hitem]
        exact hleaves _ (hreach.tail hnext) hitem
    simp [visitChild, Visit.filled, hkind]

/-- So the walk through the filled tree has the same stops, but for the kinds on the way. -/
theorem stopsFrom_filled (h : t.Linked) (hu : u.Linked) (hfills : Fills values t u)
    (hleaves : ∀ w, t.Reaches (t.visitTop id) w → w.role ≠ .item →
      u.kind w.node = (t.kind w.node).filled values)
    (hreach : t.Reaches (t.visitTop id) v) :
    u.stopsFrom (v.filled values) = (t.stopsFrom v).map (Stop.filled values) := by
  have hnode : ∀ n, ∀ v : Visit, v.node = n → t.Reaches (t.visitTop id) v →
      u.stopsFrom (v.filled values) = (t.stopsFrom v).map (Stop.filled values) := by
    refine h.induction_up ?_
    intro n ih v hv hreach
    rw [stopsFrom_eq hu, stopsFrom_eq h, hfills.stopsAt_eq, nexts_filled hfills hleaves hreach,
      List.map_append, List.flatMap_map, List.map_flatMap]
    congr 1
    apply List.flatMap_congr
    intro w hw
    exact ih w.node (hv ▸ node_mem_children hw) w rfl (hreach.tail hw)
  exact hnode v.node v rfl hreach

/-- Every leaf that the walk comes to is filled. -/
theorem kind_filled (h : t.Linked) (hreach : t.Reaches (t.visitTop id) v) (hrole : v.role ≠ .item) :
    (t.filled id values).kind v.node = (t.kind v.node).filled values := by
  rw [filled, kind_fillAll]
  split
  · rfl
  · next hleaf =>
    symm
    apply Kind.filled_of_placeholder?_eq_none
    cases hkind : t.kind v.node with
    | inlineHtml s =>
      have hshows : t.Shows v .leaf := ⟨hrole, by rw [hkind]; rfl⟩
      have hstop : (⟨v, .leaf⟩ : Stop) ∈ t.stopsFrom (t.visitTop id) :=
        (mem_stopsFrom_iff h).2 ⟨hreach, hshows⟩
      exact absurd (List.mem_map_of_mem (List.mem_filter.2 ⟨hstop, rfl⟩)) hleaf
    | _ => rfl

theorem built_filled (h : t.Built) (id : NodeId) (values : OrderedMap String String) :
    (t.filled id values).Built := built_fillAll h

/-- The walk through the filled tree makes the stops of the walk through the tree. -/
theorem stopsFrom_visitTop_filled (h : t.Built) (id : NodeId) (values : OrderedMap String String) :
    (t.filled id values).stopsFrom ((t.filled id values).visitTop id) =
      (t.stopsFrom (t.visitTop id)).map (Stop.filled values) := by
  have htop : (t.filled id values).visitTop id = (t.visitTop id).filled values := by
    have hkind : (t.filled id values).kind id = (t.kind id).filled values :=
      kind_filled h.linked (v := t.visitTop id) .refl (by simp [visitTop])
    simp [visitTop, Visit.filled, hkind]
  rw [htop]
  exact stopsFrom_filled h.linked (built_filled h id values).linked fills_fillAll
    (fun w hw hrole => kind_filled h.linked hw hrole) .refl

end Tree

end StyledText.Markdown
