import StyledText.Markdown.Tree.OfEvents
import StyledText.Proofs.Tree.Built
import Mathlib.Data.List.Nodup

/-!
# The shape of the arena

A tree keeps every link twice, in the child and in its parent. Because a parent has a smaller name
than its children, all ways along the links end.

* Upwards, `ancestors` lists what a climb passes (`Linked.climb_eq`), in decreasing order
  (`Linked.ancestors_sorted`), down to the root (`Linked.getLast?_ancestors`).
* Downwards, a walk from the root (`walk`) comes to every node once (`Linked.walk_root_perm`).
* Folding events keeps to the nodes there are, whatever the events are (`Draft.Sound`): it only
  pushes below nodes of the tree and only changes kinds.
* `built_isArena` is the result.
-/

namespace StyledText.Markdown

namespace Tree

variable {t : Tree} {id c p k : Nat}

/-! ## Upwards -/

/-- Where a climb from `id` is after a number of steps, if it has not ended at a node without a
parent. -/
def climb (t : Tree) (id : NodeId) : Nat → Option NodeId
  | 0 => some id
  | steps + 1 => (t.climb id steps).bind t.parent?

/-- One step up comes first. -/
theorem climb_succ (t : Tree) (id : NodeId) (steps : Nat) :
    t.climb id (steps + 1) = (t.parent? id).bind fun p => t.climb p steps := by
  induction steps with
  | zero => simp [climb]
  | succ steps ih =>
    rw [climb, ih, Option.bind_assoc]
    rfl

namespace Linked

/-- The list of ancestors is all that a climb comes to. -/
theorem climb_eq (h : t.Linked) (id steps : Nat) : t.climb id steps = (t.ancestors id)[steps]? := by
  induction id using h.induction_down generalizing steps with
  | top id hparent =>
    rw [ancestors_of_parent?_eq_none hparent]
    cases steps with
    | zero => rfl
    | succ steps => simp [climb_succ, hparent]
  | step c p hparent ih =>
    rw [h.ancestors_of_parent? hparent]
    cases steps with
    | zero => rfl
    | succ steps => rw [climb_succ, hparent, Option.bind_some, ih, List.getElem?_cons_succ]

/-- Every node is on its own way to the top. -/
theorem self_mem_ancestors (h : t.Linked) (id : NodeId) : id ∈ t.ancestors id := by
  cases hparent : t.parent? id with
  | none => simp [ancestors_of_parent?_eq_none hparent]
  | some p => simp [h.ancestors_of_parent? hparent]

/-- The numbers become smaller towards the top. -/
theorem ancestors_sorted (h : t.Linked) (id : NodeId) :
    (t.ancestors id).Pairwise fun a b : Nat => b < a := by
  induction id using h.induction_down with
  | top id hparent =>
    rw [ancestors_of_parent?_eq_none hparent]
    exact List.pairwise_singleton _ _
  | step c p hparent ih =>
    rw [h.ancestors_of_parent? hparent, List.pairwise_cons]
    exact ⟨fun a ha => Nat.lt_of_le_of_lt (h.le_of_mem_ancestors ha) (h.parent_lt hparent), ih⟩

/-- The way up ends at the root. -/
theorem getLast?_ancestors (h : t.Linked) (hid : id < t.size) :
    (t.ancestors id).getLast? = some root := by
  induction id using h.induction_down with
  | top id hparent =>
    have hroot : id = root := by
      by_contra hne
      obtain ⟨p, hp⟩ := h.exists_parent (Nat.pos_of_ne_zero hne) hid
      rw [hparent] at hp
      contradiction
    rw [ancestors_of_parent?_eq_none hparent, hroot]
    rfl
  | step c p hparent ih =>
    have hlast := ih (Nat.lt_trans (h.parent_lt hparent) hid)
    rw [h.ancestors_of_parent? hparent, List.getLast?_cons, hlast]
    rfl

/-- With a node, its parent is above. -/
theorem parent_mem_ancestors (h : t.Linked) (hk : k ∈ t.ancestors c) (hp : t.parent? k = some p) :
    p ∈ t.ancestors c := by
  -- The way up is the same from the second node on.
  induction c using h.induction_down with
  | top c hparent =>
    rw [ancestors_of_parent?_eq_none hparent, List.mem_singleton] at hk
    rw [hk, hparent] at hp
    contradiction
  | step c q hparent ih =>
    rw [h.ancestors_of_parent? hparent] at hk ⊢
    rcases List.mem_cons.1 hk with rfl | hk
    · rw [hparent, Option.some.injEq] at hp
      rw [← hp]
      exact List.mem_cons_of_mem _ (h.self_mem_ancestors q)
    · exact List.mem_cons_of_mem _ (ih hk)

/-- No node is below two children of one node. -/
theorem eq_of_mem_ancestors (h : t.Linked) {a b : Nat} (ha : a ∈ t.ancestors c)
    (hb : b ∈ t.ancestors c) (hap : t.parent? a = some p) (hbp : t.parent? b = some p) : a = b := by
  induction c using h.induction_down with
  | top c hparent =>
    rw [ancestors_of_parent?_eq_none hparent, List.mem_singleton] at ha hb
    rw [ha, hb]
  | step c q hparent ih =>
    rw [h.ancestors_of_parent? hparent] at ha hb
    -- a child of the parent of `c` has a greater name than all that is above `c`
    have habove : ∀ x : Nat, t.parent? c = some p → t.parent? x = some p → x ∉ t.ancestors q := by
      intro x hc hx hmem
      rw [hparent, Option.some.injEq] at hc
      subst hc
      exact Nat.not_le_of_lt (h.parent_lt hx) (h.le_of_mem_ancestors hmem)
    rcases List.mem_cons.1 ha with rfl | haq
    · rcases List.mem_cons.1 hb with rfl | hbq
      · rfl
      · exact absurd hbq (habove b hap hbp)
    · rcases List.mem_cons.1 hb with rfl | hbq
      · exact absurd haq (habove a hbp hap)
      · exact ih haq hbq

end Linked

/-! ## Downwards -/

/-- A node and what is below it, down to a given depth, each node before its children. -/
def walkTo (t : Tree) : Nat → NodeId → List NodeId
  | 0, id => [id]
  | depth + 1, id => id :: (t.children id).flatMap (t.walkTo depth)

/-- A node and all that is below it, each node before its children. -/
def walk (t : Tree) (id : NodeId) : List NodeId := t.walkTo t.size id

namespace Linked

/-- A bound that is large enough makes no difference. -/
theorem walkTo_eq (h : t.Linked) {m n : Nat} (hm : t.size ≤ m + id) (hn : t.size ≤ n + id) :
    t.walkTo m id = t.walkTo n id := by
  induction m generalizing id n with
  | zero => cases n <;> simp [walkTo, children_of_size_le (t := t) (show t.size ≤ id by omega)]
  | succ m ih =>
    cases n with
    | zero => simp [walkTo, children_of_size_le (t := t) (show t.size ≤ id by omega)]
    | succ n =>
      rw [walkTo, walkTo]
      congr 1
      refine List.flatMap_congr ?_
      intro c hc
      have hlt : id < c := h.lt_of_mem_children hc
      exact ih (by omega) (by omega)

/-- A walk goes from a node to its children, one after the other. -/
theorem walk_eq (h : t.Linked) (id : NodeId) :
    t.walk id = id :: (t.children id).flatMap t.walk := by
  have hdeep : t.walk id = t.walkTo (t.size + 1) id := h.walkTo_eq (by omega) (by omega)
  rw [hdeep, walkTo]
  rfl

/-- A walk comes to the node and to what it finds below its children. -/
theorem mem_walk_iff (h : t.Linked) :
    c ∈ t.walk id ↔ c = id ∨ ∃ k ∈ t.children id, c ∈ t.walk k := by
  rw [h.walk_eq, List.mem_cons, List.mem_flatMap]

/-- A walk only comes to what is below its start. -/
theorem mem_ancestors_of_mem_walk (h : t.Linked) (hc : c ∈ t.walk id) : id ∈ t.ancestors c := by
  induction id using h.induction_up with
  | step id ih =>
    rcases h.mem_walk_iff.1 hc with rfl | ⟨k, hk, hc⟩
    · exact h.self_mem_ancestors c
    · exact h.parent_mem_ancestors (ih k hk hc) (h.mem_children_iff.1 hk)

/-- A walk comes to no node twice. -/
theorem nodup_walk (h : t.Linked) (id : NodeId) : (t.walk id).Nodup := by
  induction id using h.induction_up with
  | step id ih =>
    rw [h.walk_eq, List.nodup_cons, List.nodup_flatMap]
    refine ⟨?_, ih, ?_⟩
    · -- what is below a child has a greater name than `id`
      intro hmem
      obtain ⟨k, hk, hin⟩ := List.mem_flatMap.1 hmem
      have hle := h.le_of_mem_ancestors (h.mem_ancestors_of_mem_walk hin)
      have hlt := h.lt_of_mem_children hk
      omega
    · -- a node on two of these walks would be below two children of `id`
      refine (h.children_sorted id).imp_of_mem ?_
      intro a b ha hb hlt c hca hcb
      have hsame := h.eq_of_mem_ancestors (h.mem_ancestors_of_mem_walk hca)
        (h.mem_ancestors_of_mem_walk hcb) (h.mem_children_iff.1 ha) (h.mem_children_iff.1 hb)
      omega

/-- With a node, a walk comes to its children. -/
theorem child_mem_walk (h : t.Linked) (hp : p ∈ t.walk id) (hc : c ∈ t.children p) :
    c ∈ t.walk id := by
  induction id using h.induction_up with
  | step id ih =>
    refine h.mem_walk_iff.2 (.inr ?_)
    rcases h.mem_walk_iff.1 hp with rfl | ⟨k, hk, hp⟩
    · exact ⟨c, hc, h.mem_walk_iff.2 (.inl rfl)⟩
    · exact ⟨k, hk, ih k hk hp⟩

/-- The walk from the root comes to all nodes. -/
theorem mem_walk_root_iff (h : t.Linked) : c ∈ t.walk root ↔ c < t.size := by
  constructor
  · intro hc
    have hlast := h.mem_ancestors_of_mem_walk hc
    cases hparent : t.parent? c with
    | none =>
      rw [ancestors_of_parent?_eq_none hparent, List.mem_singleton] at hlast
      rw [← hlast]
      exact h.size_pos
    | some p => exact h.lt_size hparent
  · intro hlt
    -- From the root down: what is above a node is in the walk, so its children are.
    induction c using h.induction_down with
    | top c hparent =>
      have hlast := h.getLast?_ancestors hlt
      rw [ancestors_of_parent?_eq_none hparent, List.getLast?_singleton, Option.some.injEq] at hlast
      exact h.mem_walk_iff.2 (.inl hlast)
    | step c p hparent ih =>
      have hp := ih (Nat.lt_trans (h.parent_lt hparent) hlt)
      exact h.child_mem_walk hp (h.mem_children_iff.2 hparent)

/-- A walk from the root comes to every node once. -/
theorem walk_root_perm (h : t.Linked) : (t.walk root).Perm (List.range t.size) := by
  rw [List.perm_ext_iff_of_nodup (h.nodup_walk root) List.nodup_range]
  intro c
  rw [h.mem_walk_root_iff, List.mem_range]

end Linked

/-- What holds of the links of a tree. -/
structure IsArena (t : Tree) : Prop where
  root_lt_size : root < t.size
  parent?_root : t.parent? root = none
  exists_parent : ∀ c : NodeId, c ≠ root → c < t.size → ∃ p < c, t.parent? c = some p
  children_sorted : ∀ p : NodeId, (t.children p).Pairwise fun c d : Nat => c < d
  mem_children_iff : ∀ c p : NodeId, c ∈ t.children p ↔ t.parent? c = some p
  /-- The ancestors are where a climb along the parents comes, and it ends behind them. -/
  climb : ∀ (id : NodeId) (steps : Nat), t.climb id steps = (t.ancestors id)[steps]?
  ancestors_sorted : ∀ id : NodeId, (t.ancestors id).Pairwise fun a b : Nat => b < a
  head_ancestors : ∀ id : NodeId, (t.ancestors id).head? = some id
  last_ancestors : ∀ id : NodeId, id < t.size → (t.ancestors id).getLast? = some root
  /-- A walk takes a node first and then walks from each of its children. -/
  walk : ∀ id : NodeId, t.walk id = id :: (t.children id).flatMap t.walk
  walk_once : (t.walk root).Perm (List.range t.size)

/-- A tree whose links fit together is an arena. -/
theorem Linked.isArena (h : t.Linked) : t.IsArena where
  root_lt_size := h.size_pos
  parent?_root := h.parent?_root
  exists_parent := by
    intro c hne hlt
    obtain ⟨p, hp⟩ := h.exists_parent (Nat.pos_of_ne_zero hne) hlt
    exact ⟨p, h.parent_lt hp, hp⟩
  children_sorted := h.children_sorted
  mem_children_iff := fun _ _ => h.mem_children_iff
  climb := h.climb_eq
  ancestors_sorted := h.ancestors_sorted
  head_ancestors := by
    intro id
    rw [List.head?_eq_getElem?, ← h.climb_eq, Tree.climb]
  last_ancestors := fun _ => h.getLast?_ancestors
  walk := h.walk_eq
  walk_once := h.walk_root_perm

end Tree

/-! ## Folding events -/

namespace Draft

variable {d : Draft}

/-- The tree is built up, and all open nodes are nodes of it. -/
structure Sound (d : Draft) : Prop where
  built : d.tree.Built
  known : ∀ frame ∈ d.frames, frame.id < d.tree.size

namespace Sound

theorem empty : Draft.empty.Sound := ⟨.ofRoot .document, by simp [Draft.empty]⟩

/-- The open node is in the tree. -/
theorem top_lt_size (h : d.Sound) : d.top < d.tree.size := by
  unfold top
  split
  · next frame outer hframes => exact h.known frame (by rw [hframes]; exact List.mem_cons_self)
  · exact h.built.linked.size_pos

/-- A leaf goes into the open node, which stays open. -/
theorem addLeaf (h : d.Sound) (kind : Kind) : (d.addLeaf kind).Sound := by
  refine ⟨h.built.push kind h.top_lt_size, ?_⟩
  intro frame hframe
  rw [Draft.addLeaf, Tree.size_push]
  exact Nat.lt_succ_of_lt (h.known frame hframe)

/-- A new node is opened in the tree. -/
theorem openNode (h : d.Sound) (kind : Kind) (implicit : Bool) :
    (d.openNode kind implicit).Sound := by
  refine ⟨h.built.push kind h.top_lt_size, ?_⟩
  intro frame hframe
  rw [Draft.openNode, Tree.size_push]
  rcases List.mem_cons.1 hframe with rfl | hframe
  · exact Nat.lt_succ_self _
  · exact Nat.lt_succ_of_lt (h.known frame hframe)

theorem close (h : d.Sound) : d.close.Sound :=
  ⟨h.built, fun frame hframe => h.known frame (List.mem_of_mem_tail hframe)⟩

/-- Closing what was implicit leaves open nodes in the tree. -/
theorem closeImplicit (h : d.Sound) : d.closeImplicit.Sound := by
  unfold Draft.closeImplicit
  split
  · next hframes =>
    refine ⟨h.built, fun frame hframe => h.known frame ?_⟩
    rw [hframes]
    exact List.mem_cons_of_mem _ hframe
  · exact h

/-- A paragraph that is opened for inline content is in the tree. -/
theorem ensureInline (h : d.Sound) : d.ensureInline.Sound := by
  unfold Draft.ensureInline
  split
  · exact h.openNode .paragraph true
  · exact h

theorem modifyKind (h : d.Sound) (id : NodeId) (f : Kind → Kind) :
    Sound { d with tree := d.tree.modifyKind id f } := by
  refine ⟨h.built.modifyKind id f, ?_⟩
  intro frame hframe
  rw [Tree.size_modifyKind]
  exact h.known frame hframe

/-- Making a list loose changes a kind only. -/
theorem loosen (h : d.Sound) : d.loosen.Sound := by
  unfold Draft.loosen
  split
  · split
    · exact h.modifyKind _ _
    · exact h
  · exact h

theorem extend (h : d.Sound) (id : NodeId) (s : String) : (d.extend id s).Sound :=
  h.modifyKind id _

theorem addInline (h : d.Sound) (kind : Kind) : (d.addInline kind).Sound :=
  h.ensureInline.addLeaf kind

/-- Text goes into the text before it or into a new leaf. -/
theorem addTextNode (h : d.Sound) (s : String) : (d.addTextNode s).Sound := by
  unfold Draft.addTextNode
  split
  · split
    · exact h.extend _ s
    · exact h.addLeaf _
  · exact h.addLeaf _

/-- Text goes into a node of the tree, whichever it is. -/
theorem addText (h : d.Sound) (s : String) : (d.addText s).Sound := by
  unfold Draft.addText
  split
  · exact h.extend _ s
  · exact h.extend _ s
  · exact h.extend _ s
  · exact h.ensureInline.addTextNode s

/-- A tag opens a node, below where there is room for it. -/
theorem openTag (h : d.Sound) (tag : Tag) : (d.openTag tag).Sound := by
  have hplace : Sound (if tag.isInline then d.ensureInline else d.closeImplicit) := by
    split
    · exact h.ensureInline
    · exact h.closeImplicit
  refine openNode ?_ tag.kind false
  split
  · exact hplace.loosen
  · exact hplace

theorem withHidden (h : d.Sound) (hidden : Nat) : Sound { d with hidden } := ⟨h.built, h.known⟩

/-- One event. -/
theorem step (h : d.Sound) (event : Event) : (d.step event).Sound := by
  cases event with
  | start tag =>
    rw [Draft.step]
    split
    · exact h.withHidden _
    · exact h.openTag tag
  | stop =>
    rw [Draft.step]
    split
    · exact h.withHidden _
    · exact h.closeImplicit.close
  | text s => exact h.addText s
  | code | softBreak | hardBreak =>
    rw [Draft.step]
    split
    · exact h.extend _ _
    · exact h.addInline _
  | html s =>
    rw [Draft.step]
    split
    · exact h.addText s
    · exact h.addInline _
  | rule => exact h.closeImplicit.addLeaf _
  | inlineHtml | footnoteReference | taskListMarker | math => exact h.addInline _

/-- Any number of events, in any order. -/
theorem run (h : d.Sound) (events : List Event) : (d.run events).Sound := by
  unfold Draft.run
  induction events generalizing d with
  | nil => exact h
  | cons event rest ih => exact ih (h.step event)

end Sound

end Draft

namespace Tree

/-- However a tree was built, its links are those of an arena. Folding events, in whatever order
they come, builds one, and never holds on to a node that is not there. -/
theorem built_isArena :
    (∀ t : Tree, t.Built → t.IsArena) ∧
      ∀ events : List Event, (ofEvents events).IsArena ∧
        ∀ frame ∈ (Draft.empty.run events).frames, frame.id < (ofEvents events).size := by
  refine ⟨fun t h => h.linked.isArena, ?_⟩
  intro events
  have hsound := Draft.Sound.empty.run events
  exact ⟨hsound.built.linked.isArena, hsound.known⟩

/-- A tree in which a walk comes to the last node before it comes to an older one. That one is made
another kind. -/
def shelf : Tree :=
  ((((ofRoot .document).push 0 .blockQuote).push 0 .paragraph).push 1 .paragraph).modifyKind 2
    fun _ => .thematicBreak

/-- The links of that tree, and of one from events that close more than they open. -/
theorem shelf_isArena :
    shelf.Built ∧ shelf.IsArena ∧ shelf.walk root = [0, 1, 3, 2] ∧ shelf.ancestors 3 = [3, 1, 0] ∧
      (ofEvents [.stop, .start .item, .text "a", .stop, .stop, .rule]).IsArena := by
  have hbuilt : shelf.Built := by
    refine .modifyKind 2 _ (.push .paragraph (.push .paragraph (.push .blockQuote (.ofRoot _) ?_)
      ?_) ?_) <;> decide
  exact ⟨hbuilt, built_isArena.1 shelf hbuilt, by decide, by decide, (built_isArena.2 _).1⟩

end Tree

end StyledText.Markdown
