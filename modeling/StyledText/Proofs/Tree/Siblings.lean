import Mathlib.Data.List.Chain
import StyledText.Proofs.Tree.Arena
import StyledText.Proofs.Tree.ReadBack

/-!
# Siblings in trees of events

Whatever the events are, and in whatever order they come, some nodes never stand in some places:
inline nodes right inside an item, two texts side by side, or two implicit paragraphs side by side.

* `Tree.Tidy` says so of a tree, and `Tree.Tidy.push` when a new node keeps it.
* `Draft.Stacked` is what the open nodes have to do with it: an item in which something may come
  next does not end in an implicit paragraph, unless that is still open.
* `Draft.Tidy` puts both together. Each event keeps it (`Draft.Tidy.step`), so all events do
  (`Draft.Tidy.run`).
* `Tree.ofEvents_isTidy` is the result.
-/

namespace StyledText.Markdown

/-! ## Kinds -/

namespace Kind

/-- Whether a node of this kind stands inside a line. -/
def isInline : Kind → Bool
  | text _ | code _ | inlineHtml _ | emphasis | strong | link .. | image .. => true
  | softBreak | hardBreak => true
  | unsupported name =>
    ["strikethrough", "footnote_reference", "task_list_marker", "math"].contains name
  | _ => false

def isText : Kind → Bool
  | text _ => true
  | _ => false

/-- A change of kinds that leaves every node in a place where it may stand. -/
structure KeepsPlace (f : Kind → Kind) : Prop where
  isInline : ∀ kind, (f kind).isInline = kind.isInline
  isText : ∀ kind, (f kind).isText = kind.isText
  item : ∀ kind, f kind = .item ↔ kind = .item
  paragraph : ∀ kind, f kind = .paragraph ↔ kind = .paragraph

/-- More text leaves a node where it may stand. -/
theorem keepsPlace_appending (s : String) : KeepsPlace (appending s) := by
  constructor <;> intro kind <;> cases kind <;> simp [appending, Kind.isInline, Kind.isText]

/-- A loose list may stand where a tight one may. -/
theorem keepsPlace_loosened : KeepsPlace loosened := by
  constructor <;> intro kind <;> cases kind <;> simp [loosened, Kind.isInline, Kind.isText]

end Kind

theorem Tag.isInline_kind (tag : Tag) : tag.kind.isInline = tag.isInline := by
  cases tag with
  | list start => cases start <;> rfl
  | _ => rfl

theorem Tag.isText_kind (tag : Tag) : tag.kind.isText = false := by
  cases tag with
  | list start => cases start <;> rfl
  | _ => rfl

/-! ## Children -/

namespace Tree

variable {t : Tree} {p : Nat} {kind : Kind} {P P' made made' : NodeId → Prop}

/-- No two neighbouring children of a node have the property. -/
def SetsApart (t : Tree) (P : NodeId → Prop) : Prop :=
  ∀ p, (t.children p).IsChain fun a b => ¬ (P a ∧ P b)

/-- What holds of the children of every node, if the nodes in `made` are implicit paragraphs. -/
structure Tidy (t : Tree) (made : NodeId → Prop) : Prop where
  items : ∀ item, t.kind item = .item → ∀ c ∈ t.children item, ¬ (t.kind c).isInline
  texts : t.SetsApart fun c => (t.kind c).isText
  implicits : t.SetsApart made

/-- A new child keeps neighbours apart if the one before it lets it. -/
theorem SetsApart.push (h : t.SetsApart P) (hlinked : t.Linked) (hp : p < t.size)
    (hold : ∀ c < t.size, P' c → P c)
    (hnew : P' t.size → ∀ c ∈ (t.children p).getLast?, ¬ P c) : (t.push p kind).SetsApart P' := by
  intro q
  have hmem : ∀ c ∈ t.children q, P' c → P c :=
    fun c hc => hold c (hlinked.child_lt_size hc)
  have hrow : (t.children q).IsChain fun a b => ¬ (P' a ∧ P' b) := by
    refine (h q).imp_of_mem_imp ?_
    intro a b ha hb hab hboth
    exact hab ⟨hmem a ha hboth.1, hmem b hb hboth.2⟩
  rw [children_push hp]
  split
  · next hq =>
    -- only the last old child has the new one as a neighbour
    refine hrow.append (.singleton _) ?_
    intro a ha b hb hboth
    rw [List.head?_cons, Option.mem_some_iff] at hb
    subst hb
    rw [hq] at ha hmem
    exact hnew hboth.2 a ha (hmem a (List.mem_of_getLast? ha) hboth.1)
  · exact hrow

/-- A new child keeps the tree tidy if it may come after the last one. -/
theorem Tidy.push (h : t.Tidy made) (hlinked : t.Linked) (hp : p < t.size)
    (hblock : t.kind p = .item → ¬ kind.isInline)
    (htext : kind.isText → ∀ c ∈ (t.children p).getLast?, ¬ (t.kind c).isText)
    (hold : ∀ c < t.size, made' c → made c)
    (hnew : made' t.size → ∀ c ∈ (t.children p).getLast?, ¬ made c) :
    (t.push p kind).Tidy made' := by
  have hkind : ∀ c < t.size, (t.push p kind).kind c = t.kind c := by
    intro c hc
    rw [kind_push hp, if_neg (Nat.ne_of_lt hc)]
  have hkind_new : (t.push p kind).kind t.size = kind := by rw [kind_push hp, if_pos rfl]
  refine ⟨?_, ?_, h.implicits.push hlinked hp hold hnew⟩
  · intro q hq c hc
    have hqsize : q < t.size := by
      have hlt := lt_size_of_mem_children hc
      rw [size_push] at hlt
      rcases Nat.lt_succ_iff_lt_or_eq.1 hlt with hlt | rfl
      · exact hlt
      · -- the new node has no children yet
        rw [children_push hp, if_neg (by omega), children, node_of_size_le (Nat.le_refl _)] at hc
        exact absurd hc List.not_mem_nil
    rw [hkind q hqsize] at hq
    rw [children_push hp] at hc
    have hkept : c ∈ t.children q → ¬ ((t.push p kind).kind c).isInline := by
      intro hc
      rw [hkind c (hlinked.child_lt_size hc)]
      exact h.items q hq c hc
    split at hc
    · next hqp =>
      rcases List.mem_append.1 hc with hc | hc
      · exact hkept hc
      · rw [List.mem_singleton.1 hc, hkind_new]
        exact hblock (hqp ▸ hq)
    · exact hkept hc
  · refine h.texts.push hlinked hp ?_ ?_
    · intro c hc htext
      rwa [hkind c hc] at htext
    · intro hnewtext
      rw [hkind_new] at hnewtext
      exact htext hnewtext

/-- A property that a change of kinds keeps is kept at all nodes. -/
theorem kind_modifyKind_iff {f : Kind → Kind} (Q : Kind → Prop)
    (hf : ∀ kind, Q (f kind) ↔ Q kind) (id c : Nat) :
    Q ((t.modifyKind id f).kind c) ↔ Q (t.kind c) := by
  rcases Nat.lt_or_ge id t.size with hlt | hle
  · rw [kind_modifyKind hlt]
    split
    · exact hf _
    · exact Iff.rfl
  · rw [modifyKind_of_size_le hle]

/-- A change of kinds keeps the tree tidy if nodes may stand where they do. -/
theorem Tidy.modifyKind (h : t.Tidy made) (id : Nat) {f : Kind → Kind}
    (hf : Kind.KeepsPlace f) : (t.modifyKind id f).Tidy made := by
  have hinline : ∀ c, ((t.modifyKind id f).kind c).isInline ↔ (t.kind c).isInline :=
    kind_modifyKind_iff (fun kind => kind.isInline) (fun kind => by rw [hf.isInline]) id
  have htext : ∀ c, ((t.modifyKind id f).kind c).isText ↔ (t.kind c).isText :=
    kind_modifyKind_iff (fun kind => kind.isText) (fun kind => by rw [hf.isText]) id
  refine ⟨?_, ?_, ?_⟩
  · intro q hq c hc
    rw [kind_modifyKind_iff (· = .item) hf.item] at hq
    rw [children_modifyKind] at hc
    rw [hinline]
    exact h.items q hq c hc
  · intro q
    rw [children_modifyKind]
    simp only [htext]
    exact h.texts q
  · intro q
    rw [children_modifyKind]
    exact h.implicits q

end Tree

/-! ## Open nodes -/

namespace Draft

/-- What holds of the open nodes, innermost first, if the nodes in `made` are implicit paragraphs.
With `above`, such a paragraph is or was open right inside the innermost of them, and nothing has
come after it. -/
inductive Stacked (t : Tree) (made : NodeId → Prop) : Bool → List Frame → Prop
  | nil (above : Bool) : Stacked t made above []
  | cons {above : Bool} {f : Frame} {outer : List Frame} (later : ∀ g ∈ outer, g.id < f.id)
      (paragraph : f.implicit → t.kind f.id = .paragraph ∧ above = false)
      (last : above = false → t.kind f.id = .item → ∀ c ∈ (t.children f.id).getLast?, ¬ made c)
      (rest : Stacked t made f.implicit outer) : Stacked t made above (f :: outer)

variable {t t' : Tree} {made made' : NodeId → Prop} {above : Bool} {frames : List Frame} {d : Draft}

/-- It is enough to look at the open nodes and their last children. -/
theorem Stacked.imp (h : Stacked t made above frames)
    (hparagraph : ∀ f ∈ frames, t.kind f.id = .paragraph → t'.kind f.id = .paragraph)
    (hitem : ∀ f ∈ frames, t'.kind f.id = .item → t.kind f.id = .item)
    (hlast : ∀ f ∈ frames, ∀ c ∈ (t'.children f.id).getLast?, made' c →
      c ∈ (t.children f.id).getLast? ∧ made c) : Stacked t' made' above frames := by
  induction h with
  | nil above => exact .nil above
  | @cons above f outer later paragraph last _ ih =>
    rw [List.forall_mem_cons] at hparagraph hitem hlast
    refine .cons later ?_ ?_ (ih hparagraph.2 hitem.2 hlast.2)
    · intro himplicit
      exact ⟨hparagraph.1 (paragraph himplicit).1, (paragraph himplicit).2⟩
    · intro habove hf c hc hmade
      obtain ⟨hc, hmade⟩ := hlast.1 c hc hmade
      exact last habove (hitem.1 hf) c hc hmade

/-- A new node does not stand in the way, unless it is an implicit paragraph in an open node. -/
theorem Stacked.push (h : Stacked t made above frames) {p : Nat} {kind : Kind}
    (hlinked : t.Linked) (hp : p < t.size) (hknown : ∀ f ∈ frames, f.id < t.size)
    (hold : ∀ c < t.size, made' c → made c) (hnew : made' t.size → ∀ f ∈ frames, f.id ≠ p) :
    Stacked (t.push p kind) made' above frames := by
  have hkind : ∀ f ∈ frames, (t.push p kind).kind f.id = t.kind f.id := by
    intro f hf
    rw [Tree.kind_push hp, if_neg (Nat.ne_of_lt (hknown f hf))]
  refine h.imp ?_ ?_ ?_
  · intro f hf hparagraph
    rw [hkind f hf, hparagraph]
  · intro f hf hitem
    rwa [hkind f hf] at hitem
  · intro f hf c hc hmade
    rw [Tree.children_push hp] at hc
    split at hc
    · next hin =>
      rw [List.getLast?_concat, Option.mem_some_iff] at hc
      exact absurd hin (hnew (hc ▸ hmade) f hf)
    · exact ⟨hc, hold c (hlinked.child_lt_size (List.mem_of_getLast? hc)) hmade⟩

/-- The tree is tidy, and the open nodes keep it so. -/
structure Tidy (made : NodeId → Prop) (above : Bool) (d : Draft) : Prop where
  sound : d.Sound
  tree : d.tree.Tidy made
  root : d.tree.kind Tree.root ≠ .item
  known : ∀ i, made i → i < d.tree.size
  opened : ∀ f ∈ d.frames, f.implicit → made f.id
  stacked : Stacked d.tree made above d.frames

namespace Tidy

/-- An empty document is tidy. -/
theorem empty : Draft.empty.Tidy (fun _ => False) false := by
  have hchildren : ∀ q, Draft.empty.tree.children q = [] := by
    intro q
    rw [Draft.empty, Tree.children, Tree.node_ofRoot]
    split <;> rfl
  refine ⟨.empty, ⟨?_, ?_, ?_⟩, by decide, fun i h => h.elim, by simp [Draft.empty], .nil _⟩
  · intro q _ c hc
    rw [hchildren] at hc
    exact absurd hc List.not_mem_nil
  · intro q
    rw [hchildren]
    exact .nil
  · intro q
    rw [hchildren]
    exact .nil

/-- After a node that is no implicit paragraph anything may come. -/
theorem push (h : d.Tidy made above) {kind : Kind} (hblock : d.topKind = .item → ¬ kind.isInline)
    (htext : kind.isText → ∀ c ∈ (d.tree.children d.top).getLast?, ¬ (d.tree.kind c).isText) :
    (d.addLeaf kind).Tidy made false := by
  have hp := h.sound.top_lt_size
  have hlinked := h.sound.built.linked
  have hfresh : ¬ made d.tree.size := fun hmade => Nat.lt_irrefl _ (h.known _ hmade)
  have hsize : (d.addLeaf kind).tree.size = d.tree.size + 1 := Tree.size_push
  have hstacked : Stacked (d.tree.push d.top kind) made above d.frames :=
    h.stacked.push hlinked hp h.sound.known (fun _ _ hmade => hmade)
      fun hmade => absurd hmade hfresh
  refine ⟨h.sound.addLeaf kind, ?_, ?_, ?_, h.opened, ?_⟩
  · exact h.tree.push hlinked hp hblock htext (fun _ _ hmade => hmade)
      fun hmade => absurd hmade hfresh
  · have hroot : Tree.root ≠ d.tree.size := Nat.ne_of_lt hlinked.size_pos
    rw [addLeaf, Tree.kind_push hp, if_neg hroot]
    exact h.root
  · intro i hi
    rw [hsize]
    exact Nat.lt_succ_of_lt (h.known i hi)
  · -- the innermost open node ends in the new one now
    cases hframes : d.frames with
    | nil =>
      rw [addLeaf, hframes]
      exact .nil _
    | cons f outer =>
      have htop : d.top = f.id := by rw [top, hframes]
      rw [hframes] at hstacked
      rw [addLeaf, hframes]
      cases hstacked with
      | cons later paragraph last rest =>
        refine .cons later (fun hi => ⟨(paragraph hi).1, rfl⟩) ?_ rest
        intro _ _ c hc
        rw [Tree.children_push hp, if_pos htop.symm, List.getLast?_concat,
          Option.mem_some_iff] at hc
        exact hc ▸ hfresh

/-- A node may be opened where it may come. -/
theorem openNode (h : d.Tidy made above) {kind : Kind}
    (hblock : d.topKind = .item → ¬ kind.isInline)
    (htext : kind.isText → ∀ c ∈ (d.tree.children d.top).getLast?, ¬ (d.tree.kind c).isText) :
    (d.openNode kind false).Tidy made false := by
  have hleaf := h.push hblock htext
  refine ⟨h.sound.openNode kind false, hleaf.tree, hleaf.root, hleaf.known, ?_, ?_⟩
  · intro f hf himplicit
    rcases List.mem_cons.1 hf with rfl | hf
    · cases himplicit
    · exact h.opened f hf himplicit
  · refine .cons h.sound.known (by simp) ?_ hleaf.stacked
    -- the new node has no children yet
    intro _ _ c hc
    have hp := h.sound.top_lt_size
    rw [Draft.openNode, Tree.children_push hp, if_neg (Nat.ne_of_gt hp), Tree.children,
      Tree.node_of_size_le (Nat.le_refl _)] at hc
    cases hc

/-- The root is no item, so an item in which nodes come next is an open node. -/
theorem exists_frame (h : d.Tidy made above) (hitem : d.topKind = .item) :
    ∃ f outer, d.frames = f :: outer ∧ d.top = f.id := by
  cases hframes : d.frames with
  | nil =>
    rw [topKind, top, hframes] at hitem
    exact absurd hitem h.root
  | cons f outer => exact ⟨f, outer, rfl, by rw [top, hframes]⟩

/-- In an item, an implicit paragraph may be opened where none has just been. -/
theorem openParagraph (h : d.Tidy made false) (hitem : d.topKind = .item) :
    (d.openNode .paragraph true).Tidy (fun i => made i ∨ i = d.tree.size) false := by
  have hp := h.sound.top_lt_size
  have hlinked := h.sound.built.linked
  have hroot : Tree.root ≠ d.tree.size := Nat.ne_of_lt hlinked.size_pos
  have hkind_new : (d.tree.push d.top .paragraph).kind d.tree.size = .paragraph := by
    rw [Tree.kind_push hp, if_pos rfl]
  have hold : ∀ c < d.tree.size, made c ∨ c = d.tree.size → made c :=
    fun c hc hmade => hmade.resolve_right (Nat.ne_of_lt hc)
  obtain ⟨f, outer, hframes, htop⟩ := h.exists_frame hitem
  have hknown := h.sound.known
  have hstacked := h.stacked
  rw [hframes] at hstacked
  rw [topKind, htop] at hitem
  cases hstacked with
  | cons later paragraph last rest =>
    refine ⟨h.sound.openNode .paragraph true, ?_, ?_, ?_, ?_, ?_⟩
    · refine h.tree.push hlinked hp (by simp [Kind.isInline]) (by simp [Kind.isText]) hold ?_
      intro _
      rw [htop]
      exact last rfl hitem
    · rw [Draft.openNode, Tree.kind_push hp, if_neg hroot]
      exact h.root
    · intro i hi
      rw [Draft.openNode, Tree.size_push]
      rcases hi with hi | rfl
      · exact Nat.lt_succ_of_lt (h.known i hi)
      · exact Nat.lt_succ_self _
    · intro g hg himplicit
      rcases List.mem_cons.1 hg with rfl | hg
      · exact .inr rfl
      · exact .inl (h.opened g hg himplicit)
    · refine .cons hknown (fun _ => ⟨hkind_new, rfl⟩) ?_ ?_
      · intro _ hnew
        rw [Draft.openNode, hkind_new] at hnew
        cases hnew
      · rw [Draft.openNode, hframes]
        rw [hframes, List.forall_mem_cons] at hknown
        refine .cons later ?_ (fun habove => absurd habove (by simp)) ?_
        · intro himplicit
          rw [(paragraph himplicit).1] at hitem
          cases hitem
        · -- the nodes further out do not hold the new one
          refine rest.push hlinked hp hknown.2 hold ?_
          intro _ g hg
          rw [htop]
          exact Nat.ne_of_lt (later g hg)

/-- Before an inline node, an implicit paragraph is opened in an item, and that makes one more. -/
theorem ensureInline (h : d.Tidy made false) : ∃ made' : NodeId → Prop,
    (∀ i, made i → made' i) ∧ d.ensureInline.Tidy made' false ∧ d.ensureInline.topKind ≠ .item := by
  by_cases hitem : d.topKind = .item
  · have hopened : d.ensureInline = d.openNode .paragraph true := if_pos hitem
    rw [hopened]
    refine ⟨_, fun _ => .inl, h.openParagraph hitem, ?_⟩
    rw [topKind, top, Draft.openNode, Tree.kind_push h.sound.top_lt_size, if_pos rfl]
    decide
  · have hsame : d.ensureInline = d := if_neg hitem
    rw [hsame]
    exact ⟨made, fun _ hmade => hmade, h, hitem⟩

/-- Where an implicit paragraph was closed, the next node must follow at once. -/
theorem closeImplicit (h : d.Tidy made false) : ∃ above, d.closeImplicit.Tidy made above ∧
    ∀ f ∈ d.closeImplicit.frames.head?, f.implicit = false := by
  unfold Draft.closeImplicit
  split
  · next id outer hframes =>
    have hsound := h.sound.closeImplicit
    rw [Draft.closeImplicit, hframes] at hsound
    have hopened := h.opened
    have hstacked := h.stacked
    rw [hframes] at hopened hstacked
    -- What is closed was open right inside the new innermost node, and nothing has come after it.
    cases hstacked with
    | cons _ _ _ rest =>
      refine ⟨true, ⟨hsound, h.tree, h.root, h.known,
        fun f hf => hopened f (List.mem_cons_of_mem _ hf), rest⟩, ?_⟩
      intro g hg
      cases rest with
      | nil => cases hg
      | cons _ paragraph _ _ =>
        rw [List.head?_cons, Option.mem_some_iff] at hg
        subst hg
        rw [← Bool.not_eq_true]
        intro himplicit
        -- no implicit paragraph is right inside another one
        cases (paragraph himplicit).2
  · next hframes =>
    refine ⟨false, h, ?_⟩
    intro f hf
    rw [← Bool.not_eq_true]
    intro himplicit
    obtain ⟨outer, houter⟩ := List.head?_eq_some_iff.1 hf
    exact hframes f.id outer (by rw [houter, ← himplicit])

/-- An open node may be closed if it is not implicit. -/
theorem close (h : d.Tidy made above) (hhead : ∀ f ∈ d.frames.head?, f.implicit = false) :
    d.close.Tidy made false := by
  refine ⟨h.sound.close, h.tree, h.root, h.known,
    fun f hf => h.opened f (List.mem_of_mem_tail hf), ?_⟩
  have hstacked := h.stacked
  rw [Draft.close]
  cases hframes : d.frames with
  | nil => exact .nil _
  | cons f outer =>
    rw [hframes] at hhead hstacked
    cases hstacked with
    | cons _ _ _ rest =>
      rw [hhead f rfl] at rest
      exact rest

/-- Kinds may change if nodes may stand where they do. -/
theorem modifyKind (h : d.Tidy made above) (id : NodeId) {f : Kind → Kind}
    (hf : Kind.KeepsPlace f) : Tidy made above { d with tree := d.tree.modifyKind id f } := by
  refine ⟨h.sound.modifyKind id f, h.tree.modifyKind id hf, ?_, ?_, h.opened, ?_⟩
  · intro hroot
    rw [Tree.kind_modifyKind_iff (· = .item) hf.item] at hroot
    exact h.root hroot
  · intro i hi
    rw [Tree.size_modifyKind]
    exact h.known i hi
  · refine h.stacked.imp ?_ ?_ ?_
    · intro g _ hparagraph
      rwa [Tree.kind_modifyKind_iff (· = .paragraph) hf.paragraph]
    · intro g _ hitem
      rwa [Tree.kind_modifyKind_iff (· = .item) hf.item] at hitem
    · intro g _ c hc hmade
      rw [Tree.children_modifyKind] at hc
      exact ⟨hc, hmade⟩

/-- A list may be loosened at any time. -/
theorem loosen (h : d.Tidy made above) : d.loosen.Tidy made above := by
  unfold Draft.loosen
  split
  · split
    · exact h.modifyKind _ Kind.keepsPlace_loosened
    · exact h
  · exact h

theorem extend (h : d.Tidy made above) (id : NodeId) (s : String) :
    (d.extend id s).Tidy made above := h.modifyKind id (Kind.keepsPlace_appending s)

/-- Text joins a text before it, so there are no two in a row. -/
theorem addTextNode (h : d.Tidy made false) (hitem : d.topKind ≠ .item) (s : String) :
    (d.addTextNode s).Tidy made false := by
  -- Only behind another kind of node is there a new text.
  have hleaf : (∀ c ∈ (d.tree.children d.top).getLast?, ¬ (d.tree.kind c).isText) →
      (d.addLeaf (.text s)).Tidy made false :=
    fun hlast => h.push (fun htop => absurd htop hitem) fun _ => hlast
  unfold Draft.addTextNode
  split
  · next last hlast =>
    split
    · exact h.extend _ s
    · next hkind =>
      refine hleaf ?_
      intro c hc htext
      rw [hlast, Option.mem_some_iff] at hc
      subst hc
      cases hc : d.tree.kind last <;> simp_all [Kind.isText]
  · next hlast =>
    refine hleaf ?_
    intro c hc
    rw [hlast] at hc
    cases hc

/-- Inline content in an item goes into an implicit paragraph. -/
theorem addInline (h : d.Tidy made false) {kind : Kind} (hkind : kind.isText = false) :
    ∃ made' : NodeId → Prop, (∀ i, made i → made' i) ∧ (d.addInline kind).Tidy made' false := by
  obtain ⟨made', hsub, htidy, hitem⟩ := h.ensureInline
  exact ⟨made', hsub, htidy.push (fun htop => absurd htop hitem) (by simp [hkind])⟩

/-- Text in an item goes into an implicit paragraph. -/
theorem addText (h : d.Tidy made false) (s : String) : ∃ made' : NodeId → Prop,
    (∀ i, made i → made' i) ∧ (d.addText s).Tidy made' false := by
  have hgathers : ∃ made' : NodeId → Prop, (∀ i, made i → made' i) ∧
      (d.extend d.top s).Tidy made' false := ⟨made, fun _ hmade => hmade, h.extend _ s⟩
  unfold Draft.addText
  split
  · exact hgathers
  · exact hgathers
  · exact hgathers
  · obtain ⟨made', hsub, htidy, hitem⟩ := h.ensureInline
    exact ⟨made', hsub, htidy.addTextNode hitem s⟩

/-- A tag may come at any time: room is made for it first. -/
theorem openTag (h : d.Tidy made false) (tag : Tag) : ∃ made' : NodeId → Prop,
    (∀ i, made i → made' i) ∧ (d.openTag tag).Tidy made' false := by
  obtain ⟨made', above, hsub, htidy, hblock⟩ : ∃ (made' : NodeId → Prop) (above : Bool),
      (∀ i, made i → made' i) ∧
      (if tag.isInline then d.ensureInline else d.closeImplicit).Tidy made' above ∧
      ((if tag.isInline then d.ensureInline else d.closeImplicit).topKind = .item →
        ¬ tag.isInline) := by
    by_cases hinline : tag.isInline
    · simp only [if_pos hinline]
      obtain ⟨made', hsub, htidy, hitem⟩ := h.ensureInline
      exact ⟨made', false, hsub, htidy, fun htop => absurd htop hitem⟩
    · simp only [if_neg hinline]
      obtain ⟨above, htidy, -⟩ := h.closeImplicit
      exact ⟨made, above, fun _ hmade => hmade, htidy, fun _ => hinline⟩
  refine ⟨made', hsub, ?_⟩
  rw [Draft.openTag]
  -- The two ways to make room are alike from here on.
  generalize (if tag.isInline then d.ensureInline else d.closeImplicit) = d' at htidy hblock ⊢
  by_cases hparagraph : tag = .paragraph
  · subst hparagraph
    exact htidy.loosen.openNode (fun _ => by simp [Tag.kind, Kind.isInline])
      (by simp [Tag.isText_kind])
  · rw [if_neg hparagraph]
    exact htidy.openNode (by rwa [tag.isInline_kind]) (by simp [tag.isText_kind])

/-- An event keeps the document tidy, whether it opens, closes or adds. It makes one more implicit
paragraph at most. -/
theorem step (h : d.Tidy made false) (e : Event) : ∃ made' : NodeId → Prop,
    (∀ i, made i → made' i) ∧ (d.step e).Tidy made' false := by
  have hkept : ∀ {d' : Draft}, d'.Tidy made false →
      ∃ made' : NodeId → Prop, (∀ i, made i → made' i) ∧ d'.Tidy made' false :=
    fun h' => ⟨made, fun _ hmade => hmade, h'⟩
  have hhide : ∀ n, Tidy made false { d with hidden := n } :=
    fun n => ⟨h.sound.withHidden n, h.tree, h.root, h.known, h.opened, h.stacked⟩
  -- By kind of event. An end closes the implicit paragraph and then the node around it, so no other
  -- node comes in between. All that is inline makes room in an item first.
  cases e with
  | start tag =>
    rw [Draft.step]
    split
    · exact hkept (hhide _)
    · exact h.openTag tag
  | stop =>
    rw [Draft.step]
    split
    · exact hkept (hhide _)
    · obtain ⟨above, htidy, hhead⟩ := h.closeImplicit
      exact hkept (htidy.close hhead)
  | text s => exact h.addText s
  | code | softBreak | hardBreak =>
    rw [Draft.step]
    split
    · exact hkept (h.extend _ _)
    · exact h.addInline rfl
  | html s =>
    rw [Draft.step]
    split
    · exact h.addText s
    · exact h.addInline rfl
  | rule =>
    obtain ⟨above, htidy, -⟩ := h.closeImplicit
    exact hkept (htidy.push (by simp [Kind.isInline]) (by simp [Kind.isText]))
  | inlineHtml | footnoteReference | taskListMarker | math => exact h.addInline rfl

/-- Every paragraph that is implicit at some time is among those that are kept apart. -/
theorem run (h : d.Tidy made false) (events : List Event) : ∃ made' : NodeId → Prop,
    (∀ i, made i → made' i) ∧ (∀ i ∈ d.implicits events, made' i) ∧
    (d.run events).Tidy made' false := by
  have hopen : ∀ {d : Draft} {made : NodeId → Prop}, d.Tidy made false →
      ∀ i ∈ d.openImplicits, made i := by
    intro d made h i hi
    simp only [openImplicits, List.mem_map, List.mem_filter] at hi
    obtain ⟨f, ⟨hf, himplicit⟩, rfl⟩ := hi
    exact h.opened f hf himplicit
  -- Each event may make one more implicit paragraph, so the nodes in `made` become more and more.
  induction events generalizing d made with
  | nil => exact ⟨made, fun _ hmade => hmade, hopen h, h⟩
  | cons e rest ih =>
    obtain ⟨made₁, hsub₁, hstep⟩ := h.step e
    obtain ⟨made₂, hsub₂, himplicits, hrun⟩ := ih hstep
    refine ⟨made₂, fun i hi => hsub₂ i (hsub₁ i hi), ?_, hrun⟩
    intro i hi
    rcases List.mem_append.1 hi with hi | hi
    · exact hsub₂ i (hsub₁ i (hopen h i hi))
    · exact himplicits i hi

end Tidy

end Draft

/-- However the events come, balanced or not, the tree has no inline node right inside an item, no
two neighbouring texts and no two neighbouring paragraphs that no event has opened. -/
theorem Tree.ofEvents_isTidy (events : List Event) :
    (Tree.ofEvents events).Tidy (· ∈ Draft.empty.implicits events) := by
  obtain ⟨made, -, himplicits, htidy⟩ := Draft.Tidy.empty.run events
  refine ⟨htidy.tree.items, htidy.tree.texts, ?_⟩
  intro p
  refine (htidy.tree.implicits p).imp ?_
  intro a b hab hboth
  exact hab ⟨himplicits a hboth.1, himplicits b hboth.2⟩

end StyledText.Markdown
