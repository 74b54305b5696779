import StyledText.Proofs.Tree.Image

/-!
# Lists while a tree is built

Once a list is opened, it stays a list of its sort. It is loosened when a paragraph starts right
inside an item, and the item is right below the list (`Draft.Loosens`). No other event changes it
(`Draft.kind_step_of_not_loosens`), and only the start of a list adds one
(`Draft.exists_list_of_step`).
-/

namespace StyledText.Markdown

/-- What counts as a list is one. -/
theorem Kind.exists_list {kind : Kind} (h : kind.list?.isSome) :
    ∃ k n tight, kind = .list k n tight := by
  cases kind with
  | list k n tight => exact ⟨k, n, tight, rfl⟩
  | _ => cases h

namespace Draft

variable {d d' d'' : Draft} {id : Nat} {k : ListKind} {n : Nat} {tight : Bool} {e : Event}

/-- Closing changes no node. -/
theorem tree_closeImplicit (d : Draft) : d.closeImplicit.tree = d.tree := by
  unfold closeImplicit
  split <;> rfl

/-! ## Steps that leave lists alone -/

/-- Lists stay as they are, and there are no new ones. -/
def KeepsLists (d d' : Draft) : Prop :=
  ∀ id k n tight, d'.tree.kind id = .list k n tight ↔ d.tree.kind id = .list k n tight

namespace KeepsLists

/-- In the same tree there are the same lists. -/
theorem of_tree_eq (h : d'.tree = d.tree) : d.KeepsLists d' := by
  intro id k n tight
  rw [h]

/-- Lists may be kept in two steps. -/
theorem trans (h : d.KeepsLists d') (h' : d'.KeepsLists d'') : d.KeepsLists d'' :=
  fun id k n tight => (h' id k n tight).trans (h id k n tight)

/-- A node that is no list is added. -/
theorem push (h : d.Sound) {kind : Kind} (hkind : kind.list? = none)
    (htree : d'.tree = d.tree.push d.top kind) : d.KeepsLists d' := by
  intro id k n tight
  rw [htree, Tree.kind_push h.top_lt_size]
  split
  · next hnew =>
    -- there was no node of that name before
    rw [hnew, Tree.kind, Tree.node_of_size_le (Nat.le_refl _)]
    refine iff_of_false ?_ (by simp)
    rintro rfl
    cases hkind
  · rfl

theorem addLeaf (h : d.Sound) {kind : Kind} (hkind : kind.list? = none) :
    d.KeepsLists (d.addLeaf kind) := push h hkind rfl

theorem openNode (h : d.Sound) {kind : Kind} (hkind : kind.list? = none) (implicit : Bool) :
    d.KeepsLists (d.openNode kind implicit) := push h hkind rfl

theorem closeImplicit (d : Draft) : d.KeepsLists d.closeImplicit := of_tree_eq d.tree_closeImplicit

theorem close (d : Draft) : d.KeepsLists d.close := of_tree_eq rfl

/-- A paragraph is opened at most. -/
theorem ensureInline (h : d.Sound) : d.KeepsLists d.ensureInline := by
  unfold Draft.ensureInline
  split
  · exact openNode h rfl true
  · exact of_tree_eq rfl

/-- A list holds no text. -/
theorem extend (d : Draft) (id : NodeId) (s : String) : d.KeepsLists (d.extend id s) := by
  intro c k n tight
  by_cases hid : id < d.tree.size
  · rw [Draft.extend, Tree.kind_modifyKind hid]
    split
    · cases d.tree.kind c <;> simp [Kind.appending]
    · rfl
  · rw [Draft.extend, Tree.modifyKind_of_size_le (Nat.le_of_not_lt hid)]

/-- What is added inline is no list. -/
theorem addInline (h : d.Sound) {kind : Kind} (hkind : kind.list? = none) :
    d.KeepsLists (d.addInline kind) :=
  (ensureInline h).trans (addLeaf h.ensureInline hkind)

/-- Text is added, which is no list. -/
theorem addTextNode (h : d.Sound) (s : String) : d.KeepsLists (d.addTextNode s) := by
  unfold Draft.addTextNode
  split
  · split
    · exact extend d _ s
    · exact addLeaf h rfl
  · exact addLeaf h rfl

/-- Text is added, to whatever node it is. -/
theorem addText (h : d.Sound) (s : String) : d.KeepsLists (d.addText s) := by
  unfold Draft.addText
  split
  · exact extend d d.top s
  · exact extend d d.top s
  · exact extend d d.top s
  · exact (ensureInline h).trans (addTextNode h.ensureInline s)

/-- The room for a node is made without changing lists. -/
theorem room (h : d.Sound) (tag : Tag) :
    d.KeepsLists (if tag.isInline then d.ensureInline else d.closeImplicit) := by
  split
  · exact ensureInline h
  · exact closeImplicit d

/-- Outside of images, only the starts of lists and paragraphs have to do with lists. -/
theorem step (h : d.Sound) (hlist : ∀ s, e = .start (.list s) → d.inImage)
    (hparagraph : e = .start .paragraph → d.inImage) : d.KeepsLists (d.step e) := by
  -- By kind of event. The two starts that touch lists do so outside of images only.
  cases e with
  | start tag =>
    rw [Draft.step]
    split
    · exact of_tree_eq rfl
    · next himage =>
      have hkind : tag.kind.list? = none := by
        cases tag with
        | list s => exact absurd (hlist s rfl) himage
        | _ => rfl
      have hsound : (if tag.isInline then d.ensureInline else d.closeImplicit).Sound := by
        split
        · exact h.ensureInline
        · exact h.closeImplicit
      rw [openTag, if_neg fun heq => himage (hparagraph (congrArg Event.start heq))]
      exact (room h tag).trans (openNode hsound hkind false)
  | stop =>
    rw [Draft.step]
    split
    · exact of_tree_eq rfl
    · exact (closeImplicit d).trans (close _)
  | text s => exact addText h s
  | html s =>
    rw [Draft.step]
    split
    · exact addText h s
    · exact addInline h rfl
  | code | softBreak | hardBreak =>
    rw [Draft.step]
    split
    · exact extend d d.top _
    · exact addInline h rfl
  | rule => exact (closeImplicit d).trans (addLeaf h.closeImplicit rfl)
  | inlineHtml | footnoteReference | taskListMarker | math => exact addInline h rfl

end KeepsLists

/-! ## Steps that change a list -/

/-- A paragraph starts right inside an item, and the item is right below the list. -/
structure Loosens (d : Draft) (e : Event) (list : NodeId) : Prop where
  paragraph : e = .start .paragraph
  outside : d.inImage = false
  item : d.closeImplicit.topKind = .item
  parent : d.tree.parent? d.closeImplicit.top = some list

/-- Only the list around an open item becomes loose. -/
theorem kind_loosen (d : Draft) (id : NodeId) : d.loosen.tree.kind id =
    if d.topKind = .item ∧ d.tree.parent? d.top = some id then (d.tree.kind id).loosened
    else d.tree.kind id := by
  unfold loosen
  by_cases hitem : d.topKind = .item
  · rw [if_pos hitem]
    simp only [hitem, true_and]
    split
    · next list hparent =>
      rw [hparent]
      -- a list that is not in the tree cannot be changed, and its kind is no list
      by_cases hknown : list < d.tree.size
      · rw [Tree.kind_modifyKind hknown]
        simp only [Option.some.injEq, eq_comm]
      · have hle := Nat.le_of_not_lt hknown
        rw [Tree.modifyKind_of_size_le hle]
        split
        · next heq =>
          rw [← Option.some.inj heq, Tree.kind, Tree.node_of_size_le hle]
          rfl
        · rfl
    · next hparent => simp [hparent]
  · rw [if_neg hitem, if_neg fun h => hitem h.1]

/-- The start of a list closes what is implicit. -/
theorem step_start_list (h : d.inImage = false) (s : Option Nat) :
    d.step (.start (.list s)) = d.closeImplicit.openNode (Tag.list s).kind false := by
  rw [step, h]
  rfl

/-- The start of a paragraph closes what is implicit and loosens the list. -/
theorem step_start_paragraph (h : d.inImage = false) :
    d.step (.start .paragraph) = d.closeImplicit.loosen.openNode .paragraph false := by
  rw [step, h]
  rfl

/-- The start of a list adds one node. -/
theorem kind_step_start_list (h : d.Sound) (himage : d.inImage = false) (s : Option Nat)
    (id : NodeId) : (d.step (.start (.list s))).tree.kind id =
      if id = d.tree.size then (Tag.list s).kind else d.tree.kind id := by
  rw [step_start_list himage, openNode, Tree.kind_push h.closeImplicit.top_lt_size,
    tree_closeImplicit]

/-- The start of a paragraph changes the list around the item. -/
theorem kind_step_start_paragraph_iff (h : d.Sound) (himage : d.inImage = false) :
    (d.step (.start .paragraph)).tree.kind id = .list k n tight ↔
      (if d.closeImplicit.topKind = .item ∧ d.tree.parent? d.closeImplicit.top = some id
        then (d.tree.kind id).loosened else d.tree.kind id) = .list k n tight := by
  have hopen : d.closeImplicit.loosen.KeepsLists (d.step (.start .paragraph)) := by
    rw [step_start_paragraph himage]
    exact .openNode h.closeImplicit.loosen rfl false
  rw [hopen id k n tight, kind_loosen, tree_closeImplicit]

/-- A list that is loosened is loose. -/
theorem kind_step_of_loosens (h : d.Sound) (hloosens : d.Loosens e id)
    (hkind : d.tree.kind id = .list k n tight) : (d.step e).tree.kind id = .list k n false := by
  obtain ⟨rfl, himage, hitem, hparent⟩ := hloosens
  rw [kind_step_start_paragraph_iff h himage, if_pos ⟨hitem, hparent⟩, hkind]
  rfl

/-- Only the starts of lists and of paragraphs do anything to lists, outside of images. -/
theorem start_list_or_start_paragraph_or_keepsLists (h : d.Sound) (e : Event) :
    (d.inImage = false ∧ ∃ s, e = .start (.list s)) ∨
      (d.inImage = false ∧ e = .start .paragraph) ∨ d.KeepsLists (d.step e) := by
  by_cases himage : d.inImage
  · exact .inr (.inr (.step h (fun _ _ => himage) fun _ => himage))
  · rw [Bool.not_eq_true] at himage
    by_cases hlist : ∃ s, e = .start (.list s)
    · exact .inl ⟨himage, hlist⟩
    · by_cases hparagraph : e = .start .paragraph
      · exact .inr (.inl ⟨himage, hparagraph⟩)
      · exact .inr (.inr (.step h (fun s heq => absurd ⟨s, heq⟩ hlist)
          fun heq => absurd heq hparagraph))

/-- A list that is not loosened stays as it is. -/
theorem kind_step_of_not_loosens (h : d.Sound) (hloosens : ¬ d.Loosens e id)
    (hkind : d.tree.kind id = .list k n tight) : (d.step e).tree.kind id = .list k n tight := by
  rcases start_list_or_start_paragraph_or_keepsLists h e with
    ⟨himage, s, rfl⟩ | ⟨himage, rfl⟩ | hkeeps
  · have hold := Tree.lt_size_of_kind hkind (by simp)
    rw [kind_step_start_list h himage, if_neg (Nat.ne_of_lt hold), hkind]
  · rw [kind_step_start_paragraph_iff h himage, if_neg, hkind]
    rintro ⟨hitem, hparent⟩
    exact hloosens ⟨rfl, himage, hitem, hparent⟩
  · exact (hkeeps id k n tight).2 hkind

/-- A list that was not there before is the one that the event starts. -/
theorem exists_list_of_step (h : d.Sound) (hkind : (d.step e).tree.kind id = .list k n tight) :
    (∃ t, d.tree.kind id = .list k n t) ∨
      ∃ s, e = .start (.list s) ∧ d.inImage = false ∧ id = d.tree.size := by
  -- A new list is the last node. A loosened one was a list before.
  rcases start_list_or_start_paragraph_or_keepsLists h e with
    ⟨himage, s, rfl⟩ | ⟨himage, rfl⟩ | hkeeps
  · rw [kind_step_start_list h himage] at hkind
    split at hkind
    · next hnew => exact .inr ⟨s, rfl, himage, hnew⟩
    · exact .inl ⟨tight, hkind⟩
  · rw [kind_step_start_paragraph_iff h himage] at hkind
    left
    split at hkind
    · cases hold : d.tree.kind id with
      | list k' n' t =>
        rw [hold] at hkind
        cases hkind
        exact ⟨t, rfl⟩
      | _ =>
        rw [hold] at hkind
        cases hkind
    · exact ⟨tight, hkind⟩
  · exact .inl ⟨tight, (hkeeps id k n tight).1 hkind⟩

end Draft

end StyledText.Markdown
