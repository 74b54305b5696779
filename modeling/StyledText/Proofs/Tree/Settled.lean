import StyledText.Proofs.Tree.Arena

/-!
# Nodes that stay

A node that is closed stays as it is, unless it is a text or a list (`Draft.Settled`). Each of the
steps that an event is made of keeps such nodes, whatever the draft is, and opens no image unless
it is told to (`Draft.Keeps`).
-/

namespace StyledText.Markdown

namespace Kind

/-- More text makes nothing an image. -/
theorem isImage_appending (s : String) (kind : Kind) :
    (kind.appending s).isImage = kind.isImage := by
  cases kind <;> rfl

/-- Loosening makes nothing an image. -/
theorem isImage_loosened (kind : Kind) : kind.loosened.isImage = kind.isImage := by
  cases kind <;> rfl

end Kind

namespace Draft

/-! ## Settled nodes -/

/-- A node that is closed. -/
structure Ended (d : Draft) (id : NodeId) : Prop where
  lt_size : id < d.tree.size
  ne_root : id ≠ Tree.root
  closed : ∀ frame ∈ d.frames, frame.id ≠ id

/-- A node that no event changes any more: it is closed, and it is neither a text, which more text
can be added to, nor a list, which can become loose. -/
structure Settled (d : Draft) (id : Nat) : Prop where
  lt_size : id < d.tree.size
  ne_root : id ≠ Tree.root
  closed : ∀ frame ∈ d.frames, frame.id ≠ id
  not_text : ∀ s, d.tree.kind id ≠ .text s
  not_list : (d.tree.kind id).list? = none

/-- What is settled stays as it is, and no images are new but the given ones. -/
structure Keeps (d d' : Draft) (images : List Nat) : Prop where
  sound : d'.Sound
  hidden : d'.hidden = d.hidden
  size_le : d.tree.size ≤ d'.tree.size
  frames : ∀ frame ∈ d'.frames, frame ∈ d.frames ∨ d.tree.size ≤ frame.id
  node : ∀ id, d.Settled id → d'.tree.node id = d.tree.node id
  images : ∀ id, (d'.tree.kind id).isImage → (d.tree.kind id).isImage ∨ id ∈ images

variable {d d' d'' : Draft} {id : Nat}

/-- A closed node is not the innermost open one. -/
theorem Ended.ne_top (h : d.Ended id) : id ≠ d.top := by
  unfold top
  split
  · next frame outer hframes =>
    exact (h.closed frame (by rw [hframes]; exact List.mem_cons_self)).symm
  · exact h.ne_root

/-- A closed node is not opened again. -/
theorem Ended.of_frames (h : d.Ended id) (hsize : d.tree.size ≤ d'.tree.size)
    (hframes : ∀ frame ∈ d'.frames, frame ∈ d.frames ∨ d.tree.size ≤ frame.id) :
    d'.Ended id := by
  refine ⟨Nat.lt_of_lt_of_le h.lt_size hsize, h.ne_root, ?_⟩
  intro frame hframe
  rcases hframes frame hframe with hold | hnew
  · exact h.closed frame hold
  · exact Nat.ne_of_gt (Nat.lt_of_lt_of_le h.lt_size hnew)

theorem Settled.ended (h : d.Settled id) : d.Ended id := ⟨h.lt_size, h.ne_root, h.closed⟩

theorem Settled.ne_top (h : d.Settled id) : id ≠ d.top := h.ended.ne_top

/-- A new node is settled unless it is opened. -/
theorem Sound.settled_new (h : d.Sound) {t : Tree} (hle : d.tree.size ≤ id) (hlt : id < t.size)
    (htext : ∀ s, t.kind id ≠ .text s) (hlist : (t.kind id).list? = none) :
    Settled { d with tree := t } id where
  lt_size := hlt
  ne_root := Nat.ne_of_gt (Nat.lt_of_lt_of_le h.built.linked.size_pos hle)
  closed := fun frame hframe => Nat.ne_of_lt (Nat.lt_of_lt_of_le (h.known frame hframe) hle)
  not_text := htext
  not_list := hlist

namespace Keeps

/-- A settled node stays settled. -/
theorem settled {images : List Nat} (h : d.Keeps d' images) (hid : d.Settled id) :
    d'.Settled id := by
  have hkind : d'.tree.kind id = d.tree.kind id := congrArg Node.kind (h.node id hid)
  have hended := hid.ended.of_frames h.size_le h.frames
  refine ⟨hended.lt_size, hended.ne_root, hended.closed, ?_, ?_⟩
  · rw [hkind]
    exact hid.not_text
  · rw [hkind]
    exact hid.not_list

/-- Without an event everything is kept. -/
theorem refl (h : d.Sound) : d.Keeps d [] where
  sound := h
  hidden := rfl
  size_le := Nat.le_refl _
  frames := fun _ hframe => .inl hframe
  node := fun _ _ => rfl
  images := fun _ himage => .inl himage

/-- What is kept in two steps is kept. -/
theorem trans {l m : List Nat} (h : d.Keeps d' l) (h' : d'.Keeps d'' m) :
    d.Keeps d'' (l ++ m) where
  sound := h'.sound
  hidden := h'.hidden.trans h.hidden
  size_le := Nat.le_trans h.size_le h'.size_le
  -- the frames that are new in the second step are newer than all before the first
  frames := by
    intro frame hframe
    rcases h'.frames frame hframe with hold | hnew
    · exact h.frames frame hold
    · exact .inr (Nat.le_trans h.size_le hnew)
  node := fun id hid => (h'.node id (h.settled hid)).trans (h.node id hid)
  images := by
    intro id himage
    rcases h'.images id himage with hold | hnew
    · exact (h.images id hold).imp_right (List.mem_append_left m)
    · exact .inr (List.mem_append_right l hnew)

/-! ### Steps that open no image -/

/-- A new child of the innermost open node does not touch what is settled. -/
theorem node_push_top (h : d.Sound) (kind : Kind) (hid : d.Settled id) :
    (d.tree.push d.top kind).node id = d.tree.node id := by
  have hlt := hid.lt_size
  rw [Tree.node_push h.top_lt_size, if_neg (by omega), if_neg hid.ne_top]

/-- A new node that is no image adds none. -/
theorem images_push_top (h : d.Sound) {kind : Kind} (hkind : kind.isImage = false)
    (himage : ((d.tree.push d.top kind).kind id).isImage) : (d.tree.kind id).isImage := by
  rw [Tree.kind_push h.top_lt_size] at himage
  split at himage
  · rw [hkind] at himage
    contradiction
  · exact himage

theorem addLeaf (h : d.Sound) {kind : Kind} (hkind : kind.isImage = false) :
    d.Keeps (d.addLeaf kind) [] where
  sound := h.addLeaf kind
  hidden := rfl
  size_le := by simp [Draft.addLeaf]
  frames := fun _ hframe => .inl hframe
  node := fun _ hid => node_push_top h kind hid
  images := fun _ himage => .inl (images_push_top h hkind himage)

theorem openNode (h : d.Sound) {kind : Kind} (hkind : kind.isImage = false) (implicit : Bool) :
    d.Keeps (d.openNode kind implicit) [] where
  sound := h.openNode kind implicit
  hidden := rfl
  size_le := by simp [Draft.openNode]
  frames := by
    intro frame hframe
    rcases List.mem_cons.1 hframe with rfl | hframe
    · exact .inr (Nat.le_refl _)
    · exact .inl hframe
  node := fun _ hid => node_push_top h kind hid
  images := fun _ himage => .inl (images_push_top h hkind himage)

/-- A kind may change if it is not settled. -/
theorem modifyKind (h : d.Sound) {id : Nat} {f : Kind → Kind}
    (himage : ∀ kind, (f kind).isImage = kind.isImage)
    (hsettled : d.Settled id → f (d.tree.kind id) = d.tree.kind id) :
    d.Keeps { d with tree := d.tree.modifyKind id f } [] where
  sound := h.modifyKind id f
  hidden := rfl
  size_le := by simp
  frames := fun _ hframe => .inl hframe
  node := by
    intro c hc
    by_cases hid : id < d.tree.size
    · rw [Tree.node_modifyKind hid]
      split
      · next heq =>
        subst heq
        rw [hsettled hc]
        rfl
      · rfl
    · rw [Tree.modifyKind_of_size_le (Nat.le_of_not_lt hid)]
  images := by
    intro c hc
    left
    by_cases hid : id < d.tree.size
    · rw [Tree.kind_modifyKind hid] at hc
      split at hc
      · rwa [himage] at hc
      · exact hc
    · rwa [Tree.modifyKind_of_size_le (Nat.le_of_not_lt hid)] at hc

/-- Nodes may be closed. -/
theorem dropFrames (h : d.Sound) {frames : List Frame} (hsub : frames ⊆ d.frames) :
    d.Keeps { d with frames } [] where
  sound := ⟨h.built, fun frame hframe => h.known frame (hsub hframe)⟩
  hidden := rfl
  size_le := Nat.le_refl _
  frames := fun _ hframe => .inl (hsub hframe)
  node := fun _ _ => rfl
  images := fun _ himage => .inl himage

theorem close (h : d.Sound) : d.Keeps d.close [] := 
  dropFrames h fun _ => List.mem_of_mem_tail

/-- Closing what is implicit touches no node. -/
theorem closeImplicit (h : d.Sound) : d.Keeps d.closeImplicit [] := by
  unfold Draft.closeImplicit
  split
  · next hframes =>
    refine dropFrames h ?_
    rw [hframes]
    exact List.subset_cons_self _ _
  · exact .refl h

/-- A paragraph that is opened is no image. -/
theorem ensureInline (h : d.Sound) : d.Keeps d.ensureInline [] := by
  unfold Draft.ensureInline
  split
  · exact openNode h rfl true
  · exact .refl h

/-- Text is added to the innermost open node or to a text. -/
theorem extend (h : d.Sound) (s : String) (hid : ¬ d.Settled id) : d.Keeps (d.extend id s) [] :=
  modifyKind h (Kind.isImage_appending s) fun hsettled => absurd hsettled hid

/-- Only lists become loose, and they are not settled. -/
theorem loosen (h : d.Sound) : d.Keeps d.loosen [] := by
  unfold Draft.loosen
  split
  · split
    · next list _ =>
      refine modifyKind h Kind.isImage_loosened ?_
      intro hsettled
      have hnone := hsettled.not_list
      cases hkind : d.tree.kind list <;> simp_all [Kind.loosened, Kind.list?]
    · exact .refl h
  · exact .refl h

theorem addInline (h : d.Sound) {kind : Kind} (hkind : kind.isImage = false) :
    d.Keeps (d.addInline kind) [] :=
  (ensureInline h).trans (addLeaf h.ensureInline hkind)

/-- Text goes to a text, which is not settled, or to a new one. -/
theorem addTextNode (h : d.Sound) (s : String) : d.Keeps (d.addTextNode s) [] := by
  unfold Draft.addTextNode
  split
  · split
    · next hkind => exact extend h s fun hsettled => hsettled.not_text _ hkind
    · exact addLeaf h rfl
  · exact addLeaf h rfl

/-- Text goes to an open node or to a text. -/
theorem addText (h : d.Sound) (s : String) : d.Keeps (d.addText s) [] := by
  have htop : ¬ d.Settled d.top := fun hsettled => hsettled.ne_top rfl
  unfold Draft.addText
  split
  · exact extend h s htop
  · exact extend h s htop
  · exact extend h s htop
  · exact (ensureInline h).trans (addTextNode h.ensureInline s)

/-- A tag opens its node and touches no settled one. -/
theorem openTag (h : d.Sound) {tag : Tag} (hkind : tag.kind.isImage = false) :
    d.Keeps (d.openTag tag) [] := by
  have hroom : d.Keeps (if tag.isInline then d.ensureInline else d.closeImplicit) [] := by
    split
    · exact ensureInline h
    · exact closeImplicit h
  have hloose : d.Keeps (if tag = .paragraph then
      (if tag.isInline then d.ensureInline else d.closeImplicit).loosen
      else if tag.isInline then d.ensureInline else d.closeImplicit) [] := by
    split
    · exact hroom.trans (loosen hroom.sound)
    · exact hroom
  exact hloose.trans (openNode hloose.sound hkind false)

end Keeps

end Draft

end StyledText.Markdown
