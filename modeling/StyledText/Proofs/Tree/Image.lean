import StyledText.Proofs.Tree.Absorb
import StyledText.Proofs.Tree.Settled

/-!
# Images while a tree is built

A draft is outside of all images (`Draft.Outside`), or inside one that is the innermost open node
(`Draft.Inside`). Inside, the image takes in every event but its end (`Draft.Inside.step_eq`).
Outside, nothing but the start of an image opens one (`Draft.Outside.keeps_step`).

* From its start to its end, an image takes in what comes between (`Draft.Outside.run_image_eq`),
  and then it is settled (`Draft.Outside.settledImage_absorbed`).
* `Tree.ofEvents_gathers_images` is the result for balanced events. An image may hold nodes:
  `markedUp_image_ne_leaf` has one.
-/

namespace StyledText.Markdown

/-- Only the tag of an image opens an image. -/
theorem Tag.exists_of_isImage (tag : Tag) (h : tag.kind.isImage) :
    ∃ destination title, tag = .image destination title := by
  cases tag with
  | image destination title => exact ⟨destination, title, rfl⟩
  | list start => cases start <;> cases h
  | _ => cases h

namespace Draft

variable {d d' : Draft} {id : Nat}

/-! ## Outside of images -/

/-- No open node is an image. -/
structure Outside (d : Draft) : Prop where
  sound : d.Sound
  hidden : d.hidden = 0
  root : (d.tree.kind Tree.root).isImage = false
  frames : ∀ frame ∈ d.frames, (d.tree.kind frame.id).isImage = false

namespace Outside

theorem empty : Draft.empty.Outside := ⟨.empty, rfl, rfl, by simp [Draft.empty]⟩

/-- Outside of images, the innermost open node is none. -/
theorem inImage (h : d.Outside) : d.inImage = false := by
  unfold Draft.inImage topKind top
  split
  · next frame outer hframes => exact h.frames frame (by rw [hframes]; exact List.mem_cons_self)
  · exact h.root

/-- Where no image is new, none is open either. -/
theorem of_keeps (h : d.Outside) (hkeeps : d.Keeps d' []) : d'.Outside := by
  have himage : ∀ id, (d.tree.kind id).isImage = false → (d'.tree.kind id).isImage = false := by
    intro id hid
    by_contra hnot
    rcases hkeeps.images id (by simpa using hnot) with hold | hnew
    · rw [hid] at hold
      contradiction
    · exact absurd hnew List.not_mem_nil
  refine ⟨hkeeps.sound, hkeeps.hidden.trans h.hidden, himage _ h.root, ?_⟩
  intro frame hframe
  apply himage
  -- A frame is an old one, or its node is outside of the tree and an empty document.
  rcases hkeeps.frames frame hframe with hold | hnew
  · exact h.frames frame hold
  · rw [Tree.kind, Tree.node_of_size_le hnew]
    rfl

/-- Outside of images, only the start of one opens an image. -/
theorem keeps_step (h : d.Outside) {e : Event}
    (he : ∀ destination title, e ≠ .start (.image destination title)) : d.Keeps (d.step e) [] := by
  cases e with
  | start tag =>
    have hkind : tag.kind.isImage = false := by
      rw [← Bool.not_eq_true]
      intro himage
      obtain ⟨destination, title, rfl⟩ := tag.exists_of_isImage himage
      exact he destination title rfl
    rw [step, h.inImage]
    exact Keeps.openTag h.sound hkind
  | stop =>
    rw [step, h.inImage]
    exact (Keeps.closeImplicit h.sound).trans (Keeps.close h.sound.closeImplicit)
  | text s => exact Keeps.addText h.sound s
  | html s =>
    rw [step]
    split
    · exact Keeps.addText h.sound s
    · exact Keeps.addInline h.sound rfl
  | code | softBreak | hardBreak =>
    rw [step, h.inImage]
    exact Keeps.addInline h.sound rfl
  | rule =>
    exact (Keeps.closeImplicit h.sound).trans (Keeps.addLeaf h.sound.closeImplicit rfl)
  | inlineHtml | footnoteReference | taskListMarker | math => exact Keeps.addInline h.sound rfl

end Outside

/-! ## Inside an image -/

/-- The innermost open node is an image, and no other open node is one. -/
structure Inside (d : Draft) (image : Nat) (outer : List Frame) : Prop where
  frames : d.frames = ⟨image, false⟩ :: outer
  isImage : (d.tree.kind image).isImage
  lt_size : image < d.tree.size
  outside : Outside { d with frames := outer, hidden := 0 }

namespace Inside

variable {image m : Nat} {outer : List Frame}

/-- The image is the innermost open node. -/
theorem top_eq (h : d.Inside image outer) : d.top = image := by
  rw [top, h.frames]

/-- The innermost open node has the kind of an image. -/
theorem exists_topKind (h : d.Inside image outer) :
    ∃ destination title alt, d.topKind = .image destination title alt := by
  have himage := h.isImage
  rw [topKind, h.top_eq]
  cases hkind : d.tree.kind image with
  | image destination title alt => exact ⟨destination, title, alt, rfl⟩
  | _ =>
    rw [hkind] at himage
    contradiction

/-- The tree is built up, and the image and the nodes around it are in it. -/
theorem sound (h : d.Inside image outer) : d.Sound := by
  refine ⟨h.outside.sound.built, ?_⟩
  intro frame hframe
  rw [h.frames] at hframe
  rcases List.mem_cons.1 hframe with rfl | hframe
  · exact h.lt_size
  · exact h.outside.sound.known frame hframe

/-- The image takes in all that comes before its end. -/
theorem step_eq (h : d.Inside image outer) {e : Event} (he : e.depth d.hidden = some m) :
    d.step e = { d with tree := d.tree.absorb image e, hidden := m } := by
  obtain ⟨destination, title, alt, hkind⟩ := h.exists_topKind
  have hinline : d.ensureInline = d := by rw [ensureInline, hkind]; rfl
  have himplicit : d.closeImplicit = d := by rw [closeImplicit, h.frames]
  have himage : d.inImage := by rw [inImage, hkind]; rfl
  -- By kind of event: tags are counted, text goes to the description, and what else there is
  -- becomes a child.
  cases e with
  | start tag =>
    rcases Option.some.inj he with rfl
    rw [step, if_pos himage]
    rfl
  | stop =>
    cases hhidden : d.hidden with
    | zero =>
      rw [hhidden] at he
      contradiction
    | succ hidden =>
      rw [hhidden] at he
      rcases Option.some.inj he with rfl
      have hinner : (d.inImage && decide (0 < d.hidden)) = true := by simp [himage, hhidden]
      rw [step, if_pos hinner, hhidden]
      rfl
  | text s =>
    rcases Option.some.inj he with rfl
    simp only [step, addText, hkind, h.top_eq]
    rfl
  | code | softBreak | hardBreak =>
    rcases Option.some.inj he with rfl
    rw [step, if_pos himage, h.top_eq]
    rfl
  | html s =>
    rcases Option.some.inj he with rfl
    simp only [step, hkind, Kind.isHtmlBlock, addInline, hinline, addLeaf, h.top_eq]
    rfl
  | rule =>
    rcases Option.some.inj he with rfl
    simp only [step, himplicit, addLeaf, h.top_eq]
    rfl
  | inlineHtml | footnoteReference | taskListMarker | math =>
    rcases Option.some.inj he with rfl
    simp only [step, addInline, hinline, addLeaf, h.top_eq]
    rfl

/-- Taking in leaves the draft inside the image. -/
theorem of_absorbs (h : d.Inside image outer) {t : Tree} (hbuilt : t.Built) {alt : String}
    {strays : List Kind} (ht : d.tree.Absorbs t image alt strays) (hidden : Nat) :
    Inside { d with tree := t, hidden } image outer := by
  have hsize := ht.size
  have hnot : ∀ id : Nat, id < d.tree.size → (d.tree.kind id).isImage = false →
      (t.kind id).isImage = false := by
    intro id hlt hid
    have hne : id ≠ image := by
      rintro rfl
      rw [h.isImage] at hid
      contradiction
    rw [Tree.kind, ht.rest id hlt hne]
    exact hid
  have hknown : ∀ frame ∈ outer, frame.id < d.tree.size := h.outside.sound.known
  refine ⟨h.frames, ?_, ht.lt_size h.lt_size, ⟨hbuilt, ?_⟩, rfl, ?_, ?_⟩
  · rw [Tree.kind, ht.node, Kind.isImage_appending]
    exact h.isImage
  · intro frame hframe
    have hlt := hknown frame hframe
    exact Nat.lt_of_lt_of_le hlt (by rw [hsize]; exact Nat.le_add_right _ _)
  · exact hnot _ h.sound.built.linked.size_pos h.outside.root
  · intro frame hframe
    exact hnot _ (hknown frame hframe) (h.outside.frames frame hframe)

theorem step (h : d.Inside image outer) {e : Event} (he : e.depth d.hidden = some m) :
    (d.step e).Inside image outer := by
  have hbuilt := (h.sound.step e).built
  rw [h.step_eq he] at hbuilt ⊢
  exact h.of_absorbs hbuilt (Tree.absorbs_foldl h.lt_size [e]) m

/-- An image takes in all events that do not end it. -/
theorem run (h : d.Inside image outer) {events : List Event}
    (hdepth : depth d.hidden events = some m) :
    d.run events = { d with tree := events.foldl (Tree.absorb image) d.tree, hidden := m } ∧
      (d.run events).Inside image outer := by
  -- The image is open after each event, so the next one is taken in too.
  induction events generalizing d with
  | nil =>
    rcases Option.some.inj hdepth with rfl
    exact ⟨rfl, h⟩
  | cons e rest ih =>
    obtain ⟨k, he, hrest⟩ := depth_cons_eq_some_iff.1 hdepth
    have hstep := h.step_eq he
    have hinside := h.step he
    obtain ⟨hrun, hinside'⟩ := ih hinside (by rw [hstep]; exact hrest)
    refine ⟨?_, hinside'⟩
    change (d.step e).run rest = _
    rw [hrun, hstep]
    rfl

/-- The end of an image closes it. -/
theorem step_stop (h : d.Inside image outer) (hhidden : d.hidden = 0) :
    d.step .stop = { d with frames := outer, hidden := 0 } := by
  have hplain : (d.inImage && decide (0 < d.hidden)) = false := by simp [hhidden]
  rw [Draft.step, hplain]
  simp only [Bool.false_eq_true, if_false, closeImplicit, h.frames, close, List.tail_cons]
  rw [← hhidden]

end Inside

namespace Outside

/-- A new image is open, and no other. -/
theorem inside_openNode (h : d.Outside) {kind : Kind} (hkind : kind.isImage) :
    (d.openNode kind false).Inside d.tree.size d.frames := by
  have hsound := h.sound.openNode kind false
  have hold : ∀ id : Nat, id < d.tree.size → (d.tree.kind id).isImage = false →
      ((d.tree.push d.top kind).kind id).isImage = false := by
    intro id hlt hid
    rwa [Tree.kind_push h.sound.top_lt_size, if_neg (by omega)]
  refine ⟨rfl, ?_, ?_, ⟨hsound.built, ?_⟩, rfl, ?_, ?_⟩
  · rw [openNode, Tree.kind_push h.sound.top_lt_size, if_pos rfl]
    exact hkind
  · simp [openNode]
  · intro frame hframe
    exact hsound.known frame (List.mem_cons_of_mem _ hframe)
  · exact hold _ h.sound.built.linked.size_pos h.root
  · intro frame hframe
    exact hold _ (h.sound.known frame hframe) (h.frames frame hframe)

variable (h : d.Outside) (destination title : String)
include h

/-- The start of an image opens it where inline content may be. -/
theorem step_image : d.step (.start (.image destination title)) =
    d.ensureInline.openNode (.image destination title "") false := by
  rw [step, h.inImage]
  rfl

/-- The start of an image opens it. -/
theorem inside_image : (d.step (.start (.image destination title))).Inside
    d.ensureInline.tree.size d.ensureInline.frames := by
  rw [h.step_image]
  exact (h.of_keeps (Keeps.ensureInline h.sound)).inside_openNode rfl

end Outside

end Draft

/-! ## Images of a tree -/

/-- A node is an image that holds what the events inside an image spell: in its description, and,
as nodes, what cannot be part of a description. -/
structure Tree.HoldsImage (t : Tree) (id : NodeId) (destination title : String)
    (inner : List Event) : Prop where
  kind : t.kind id = .image destination title (String.join (inner.filterMap Event.alt?))
  children : (t.children id).map t.node =
    (inner.filterMap Event.stray?).map fun kind => { kind, parent := some id }

namespace Draft

/-- A node is the image that one of the events starts. -/
def IsImageOf (d : Draft) (events : List Event) (t : Tree) (id : NodeId) : Prop :=
  ∃ before destination title inner after,
    events = before ++ .start (.image destination title) :: inner ++ .stop :: after ∧
      Balanced inner ∧ (d.run (before ++ [.start (.image destination title)])).top = id ∧
      t.HoldsImage id destination title inner

variable {d d' : Draft}

/-- Events run one after the other. -/
theorem run_append (events more : List Event) : d.run (events ++ more) = (d.run events).run more :=
  List.foldl_append

theorem run_concat (events : List Event) (e : Event) :
    d.run (events ++ [e]) = (d.run events).step e := run_append events [e]

/-- Events in front do not matter to an image. -/
theorem IsImageOf.prepend {events more : List Event} {t : Tree} {id : NodeId}
    (h : (d.run events).IsImageOf more t id) : d.IsImageOf (events ++ more) t id := by
  obtain ⟨before, destination, title, inner, after, rfl, hinner, htop, hholds⟩ := h
  refine ⟨events ++ before, destination, title, inner, after, by simp, hinner, ?_, hholds⟩
  rw [List.append_assoc, run_append]
  exact htop

/-- An image and what it holds are settled once it is closed. -/
structure SettledImage (d : Draft) (id : NodeId) (destination title : String)
    (inner : List Event) : Prop where
  self : d.Settled id
  children : ∀ c ∈ d.tree.children id, d.Settled c
  holds : d.tree.HoldsImage id destination title inner

/-- A settled image keeps what it holds. -/
theorem SettledImage.holds_of_keeps {id : NodeId} {destination title : String} {inner : List Event}
    {images : List Nat} (h : d.SettledImage id destination title inner)
    (hkeeps : d.Keeps d' images) : d'.tree.HoldsImage id destination title inner := by
  have hnode := hkeeps.node id h.self
  constructor
  · rw [Tree.kind, hnode]
    exact h.holds.kind
  · rw [Tree.children, hnode, ← h.holds.children]
    exact List.map_congr_left fun c hc => hkeeps.node c (h.children c hc)

/-! ## From the start of an image to its end -/

section Element

variable (h : d.Outside) (destination title : String) {inner : List Event}
include h

/-- After an image, the nodes are those before it, with the image and what it has taken in. -/
theorem Outside.run_image_eq (hinner : Balanced inner) : ∃ t : Tree,
    d.run (.start (.image destination title) :: inner ++ [.stop]) =
        { d.ensureInline with tree := t } ∧
      Outside { d.ensureInline with tree := t } ∧
      (d.ensureInline.tree.push d.ensureInline.top (.image destination title "")).Absorbs t
        d.ensureInline.tree.size (String.join (inner.filterMap Event.alt?))
        (inner.filterMap Event.stray?) := by
  have hroom := h.of_keeps (Keeps.ensureInline h.sound)
  have hinside := h.inside_image destination title
  rw [h.step_image] at hinside
  have hhidden : (d.ensureInline.openNode (.image destination title "") false).hidden = 0 :=
    hroom.hidden
  obtain ⟨hrun, hinside'⟩ := hinside.run (by rw [hhidden]; exact hinner)
  rw [hrun] at hinside'
  have houtside := hinside'.outside
  dsimp only [openNode] at houtside
  rw [← hroom.hidden] at houtside
  refine ⟨_, ?_, houtside, Tree.absorbs_foldl hinside.lt_size inner⟩
  rw [run_append]
  change ((d.step (.start (.image destination title))).run inner).step .stop = _
  rw [h.step_image, hrun, hinside'.step_stop rfl, ← hroom.hidden]
  rfl

end Element

section Absorbed

variable {t : Tree} {destination title : String} {inner : List Event}
  (h : d.Outside) (ht : (d.tree.push d.top (.image destination title "")).Absorbs t d.tree.size
    (String.join (inner.filterMap Event.alt?)) (inner.filterMap Event.stray?))
include ht

/-- The image stays in the tree. -/
theorem lt_size_absorbed : d.tree.size < t.size := by
  have hsize := ht.size
  rw [Tree.size_push] at hsize
  omega

/-- What strays into an image is no image, no text and no list. -/
theorem kind_absorbed {id : Nat} (hlt : d.tree.size < id) (hknown : id < t.size) :
    (t.kind id).isImage = false ∧ (∀ s, t.kind id ≠ .text s) ∧ (t.kind id).list? = none := by
  obtain ⟨kind, hmem, hnode⟩ := ht.exists_stray (by rw [Tree.size_push]; exact hlt) hknown
  obtain ⟨e, -, he⟩ := List.mem_filterMap.1 hmem
  rw [Tree.kind, hnode]
  exact Event.of_stray? he

include h

/-- Of a whole image, nothing but the image is new. -/
theorem Outside.keeps_absorbed (hsound : Sound { d with tree := t }) :
    d.Keeps { d with tree := t } [d.tree.size] := by
  have hold : ∀ id : Nat, id < d.tree.size →
      t.node id = (d.tree.push d.top (.image destination title "")).node id := by
    intro id hlt
    exact ht.rest id (by rw [Tree.size_push]; omega) (by omega)
  constructor
  · exact hsound
  · rfl
  · exact Nat.le_of_lt (lt_size_absorbed ht)
  · exact fun _ hframe => .inl hframe
  · intro id hid
    exact (hold id hid.lt_size).trans (Keeps.node_push_top h.sound _ hid)
  · intro id (himage : (t.kind id).isImage)
    rcases Nat.lt_trichotomy id d.tree.size with hlt | heq | hgt
    · have hkind := congrArg Node.kind (hold id hlt)
      change t.kind id = (d.tree.push d.top _).kind id at hkind
      rw [hkind, Tree.kind_push h.sound.top_lt_size, if_neg (by omega)] at himage
      exact .inl himage
    · exact .inr (List.mem_singleton.2 heq)
    · -- a stray is no image, and neither is what is not there
      exfalso
      rcases Nat.lt_or_ge id t.size with hlt | hge
      · rw [(kind_absorbed ht hgt hlt).1] at himage
        contradiction
      · rw [Tree.kind, Tree.node_of_size_le hge] at himage
        contradiction

/-- After its end an image is settled, and so is what strayed into it. -/
theorem Outside.settledImage_absorbed :
    SettledImage { d with tree := t } d.tree.size destination title inner := by
  have hnew : (d.tree.push d.top (.image destination title "")).node d.tree.size =
      { kind := .image destination title "", parent := some d.top } := by
    rw [Tree.node_push h.sound.top_lt_size, if_pos rfl]
  have hnode : t.node d.tree.size =
      { kind := .image destination title (String.join (inner.filterMap Event.alt?))
        parent := some d.top
        children := List.range' (d.tree.size + 1) (inner.filterMap Event.stray?).length } := by
    rw [ht.node, Tree.kind, Tree.children, hnew, Tree.size_push]
    simp [Kind.appending]
  have hkind : t.kind d.tree.size =
      .image destination title (String.join (inner.filterMap Event.alt?)) :=
    congrArg Node.kind hnode
  have hchildren : t.children d.tree.size =
      List.range' (d.tree.size + 1) (inner.filterMap Event.stray?).length :=
    congrArg Node.children hnode
  refine ⟨?_, ?_, hkind, ?_⟩
  · refine h.sound.settled_new (Nat.le_refl _) (lt_size_absorbed ht) ?_ ?_ <;> rw [hkind]
    · simp
    · rfl
  · intro c (hc : c ∈ t.children d.tree.size)
    rw [hchildren, List.mem_range'_1] at hc
    have hknown : c < t.size := by
      rw [ht.size, Tree.size_push]
      exact hc.2
    obtain ⟨-, htext, hlist⟩ := kind_absorbed ht hc.1 hknown
    exact h.sound.settled_new (Nat.le_of_lt hc.1) hknown htext hlist
  · change (t.children d.tree.size).map t.node = _
    rw [hchildren, ← ht.strays, Tree.size_push]

end Absorbed

/-- If all starts have an end, the new images are those that the events start. -/
theorem Outside.run_images (bound : Nat) (h : d.Outside) {events : List Event} {n : Nat}
    (hbound : events.length ≤ bound) (hdepth : depth n events = some 0) : ∃ images,
      d.Keeps (d.run events) images ∧ ∀ id ∈ images, d.IsImageOf events (d.run events).tree id := by
  -- What follows an image is shorter, but no part of the events: the induction is on their number.
  induction bound generalizing d events n with
  | zero =>
    rcases List.length_eq_zero_iff.1 (Nat.le_zero.1 hbound) with rfl
    exact ⟨[], .refl h.sound, fun _ hid => absurd hid List.not_mem_nil⟩
  | succ bound ih =>
    cases events with
    | nil => exact ⟨[], .refl h.sound, fun _ hid => absurd hid List.not_mem_nil⟩
    | cons e rest =>
      rw [List.length_cons] at hbound
      obtain ⟨k, he, hrest⟩ := depth_cons_eq_some_iff.1 hdepth
      by_cases himage : ∃ destination title, e = .start (.image destination title)
      · obtain ⟨destination, title, rfl⟩ := himage
        rcases Option.some.inj he with rfl
        rw [← Nat.zero_add (n + 1)] at hrest
        obtain ⟨inner, after, rfl, hinner, hafter⟩ := exists_end hrest (Nat.zero_le n)
        rw [List.length_append, List.length_cons] at hbound
        obtain ⟨t, hrun, houtside, ht⟩ := h.run_image_eq destination title hinner
        have hroom := h.of_keeps (Keeps.ensureInline h.sound)
        have hkeeps := hroom.keeps_absorbed ht houtside.sound
        have hsettled := hroom.settledImage_absorbed ht
        rw [← hrun] at houtside hkeeps hsettled
        obtain ⟨images, hmore, himages⟩ := ih houtside (by omega) hafter
        have hwhole : .start (.image destination title) :: (inner ++ .stop :: after) =
            (.start (.image destination title) :: inner ++ [.stop]) ++ after := by simp
        rw [hwhole, run_append]
        refine ⟨_, ((Keeps.ensureInline h.sound).trans hkeeps).trans hmore, ?_⟩
        intro id hid
        rcases List.mem_cons.1 hid with rfl | hid
        · refine ⟨[], destination, title, inner, after, by simp, hinner, ?_,
            hsettled.holds_of_keeps hmore⟩
          exact (h.inside_image destination title).top_eq
        · exact (himages id hid).prepend
      · have hkeeps := h.keeps_step fun destination title heq => himage ⟨destination, title, heq⟩
        obtain ⟨images, hmore, himages⟩ := ih (h.of_keeps hkeeps) (by omega) hrest
        refine ⟨images, hkeeps.trans hmore, ?_⟩
        intro id hid
        have hlater : (d.run [e]).IsImageOf rest (d.run (e :: rest)).tree id := himages id hid
        exact hlater.prepend

/-! ## Between the events of an image -/

/-- Whatever the events are, no open node is an image but the innermost one. -/
def Regular (d : Draft) : Prop := d.Outside ∨ ∃ image outer, d.Inside image outer

/-- The tree is built up, and the open nodes are in it. -/
theorem Regular.sound (h : d.Regular) : d.Sound := by
  rcases h with h | ⟨image, outer, h⟩
  · exact h.sound
  · exact h.sound

/-- An event keeps what is settled or opens an image, or an image takes it in or ends with it. -/
theorem Regular.step_cases (h : d.Regular) (e : Event) :
    (d.Outside ∧ d.Keeps (d.step e) []) ∨
      (d.Outside ∧ ∃ destination title, e = .start (.image destination title)) ∨
      ∃ image outer, d.Inside image outer ∧
        ((∃ m, e.depth d.hidden = some m) ∨ e = .stop ∧ d.hidden = 0) := by
  rcases h with h | ⟨image, outer, h⟩
  · by_cases himage : ∃ destination title, e = .start (.image destination title)
    · exact .inr (.inl ⟨h, himage⟩)
    · exact .inl ⟨h, h.keeps_step fun destination title heq => himage ⟨destination, title, heq⟩⟩
  · refine .inr (.inr ⟨image, outer, h, ?_⟩)
    cases hdepth : e.depth d.hidden with
    | some m => exact .inl ⟨m, rfl⟩
    | none => exact .inr (Event.eq_stop_of_depth hdepth)

/-- One event keeps images apart. -/
theorem Regular.step (h : d.Regular) (e : Event) : (d.step e).Regular := by
  rcases h.step_cases e with ⟨h, hkeeps⟩ | ⟨h, destination, title, rfl⟩ |
    ⟨image, outer, h, ⟨m, hdepth⟩ | ⟨rfl, hhidden⟩⟩
  · exact .inl (h.of_keeps hkeeps)
  · exact .inr ⟨_, _, h.inside_image destination title⟩
  · exact .inr ⟨image, outer, h.step hdepth⟩
  · rw [h.step_stop hhidden]
    exact .inl h.outside

/-- However the events come, images are kept apart. -/
theorem Regular.run (h : d.Regular) (events : List Event) : (d.run events).Regular := by
  induction events generalizing d with
  | nil => exact h
  | cons e rest ih => exact ih (h.step e)

/-- After the start of an image the draft is inside one, if not in that one. -/
theorem Regular.inside_start (h : d.Regular) (destination title : String) :
    ∃ image outer, (d.step (.start (.image destination title))).Inside image outer := by
  rcases h with h | ⟨image, outer, h⟩
  · exact ⟨_, _, h.inside_image destination title⟩
  · exact ⟨image, outer, h.step rfl⟩

/-- An event is taken in by the innermost open node, an image, and changes nothing else. -/
structure TakesIn (d : Draft) (e : Event) : Prop where
  inImage : d.inImage
  frames : (d.step e).frames = d.frames
  tree : (d.step e).tree = d.tree.absorb d.top e
  rest : ∀ id : Nat, id < d.tree.size → id ≠ d.top → (d.step e).tree.node id = d.tree.node id

/-- Inside an image, every event but its end is taken in. -/
theorem Inside.takesIn {image m : Nat} {outer : List Frame} (h : d.Inside image outer) {e : Event}
    (he : e.depth d.hidden = some m) : d.TakesIn e := by
  obtain ⟨destination, title, alt, hkind⟩ := h.exists_topKind
  have hstep := h.step_eq he
  have habsorbs := Tree.absorbs_foldl h.lt_size [e]
  constructor
  · rw [inImage, hkind]
    rfl
  · rw [hstep]
  · rw [hstep, h.top_eq]
  · intro id hlt hne
    rw [h.top_eq] at hne
    rw [hstep]
    exact habsorbs.rest id hlt hne

/-- So are all events between the start of an image and its end. -/
theorem Regular.takesIn (h : d.Regular) (destination title : String) {inner more : List Event}
    {e : Event} (hinner : Balanced (inner ++ e :: more)) :
    (d.run (.start (.image destination title) :: inner)).TakesIn e := by
  obtain ⟨image, outer, hinside⟩ := h.inside_start destination title
  obtain ⟨k, hk, hmore⟩ := depth_append_eq_some_iff.1 hinner
  obtain ⟨m, hm, -⟩ := depth_cons_eq_some_iff.1 hmore
  -- Tags may be open in the image already, if it is an outer one.
  have hdepth := depth_add (k := (d.step (.start (.image destination title))).hidden) hk
  rw [Nat.zero_add] at hdepth
  obtain ⟨hrun, hinside'⟩ := hinside.run hdepth
  refine hinside'.takesIn (m := m + (d.step (.start (.image destination title))).hidden) ?_
  rw [hrun]
  exact Event.depth_add hm

end Draft

/-! ## Images of balanced events -/

/-- Without a stray, an image is a leaf, and with one it is not. -/
theorem Tree.HoldsImage.children_eq_nil_iff {t : Tree} {id : NodeId} {destination title : String}
    {inner : List Event} (h : t.HoldsImage id destination title inner) :
    t.children id = [] ↔ ∀ e ∈ inner, e.stray? = none := by
  rw [← List.filterMap_eq_nil_iff, ← List.map_eq_nil_iff (f := t.node), h.children,
    List.map_eq_nil_iff]

/-- What images make of the events inside them. -/
structure GathersImages (events : List Event) : Prop where
  /-- Every image is one that the events start, and holds what they spell up to its end. -/
  images : ∀ id, ((Tree.ofEvents events).kind id).isImage →
    Draft.empty.IsImageOf events (Tree.ofEvents events) id
  /-- Images are leaves, unless a stray comes between the start of an image and its end. -/
  leaves : (∀ before destination title inner after,
    events = before ++ .start (.image destination title) :: inner ++ .stop :: after →
      Balanced inner → ∀ e ∈ inner, e.stray? = none) →
    ∀ id, ((Tree.ofEvents events).kind id).isImage → (Tree.ofEvents events).children id = []
  /-- Between the start and the end of an image, an event changes nothing but an image. -/
  inner : ∀ before destination title inner e more after,
    events = before ++ .start (.image destination title) :: inner ++ e :: more ++ .stop :: after →
    Balanced (inner ++ e :: more) →
      (Draft.empty.run (before ++ .start (.image destination title) :: inner)).TakesIn e

/-- In the tree of balanced events, an image takes in all that comes between its start and its end,
and nothing of that gets anywhere else. -/
theorem Tree.ofEvents_gathers_images {events : List Event} (h : Balanced events) :
    GathersImages events := by
  have himages : ∀ id, ((ofEvents events).kind id).isImage →
      Draft.empty.IsImageOf events (ofEvents events) id := by
    intro id himage
    obtain ⟨images, hkeeps, himages⟩ :=
      Draft.Outside.empty.run_images events.length (Nat.le_refl _) h
    rcases hkeeps.images id himage with hold | hnew
    · -- the empty document is no image
      rw [Draft.empty, Tree.kind, Tree.node_ofRoot] at hold
      split at hold <;> contradiction
    · exact himages id hnew
  refine ⟨himages, ?_, ?_⟩
  · intro hplain id himage
    obtain ⟨before, destination, title, inner, after, hsplit, hinner, -, hholds⟩ :=
      himages id himage
    exact hholds.children_eq_nil_iff.2 (hplain _ _ _ _ _ hsplit hinner)
  · intro before destination title inner e more _ _ hinner
    have hregular : (Draft.empty.run before).Regular :=
      Draft.Regular.run (.inl Draft.Outside.empty) before
    rw [Draft.run_append]
    exact hregular.takesIn destination title hinner

/-- A picture in a picture, described with raw markup, a note and emphasis. -/
def snapshot : List Event :=
  [.start .paragraph, .start (.image "x.png" ""), .text "a", .inlineHtml "<b>",
    .start (.image "y.png" ""), .footnoteReference "1", .code "b", .stop, .start .emphasis,
    .hardBreak, .stop, .stop, .stop]

/-- The markup and the note are nodes below the picture. -/
theorem snapshot_gathers_images : Balanced snapshot ∧
    Tree.ofEvents snapshot = ⟨#[{ kind := .document, children := [1] },
      { kind := .paragraph, parent := some 0, children := [2] },
      { kind := .image "x.png" "" "ab ", parent := some 1, children := [3, 4] },
      { kind := .inlineHtml "<b>", parent := some 2 },
      { kind := .unsupported "footnote_reference", parent := some 2 }]⟩ ∧
    GathersImages snapshot := by
  have hbalanced : Balanced snapshot := by decide
  exact ⟨hbalanced, by decide +kernel, Tree.ofEvents_gathers_images hbalanced⟩

/-- An image with raw markup in its description. -/
def markedUp : List Event :=
  [.start .paragraph, .start (.image "x.png" ""), .text "a", .inlineHtml "<b>", .text "b", .stop,
    .stop]

/-- So images of balanced events need not be leaves. -/
theorem markedUp_image_ne_leaf : Balanced markedUp ∧
    ¬ ∀ id, ((Tree.ofEvents markedUp).kind id).isImage →
      (Tree.ofEvents markedUp).children id = [] := by
  refine ⟨by decide, ?_⟩
  intro hleaves
  exact absurd (hleaves 2 (by decide)) (by decide)

end StyledText.Markdown
