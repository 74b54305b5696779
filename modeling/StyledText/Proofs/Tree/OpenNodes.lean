import StyledText.Proofs.Tree.OpenTags
import StyledText.Proofs.Tree.Siblings

/-!
# Open nodes and open tags

The end of a tag does not say which node it closes, so the open nodes have to follow the open tags.

* `openStarts` keeps the open tags, each with the events before its start. `OpenTag.Makes` says
  which node a start makes.
* `Draft.Aligned` is the invariant: outside of images, the open tags have made the open nodes that
  are not implicit; inside one, the tags since its start are counted. Each event keeps it
  (`Draft.Aligned.step`), so all events do (`Draft.aligned_run`).
* An open node is the last child of the one around it (`Draft.getLast?_children`). For an implicit
  paragraph that is an item (`Draft.closesItem`).
* `Draft.follows_openStarts` is the result for balanced events.
-/

namespace StyledText.Markdown

/-! ## Open tags and where they start -/

/-- An open tag, with the events before its start. -/
structure OpenTag where
  tag : Tag
  before : List Event
deriving DecidableEq, Repr

namespace OpenTag

def isImage (o : OpenTag) : Bool := o.tag.kind.isImage

/-- The start of the tag makes a node, and makes it last. -/
structure Makes (o : OpenTag) (id : NodeId) : Prop where
  fresh : (Tree.ofEvents o.before).size ≤ id
  last : (Tree.ofEvents (o.before ++ [.start o.tag])).size = id + 1
  kind : (Tree.ofEvents (o.before ++ [.start o.tag])).kind id = o.tag.kind

end OpenTag

/-- The open tags after an event, innermost first, if the event does not end more than was open.
Before it come the events `before`. -/
def Event.nestAt (before : List Event) : List OpenTag → Event → Option (List OpenTag)
  | opened, start tag => some (⟨tag, before⟩ :: opened)
  | [], stop => none
  | _ :: outer, stop => some outer
  | opened, _ => some opened

/-- The open tags after more events. -/
def openStartsFrom (before : List Event) (opened : List OpenTag) :
    List Event → Option (List OpenTag)
  | [] => some opened
  | e :: rest => (e.nestAt before opened).bind fun opened =>
    openStartsFrom (before ++ [e]) opened rest

/-- The open tags after events, innermost first. -/
def openStarts (events : List Event) : Option (List OpenTag) := openStartsFrom [] [] events

section OpenStarts

variable {before events : List Event} {e : Event} {opened opened' : List OpenTag}

/-- Without their places, they are the open tags. -/
theorem map_tag_nestAt (before : List Event) (opened : List OpenTag) (e : Event) :
    (e.nestAt before opened).map (List.map OpenTag.tag) = e.nest (opened.map OpenTag.tag) := by
  cases e <;> cases opened <;> rfl

theorem map_tag_openStartsFrom (before : List Event) (opened : List OpenTag)
    (events : List Event) : (openStartsFrom before opened events).map (List.map OpenTag.tag) =
      openTags (opened.map OpenTag.tag) events := by
  induction events generalizing before opened with
  | nil => rfl
  | cons e rest ih =>
    rw [openStartsFrom, openTags, List.foldlM_cons, ← map_tag_nestAt before]
    cases e.nestAt before opened with
    | none => rfl
    | some us => exact ih _ us

/-- One more event comes last. -/
theorem openStartsFrom_concat (before : List Event) (opened : List OpenTag)
    (events : List Event) (e : Event) : openStartsFrom before opened (events ++ [e]) =
      (openStartsFrom before opened events).bind fun us => e.nestAt (before ++ events) us := by
  induction events generalizing before opened with
  | nil => simp [openStartsFrom]
  | cons e' rest ih =>
    rw [List.cons_append, openStartsFrom, openStartsFrom, Option.bind_assoc]
    simp only [ih, List.append_assoc, List.singleton_append]

/-- One more event nests in what is open. -/
theorem openStarts_concat_eq_some_iff : openStarts (events ++ [e]) = some opened ↔
    ∃ us, openStarts events = some us ∧ e.nestAt events us = some opened := by
  rw [openStarts, openStartsFrom_concat, List.nil_append, Option.bind_eq_some_iff]
  rfl

/-- After balanced events nothing is open. -/
theorem Balanced.openStarts_eq (h : Balanced events) : openStarts events = some [] := by
  have hmap := map_tag_openStartsFrom [] [] events
  rw [List.map_nil, balanced_iff_openTags.1 h, Option.map_eq_some_iff] at hmap
  obtain ⟨opened, hopened, hnil⟩ := hmap
  rw [openStarts, hopened, List.map_eq_nil_iff.1 hnil]

/-- At any time, balanced events have ended no more than was open. -/
theorem Balanced.exists_openStarts {after : List Event} (h : Balanced (before ++ after)) :
    ∃ opened, openStarts before = some opened := by
  obtain ⟨tags, htags, -⟩ := openTags_append_eq_some_iff.1 (balanced_iff_openTags.1 h)
  have hmap := map_tag_openStartsFrom [] [] before
  rw [List.map_nil, htags, Option.map_eq_some_iff] at hmap
  obtain ⟨opened, hopened, -⟩ := hmap
  exact ⟨opened, hopened⟩

end OpenStarts

/-! ## Open nodes that tags have made -/

namespace Draft

/-- The open nodes that are not implicit, innermost first. -/
def explicits (d : Draft) : List NodeId := (d.frames.filter fun f => !f.implicit).map (·.id)

variable {d : Draft} {made : NodeId → Prop} {before events : List Event} {e : Event}
  {opened opened' inner outer : List OpenTag}

theorem explicits_openNode (d : Draft) (kind : Kind) :
    (d.openNode kind false).explicits = d.tree.size :: d.explicits := rfl

/-- A paragraph that is opened for inline content is implicit. -/
theorem explicits_ensureInline (d : Draft) : d.ensureInline.explicits = d.explicits := by
  unfold ensureInline
  split <;> rfl

/-- What is closed so is implicit. -/
theorem explicits_closeImplicit (d : Draft) : d.closeImplicit.explicits = d.explicits := by
  unfold closeImplicit
  split
  · next hframes => simp [explicits, hframes]
  · rfl

/-- Loosening neither opens nor closes anything. -/
theorem explicits_loosen (d : Draft) : d.loosen.explicits = d.explicits := by
  unfold loosen
  split
  · split <;> rfl
  · rfl

theorem explicits_addInline (d : Draft) (kind : Kind) :
    (d.addInline kind).explicits = d.explicits := d.explicits_ensureInline

/-- Text neither opens nor closes anything. -/
theorem explicits_addTextNode (d : Draft) (s : String) :
    (d.addTextNode s).explicits = d.explicits := by
  unfold addTextNode
  split
  · split <;> rfl
  · rfl

/-- Text opens an implicit paragraph at most. -/
theorem explicits_addText (d : Draft) (s : String) : (d.addText s).explicits = d.explicits := by
  unfold addText
  split
  iterate 3 rfl
  rw [explicits_addTextNode, explicits_ensureInline]

/-- Only starts and ends open and close nodes that are not implicit. -/
theorem explicits_step (hstart : ∀ tag, e ≠ .start tag) (hstop : e ≠ .stop) :
    (d.step e).explicits = d.explicits := by
  -- A leaf may open an implicit paragraph, and a rule may close one. Neither is counted.
  cases e with
  | start tag => exact absurd rfl (hstart tag)
  | stop => exact absurd rfl hstop
  | text s => exact d.explicits_addText s
  | code | softBreak | hardBreak =>
    rw [step]
    split
    · rfl
    · exact d.explicits_addInline _
  | html s =>
    rw [step]
    split
    · exact d.explicits_addText s
    · exact d.explicits_addInline _
  | rule => exact d.explicits_closeImplicit
  | inlineHtml | footnoteReference | taskListMarker | math => exact d.explicits_addInline _

/-- No implicit paragraph is right inside another one, so an end closes a node that is not
implicit. -/
theorem Tidy.explicits_close (h : d.Tidy made false) :
    d.closeImplicit.close.explicits = d.explicits.tail := by
  obtain ⟨-, -, hhead⟩ := h.closeImplicit
  rw [← d.explicits_closeImplicit]
  generalize d.closeImplicit = d' at hhead ⊢
  unfold explicits Draft.close
  cases hframes : d'.frames with
  | nil => rfl
  | cons f outer =>
    have hexplicit : f.implicit = false := hhead f (by rw [hframes]; rfl)
    simp [hexplicit]

/-- A tag that is opened closes an implicit paragraph, or opens one, and makes its node then. -/
theorem openTag_eq_openNode (h : d.Sound) (tag : Tag) : ∃ room : Draft, d.Keeps room [] ∧
    room.explicits = d.explicits ∧ d.openTag tag = room.openNode tag.kind false := by
  have hroom : d.Keeps (if tag.isInline then d.ensureInline else d.closeImplicit) [] ∧
      (if tag.isInline then d.ensureInline else d.closeImplicit).explicits = d.explicits := by
    split
    · exact ⟨.ensureInline h, d.explicits_ensureInline⟩
    · exact ⟨.closeImplicit h, d.explicits_closeImplicit⟩
  rw [openTag]
  -- The two ways to make room are alike from here on.
  generalize (if tag.isInline then d.ensureInline else d.closeImplicit) = room at hroom ⊢
  obtain ⟨hkeeps, hexplicits⟩ := hroom
  by_cases hparagraph : tag = .paragraph
  · refine ⟨room.loosen, hkeeps.trans (.loosen hkeeps.sound), ?_, ?_⟩
    · rw [explicits_loosen, hexplicits]
    · simp only [if_pos hparagraph]
  · refine ⟨room, hkeeps, hexplicits, ?_⟩
    simp only [if_neg hparagraph]

/-- The start of a tag makes a node, and opens it. -/
theorem Outside.exists_makes (h : (Draft.empty.run before).Outside) (tag : Tag) :
    ∃ id, OpenTag.Makes ⟨tag, before⟩ id ∧
      ((Draft.empty.run before).step (.start tag)).explicits =
        id :: (Draft.empty.run before).explicits := by
  obtain ⟨room, hkeeps, hexplicits, hopen⟩ := openTag_eq_openNode h.sound tag
  have hstep : (Draft.empty.run before).step (.start tag) = room.openNode tag.kind false := by
    rw [step, h.inImage, ← hopen]
    rfl
  have htree : Tree.ofEvents (before ++ [.start tag]) = room.tree.push room.top tag.kind := by
    rw [Tree.ofEvents, run_concat, hstep]
    rfl
  refine ⟨room.tree.size, ⟨hkeeps.size_le, ?_, ?_⟩, ?_⟩
  · rw [htree, Tree.size_push]
  · rw [htree, Tree.kind_push hkeeps.sound.top_lt_size, if_pos rfl]
  · rw [hstep, explicits_openNode, hexplicits]

/-! ## What events keep -/

/-- The open nodes of a draft are those of the open tags. -/
inductive Aligned (d : Draft) : List OpenTag → Prop
  | outside {opened : List OpenTag} (h : d.Outside) (plain : ∀ o ∈ opened, ¬ o.isImage)
      (nodes : List.Forall₂ OpenTag.Makes opened d.explicits) : Aligned d opened
  | inside {inner outer : List OpenTag} {o : OpenTag} {image : Nat} {frames : List Frame}
      (h : d.Inside image frames) (isImage : o.isImage) (plain : ∀ o ∈ outer, ¬ o.isImage)
      (nodes : List.Forall₂ OpenTag.Makes (o :: outer) d.explicits)
      (hidden : d.hidden = inner.length) : Aligned d (inner ++ o :: outer)

/-- Before all events nothing is open. -/
theorem aligned_empty : Draft.empty.Aligned [] := .outside .empty (by simp) .nil

namespace Aligned

section Outside

variable (h : (Draft.empty.run events).Outside) (plain : ∀ o ∈ opened, ¬ o.isImage)
  (nodes : List.Forall₂ OpenTag.Makes opened (Draft.empty.run events).explicits)
include h plain nodes

/-- Outside of images, the end of a tag closes its node. -/
theorem step_stop : ((Draft.empty.run events).step .stop).Aligned opened.tail := by
  obtain ⟨made, -, -, htidy⟩ := Tidy.empty.run events
  have hexplicits : ((Draft.empty.run events).step .stop).explicits =
      (Draft.empty.run events).explicits.tail := by
    rw [Draft.step, h.inImage, ← htidy.explicits_close]
    rfl
  refine .outside (h.of_keeps (h.keeps_step (by simp))) ?_ ?_
  · intro o ho
    exact plain o (List.mem_of_mem_tail ho)
  · rw [hexplicits]
    generalize (Draft.empty.run events).explicits = ids at nodes
    cases nodes with
    | nil => exact .nil
    | cons _ hrest => exact hrest

/-- Outside of images, the start of a tag opens its node. -/
theorem step_start (tag : Tag) :
    ((Draft.empty.run events).step (.start tag)).Aligned (⟨tag, events⟩ :: opened) := by
  obtain ⟨id, hmakes, hexplicits⟩ := h.exists_makes tag
  have hnodes : List.Forall₂ OpenTag.Makes (⟨tag, events⟩ :: opened)
      ((Draft.empty.run events).step (.start tag)).explicits := by
    rw [hexplicits]
    exact .cons hmakes nodes
  by_cases himage : tag.kind.isImage
  · obtain ⟨destination, title, rfl⟩ := tag.exists_of_isImage himage
    have hroom := h.of_keeps (Keeps.ensureInline h.sound)
    -- no tag is open in the image yet
    change Aligned _ ([] ++ _)
    refine .inside (h.inside_image destination title) rfl plain hnodes ?_
    rw [h.step_image]
    exact hroom.hidden
  · have hother : ∀ destination title, Event.start tag ≠ .start (.image destination title) := by
      rintro destination title heq
      rw [Event.start.inj heq] at himage
      exact himage rfl
    refine .outside (h.of_keeps (h.keeps_step hother)) ?_ hnodes
    intro o ho
    rcases List.mem_cons.1 ho with rfl | ho
    · exact himage
    · exact plain o ho

end Outside

section Inside

variable {image : Nat} {frames : List Frame} {o : OpenTag} (h : d.Inside image frames)
  (plain : ∀ o ∈ outer, ¬ o.isImage) (nodes : List.Forall₂ OpenTag.Makes (o :: outer) d.explicits)
include h plain nodes

/-- An image takes in all but its end, and counts the tags. -/
theorem step_inside (isImage : o.isImage) (inner : List OpenTag)
    (hdepth : e.depth d.hidden = some inner.length) : (d.step e).Aligned (inner ++ o :: outer) := by
  have hstep := h.step_eq hdepth
  refine .inside (h.step hdepth) isImage plain ?_ ?_
  · rw [hstep]
    exact nodes
  · rw [hstep]

/-- The end of an image closes it. -/
theorem step_end (hhidden : d.hidden = 0) : (d.step .stop).Aligned outer := by
  have hstep := h.step_stop hhidden
  refine .outside ?_ plain ?_
  · rw [hstep]
    exact h.outside
  · rw [explicits, h.frames] at nodes
    rw [hstep]
    cases nodes with
    | cons _ hrest => exact hrest

end Inside

/-- One more event. -/
theorem step (h : (Draft.empty.run events).Aligned opened)
    (he : e.nestAt events opened = some opened') :
    ((Draft.empty.run events).step e).Aligned opened' := by
  cases h with
  | outside houtside hplain hnodes =>
    cases e with
    | start tag =>
      cases Option.some.inj he
      exact step_start houtside hplain hnodes tag
    | stop =>
      cases opened with
      | nil => cases he
      | cons o outer =>
        cases Option.some.inj he
        exact step_stop houtside hplain hnodes
    | _ =>
      cases Option.some.inj he
      refine .outside (houtside.of_keeps (houtside.keeps_step (by simp))) hplain ?_
      rw [explicits_step (by simp) (by simp)]
      exact hnodes
  | @inside inner outer o image frames hinside himage hplain hnodes hhidden =>
    cases e with
    | start tag =>
      cases Option.some.inj he
      exact step_inside hinside hplain hnodes himage (_ :: inner) (by rw [hhidden]; rfl)
    | stop =>
      -- it ends the image, unless a tag is open in it
      cases inner with
      | nil =>
        cases Option.some.inj he
        exact step_end hinside hplain hnodes hhidden
      | cons i inner =>
        cases Option.some.inj he
        exact step_inside hinside hplain hnodes himage inner (by rw [hhidden]; rfl)
    | _ =>
      have hsame : opened' = inner ++ o :: outer := by
        cases inner <;> exact (Option.some.inj he).symm
      subst hsame
      exact step_inside hinside hplain hnodes himage inner (by rw [hhidden]; cases inner <;> rfl)

end Aligned

/-- All events together. -/
theorem aligned_run (h : openStarts events = some opened) :
    (Draft.empty.run events).Aligned opened := by
  induction events using List.reverseRecOn generalizing opened with
  | nil =>
    cases Option.some.inj h
    exact aligned_empty
  | append_singleton events e ih =>
    obtain ⟨us, hevents, he⟩ := openStarts_concat_eq_some_iff.1 h
    rw [run_concat]
    exact (ih hevents).step he

end Draft

/-! ## Open nodes in each other -/

namespace Level

variable {levels : List Level} {above below : List Frame} {f : Frame}

/-- Each frame is that of a level inside another one. -/
theorem exists_of_frames (h : frames levels = above ++ f :: below) : ∃ inner l m outer,
    levels = inner ++ l :: m :: outer ∧ f.id = widthAll (m :: outer) ∧
      below = frames (m :: outer) := by
  -- Frames and levels go together, but for the level of the root.
  induction above generalizing levels with
  | nil =>
    rcases levels with - | ⟨l, - | ⟨m, outer⟩⟩
    · cases h
    · cases h
    · cases h
      exact ⟨[], l, m, outer, rfl, rfl, rfl⟩
  | cons g above ih =>
    rcases levels with - | ⟨k, - | ⟨m, outer⟩⟩
    · cases h
    · cases h
    · obtain ⟨inner, l, m', outer', hlevels, hf⟩ := ih (List.cons.inj h).2
      exact ⟨k :: inner, l, m', outer', by rw [hlevels, List.cons_append], hf⟩

/-- The nodes of the levels outside come first. -/
theorem exists_nodes_eq (inside : Option Nat) (inner : List Level) (l : Level)
    (outer : List Level) : ∃ rest, nodes inside (inner ++ l :: outer) =
      nodes (some (widthAll outer)) outer ++ rest := by
  induction inner generalizing inside with
  | nil => exact ⟨_, rfl⟩
  | cons k inner ih =>
    obtain ⟨rest, hrest⟩ := ih (some (widthAll (inner ++ l :: outer)))
    refine ⟨rest ++ k.node (inner ++ l :: outer) inside :: k.closed (inner ++ l :: outer), ?_⟩
    rw [List.cons_append, nodes, hrest, List.append_assoc]

end Level

/-- Every open node is the last child of the open node around it. -/
theorem Zipper.getLast?_children (z : Zipper) {above below : List Frame} {f : Frame}
    (h : z.draft.frames = above ++ f :: below) :
    (z.tree.children ({ z.draft with frames := below } : Draft).top).getLast? = some f.id := by
  obtain ⟨inner, l, m, outer, hlevels, hf, rfl⟩ := Level.exists_of_frames h
  have htop : ({ z.draft with frames := Level.frames (m :: outer) } : Draft).top =
      Level.widthAll outer := draft_top ⟨m, outer, 0⟩
  obtain ⟨rest, hrest⟩ := Level.exists_nodes_eq none inner l (m :: outer)
  have hnode : z.tree.node (Level.widthAll outer) =
      m.node outer (some (Level.widthAll (m :: outer))) := by
    rw [tree, hlevels, hrest, Level.nodes, List.append_assoc, List.cons_append]
    exact Tree.node_ofNodes (Level.length_nodes _ outer) _ _
  rw [htop, Tree.children, hnode, Level.node, hf]
  exact List.getLast?_concat

/-- Before all events nothing is marked. -/
theorem Zipper.marksParagraphs_empty : Zipper.empty.MarksParagraphs := by
  intro i hi
  cases i <;> simp [empty, marks, levels, Level.marks, Marked.marksAll] at hi

namespace Draft

variable {events : List Event} {above below : List Frame} {f : Frame}

/-- The draft of a document is that of a zipper. -/
theorem run_eq_draft (events : List Event) :
    Draft.empty.run events = (Zipper.empty.run events).draft := Zipper.empty.draft_run events

/-- Each open node is the last child of the one around it. -/
theorem getLast?_children (h : (Draft.empty.run events).frames = above ++ f :: below) :
    ((Tree.ofEvents events).children
      ({ Draft.empty.run events with frames := below } : Draft).top).getLast? = some f.id := by
  rw [Tree.ofEvents]
  rw [run_eq_draft] at h ⊢
  exact (Zipper.empty.run events).getLast?_children h

/-- An implicit paragraph that is open is in an item. -/
theorem isParagraphInItem (hf : f ∈ (Draft.empty.run events).frames) (himplicit : f.implicit) :
    (Tree.ofEvents events).IsParagraphInItem f.id := by
  have hmarks := Zipper.marksParagraphs_run Zipper.empty events Zipper.marksParagraphs_empty
  rw [run_eq_draft] at hf
  rw [Tree.ofEvents, run_eq_draft]
  refine hmarks f.id (Zipper.marks_of_mem_openImplicits ?_)
  exact List.mem_map_of_mem (List.mem_filter.2 ⟨hf, himplicit⟩)

/-- A frame is that of a paragraph at the end of the item around it. -/
structure ClosesItem (t : Tree) (f : Frame) (below : List Frame) : Prop where
  paragraph : t.kind f.id = .paragraph
  item : ∃ g outer, below = g :: outer ∧ t.kind g.id = .item ∧
    (t.children g.id).getLast? = some f.id

/-- The frame right below that of an implicit paragraph is the one of its item. -/
theorem closesItem (h : (Draft.empty.run events).frames = above ++ f :: below)
    (himplicit : f.implicit) : ClosesItem (Tree.ofEvents events) f below := by
  obtain ⟨made, -, -, htidy⟩ := Tidy.empty.run events
  obtain ⟨hparagraph, p, hparent, hitem⟩ := isParagraphInItem (by rw [h]; simp) himplicit
  have hlast := getLast?_children h
  have hparent' := htidy.sound.built.linked.mem_children_iff.1 (List.mem_of_getLast? hlast)
  rw [Tree.ofEvents] at hparent
  rw [hparent, Option.some.injEq] at hparent'
  subst hparent'
  refine ⟨hparagraph, ?_⟩
  cases below with
  | nil =>
    -- the root is no item
    exact absurd hitem htidy.root
  | cons g outer => exact ⟨g, outer, rfl, hitem, hlast⟩

/-! ## Balanced events -/

/-- The open nodes of a draft follow the open tags, innermost first. -/
structure FollowsTags (d : Draft) (opened : List OpenTag) : Prop where
  /-- If no image is open, every open tag has an open node, and nothing is counted. -/
  plain : (∀ o ∈ opened, ¬ o.isImage) →
    List.Forall₂ OpenTag.Makes opened d.explicits ∧ d.hidden = 0
  /-- Tags in the outermost open image are only counted. -/
  image : ∀ inner o outer, opened = inner ++ o :: outer → o.isImage →
    (∀ o ∈ outer, ¬ o.isImage) →
      List.Forall₂ OpenTag.Makes (o :: outer) d.explicits ∧ d.hidden = inner.length
  /-- Implicit paragraphs are in items and come last there. -/
  implicits : ∀ above f below, d.frames = above ++ f :: below → f.implicit →
    ClosesItem d.tree f below

variable {d : Draft} {opened inner outer : List OpenTag} {o : OpenTag}

/-- Without an image, the open nodes are those that the tags made. -/
theorem Aligned.nodes_of_plain (h : d.Aligned opened)
    (hplain : ∀ o ∈ opened, ¬ o.isImage) :
    List.Forall₂ OpenTag.Makes opened d.explicits ∧ d.hidden = 0 := by
  cases h with
  | outside houtside _ hnodes => exact ⟨hnodes, houtside.hidden⟩
  | inside _ himage => exact absurd himage (hplain _ (by simp))

/-- There is one outermost image. -/
theorem eq_nil_of_outermost {as outer' : List OpenTag} {o' : OpenTag}
    (h : o :: outer = as ++ o' :: outer') (himage : o'.isImage)
    (hplain : ∀ o ∈ outer, ¬ o.isImage) : as = [] := by
  cases as with
  | nil => rfl
  | cons a as => exact absurd himage (hplain o' (by simp [(List.cons.inj h).2]))

/-- With an image, the tags in it are counted and make no nodes. -/
theorem Aligned.nodes_of_image (h : d.Aligned (inner ++ o :: outer)) (himage : o.isImage)
    (hplain : ∀ o ∈ outer, ¬ o.isImage) :
    List.Forall₂ OpenTag.Makes (o :: outer) d.explicits ∧ d.hidden = inner.length := by
  generalize hopened : inner ++ o :: outer = opened at h
  cases h with
  | outside _ hnone =>
    rw [← hopened] at hnone
    exact absurd himage (hnone o (by simp))
  | @inside inner' outer' o' image frames hinside himage' hplain' hnodes hhidden =>
    -- Both ways of cutting the tags are at the outermost image, and there is only one.
    obtain ⟨hinner, hrest⟩ : inner = inner' ∧ o :: outer = o' :: outer' := by
      rcases List.append_eq_append_iff.1 hopened with
        ⟨as, hinner, hrest⟩ | ⟨as, hinner, hrest⟩
      · cases eq_nil_of_outermost hrest himage' hplain
        exact ⟨by rw [hinner, List.append_nil], hrest⟩
      · cases eq_nil_of_outermost hrest himage hplain'
        exact ⟨by rw [hinner, List.append_nil], hrest.symm⟩
    rw [hinner, hrest]
    exact ⟨hnodes, hhidden⟩

/-- After any events that do not end too much, the open nodes follow the open tags. -/
theorem followsTags_run (h : openStarts events = some opened) :
    (Draft.empty.run events).FollowsTags opened := by
  have haligned := aligned_run h
  refine ⟨haligned.nodes_of_plain, ?_, fun above f below => closesItem⟩
  rintro inner o outer rfl
  exact haligned.nodes_of_image

/-- Without an open tag there is no open node. -/
theorem FollowsTags.frames_eq_nil (h : d.FollowsTags []) : d.frames = [] := by
  obtain ⟨hnodes, -⟩ := h.plain (by simp)
  rcases List.eq_nil_or_concat d.frames with hnil | ⟨above, f, hframes⟩
  · exact hnil
  · rw [List.concat_eq_append] at hframes
    cases himplicit : f.implicit with
    | true =>
      -- it would have to be in an item
      obtain ⟨g, outer, hbelow, -⟩ := (h.implicits above f [] hframes himplicit).item
      cases hbelow
    | false =>
      rw [explicits, hframes] at hnodes
      simp [himplicit] at hnodes

/-- After any part of balanced events, the open nodes follow the open tags. In the end, no node is
open and no tag is counted. -/
theorem follows_openStarts (h : Balanced events) :
    (∀ before after, events = before ++ after → ∃ opened, openStarts before = some opened ∧
      (Draft.empty.run before).FollowsTags opened) ∧
    (Draft.empty.run events).frames = [] ∧ (Draft.empty.run events).hidden = 0 := by
  have hend := followsTags_run h.openStarts_eq
  refine ⟨?_, hend.frames_eq_nil, (hend.plain (by simp)).2⟩
  rintro before after rfl
  obtain ⟨opened, hopened⟩ := h.exists_openStarts
  exact ⟨opened, hopened, followsTags_run hopened⟩

/-- An item with text, an image described with an image, and a block. -/
def menu : List Event :=
  [.start (.list none), .start .item, .text "Soup ", .start (.image "soup.png" ""),
    .start .emphasis, .start (.image "bowl.png" ""), .text "hot", .stop, .stop, .stop,
    .start .blockQuote, .start .paragraph, .text "Bread", .stop, .stop, .stop, .stop]

/-- The open nodes follow the open tags all through the menu. -/
theorem menu_follows_openStarts : Balanced menu ∧
    (∀ before after, menu = before ++ after → ∃ opened, openStarts before = some opened ∧
      (Draft.empty.run before).FollowsTags opened) ∧
    (Draft.empty.run menu).frames = [] ∧ (Draft.empty.run menu).hidden = 0 := by
  have hbalanced : Balanced menu := by decide
  exact ⟨hbalanced, follows_openStarts hbalanced⟩

end Draft

end StyledText.Markdown
