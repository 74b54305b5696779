import StyledText.Proofs.Tree.Image

/-!
# Open tags

`openTags` keeps the tags that are open after events, innermost first, besides those that were open
before. It ends with the end of one of those.

* `openTags_eq_singleton_iff`: where in the events the one open tag stands.
* `Draft.inImage_run_iff`: a draft is inside an image where the events are inside one.
-/

namespace StyledText.Markdown

/-- The open tags after an event, innermost first, if the event does not end more than was open. -/
def Event.nest : List Tag → Event → Option (List Tag)
  | tags, start tag => some (tag :: tags)
  | [], stop => none
  | _ :: outer, stop => some outer
  | tags, _ => some tags

/-- The open tags after events. -/
def openTags (tags : List Tag) (events : List Event) : Option (List Tag) :=
  events.foldlM Event.nest tags

section Tags

variable {e : Event} {events more inner : List Event} {tag : Tag} {tags tags' outer : List Tag}

/-- More events go on with the tags that are open. -/
theorem openTags_append :
    openTags tags (events ++ more) = (openTags tags events).bind (openTags · more) :=
  List.foldlM_append

/-- Tags are open after all events if they are after the last ones. -/
theorem openTags_append_eq_some_iff : openTags tags (events ++ more) = some tags' ↔
    ∃ us, openTags tags events = some us ∧ openTags us more = some tags' := by
  rw [openTags_append, Option.bind_eq_some_iff]

/-- One event nests once. -/
theorem openTags_singleton : openTags tags [e] = e.nest tags := by
  simp [openTags]

/-- There are as many as the depth says. -/
theorem map_length_nest (tags : List Tag) (e : Event) :
    (e.nest tags).map List.length = e.depth tags.length := by
  cases e <;> cases tags <;> rfl

/-- The depth is the number of open tags. -/
theorem map_length_openTags (tags : List Tag) (events : List Event) :
    (openTags tags events).map List.length = depth tags.length events := by
  induction events generalizing tags with
  | nil => rfl
  | cons e rest ih =>
    rw [openTags, depth, List.foldlM_cons, List.foldlM_cons, ← map_length_nest]
    cases e.nest tags with
    | none => rfl
    | some us => exact ih us

/-- Balanced events leave no tag open. -/
theorem balanced_iff_openTags : Balanced events ↔ openTags [] events = some [] := by
  rw [Balanced, ← List.length_nil (α := Tag), ← map_length_openTags]
  simp

/-- Only an end can end more than was open. -/
theorem Event.eq_stop_of_nest (h : e.nest tags = none) : e = .stop ∧ tags = [] := by
  have hdepth := map_length_nest tags e
  rw [h, Option.map_none] at hdepth
  exact (Event.eq_stop_of_depth hdepth.symm).imp_right List.length_eq_zero_iff.1

/-- Tags that are open before make no difference. -/
theorem Event.nest_append (h : e.nest tags = some tags') (outer : List Tag) :
    e.nest (tags ++ outer) = some (tags' ++ outer) := by
  cases e <;> cases tags <;> cases h <;> rfl

/-- Tags further out stay open. -/
theorem openTags_append_left (h : openTags tags events = some tags') (outer : List Tag) :
    openTags (tags ++ outer) events = some (tags' ++ outer) := by
  induction events generalizing tags with
  | nil =>
    cases Option.some.inj h
    rfl
  | cons e rest ih =>
    obtain ⟨us, hnest, hrest⟩ := Option.bind_eq_some_iff.1 h
    exact Option.bind_eq_some_iff.2 ⟨_, Event.nest_append hnest outer, ih hrest⟩

/-- Balanced events change no open tags. -/
theorem Balanced.openTags_eq (h : Balanced events) (tags : List Tag) :
    openTags tags events = some tags :=
  openTags_append_left (balanced_iff_openTags.1 h) tags

/-- Balanced events may follow each other. -/
theorem Balanced.append (h : Balanced events) (hmore : Balanced more) :
    Balanced (events ++ more) :=
  depth_append_eq_some_iff.2 ⟨0, h, hmore⟩

/-- Balanced events in an element are balanced with its tags. -/
theorem Balanced.element (h : Balanced inner) (tag : Tag) :
    Balanced (.start tag :: inner ++ [.stop]) := by
  rw [balanced_iff_openTags, openTags_append_eq_some_iff]
  exact ⟨[tag], h.openTags_eq [tag], rfl⟩

/-- Events that open tags: a balanced part comes before each start, and one after the last. -/
inductive Opens : List Event → List Tag → Prop
  | balanced {events : List Event} (h : Balanced events) : Opens events []
  | start {events inner : List Event} {tags : List Tag} (tag : Tag) (h : Opens events tags)
    (hinner : Balanced inner) : Opens (events ++ .start tag :: inner) (tag :: tags)

/-- More events that are balanced make no difference. -/
theorem Opens.append (h : Opens events tags) (hmore : Balanced more) :
    Opens (events ++ more) tags := by
  cases h with
  | balanced hevents => exact .balanced (hevents.append hmore)
  | start tag hevents hinner =>
    rw [List.append_assoc, List.cons_append]
    exact .start tag hevents (hinner.append hmore)

/-- One more event opens a tag, closes the last one or stands in it. -/
theorem Opens.nest (h : Opens events tags) (he : e.nest tags = some tags') :
    Opens (events ++ [e]) tags' := by
  cases e with
  | start tag =>
    cases Option.some.inj he
    exact .start tag h rfl
  | stop =>
    cases h with
    | balanced hevents => cases he
    | start tag hevents hinner =>
      -- the element that ends is a balanced part of what is around it
      cases Option.some.inj he
      have hmore := hevents.append (hinner.element tag)
      rwa [← List.append_assoc] at hmore
  | _ =>
    cases Option.some.inj he
    exact h.append rfl

/-- The open tags are those whose starts have no end yet. -/
theorem opens_of_openTags (h : openTags [] events = some tags) : Opens events tags := by
  induction events using List.reverseRecOn generalizing tags with
  | nil =>
    cases Option.some.inj h
    exact .balanced rfl
  | append_singleton events e ih =>
    obtain ⟨us, hevents, he⟩ := openTags_append_eq_some_iff.1 h
    exact (ih hevents).nest (openTags_singleton.symm.trans he)

/-- A single tag is open between its start and its end. -/
theorem openTags_eq_singleton_iff : openTags [] events = some [tag] ↔ ∃ before inner,
    events = before ++ .start tag :: inner ∧ Balanced before ∧ Balanced inner := by
  constructor
  · intro h
    cases opens_of_openTags h with
    | start tag hbefore hinner =>
      cases hbefore with
      | balanced hbefore => exact ⟨_, _, rfl, hbefore, hinner⟩
  · rintro ⟨before, inner, rfl, hbefore, hinner⟩
    exact openTags_append_eq_some_iff.2 ⟨[], hbefore.openTags_eq [], hinner.openTags_eq [tag]⟩

end Tags

/-! ## Inside images -/

/-- Whether events end inside an image: one is started, and what follows does not end it. -/
def InsideImage (events : List Event) : Prop :=
  ∃ before destination title inner n,
    events = before ++ .start (.image destination title) :: inner ∧ depth 0 inner = some n

namespace Draft

theorem Inside.inImage {d : Draft} {image : Nat} {outer : List Frame} (h : d.Inside image outer) :
    d.inImage = true := by
  rw [Draft.inImage, topKind, h.top_eq]
  exact h.isImage

/-- Where the innermost open node is no image, none is. -/
theorem Regular.outside {d : Draft} (h : d.Regular) (himage : d.inImage = false) : d.Outside := by
  rcases h with houtside | ⟨image, outer, hinside⟩
  · exact houtside
  · rw [hinside.inImage] at himage
    cases himage

/-- Inside an image that events have started, the tags that are open since then are hidden. -/
theorem Inside.exists_start {events : List Event} {image : Nat} {outer : List Frame}
    (h : (Draft.empty.run events).Inside image outer) :
    ∃ before destination title inner,
      events = before ++ .start (.image destination title) :: inner ∧
      depth 0 inner = some (Draft.empty.run events).hidden := by
  induction events using List.reverseRecOn generalizing image outer with
  | nil => cases h.frames
  | append_singleton events e ih =>
    rw [run_concat] at h ⊢
    rcases (Regular.run (.inl .empty) events).step_cases e with ⟨houtside, hkeeps⟩ |
      ⟨houtside, destination, title, rfl⟩ | ⟨image', outer', hinside, ⟨m, hdepth⟩ | ⟨rfl, hhidden⟩⟩
    · have hstays := houtside.of_keeps hkeeps
      exact absurd h.inImage (by simp [hstays.inImage])
    · have hroom := houtside.of_keeps (Keeps.ensureInline houtside.sound)
      refine ⟨events, destination, title, [], rfl, ?_⟩
      rw [houtside.step_image, openNode, hroom.hidden]
      rfl
    · obtain ⟨before, destination, title, inner, hevents, hinner⟩ := ih hinside
      refine ⟨before, destination, title, inner ++ [e], by simp [hevents], ?_⟩
      rw [hinside.step_eq hdepth]
      exact depth_append_eq_some_iff.2 ⟨_, hinner, depth_cons_eq_some_iff.2 ⟨m, hdepth, rfl⟩⟩
    · -- the image has ended
      rw [hinside.step_stop hhidden] at h
      exact absurd h.inImage (by simp [hinside.outside.inImage])

/-- The innermost open node is an image exactly inside the events of an image. -/
theorem inImage_run_iff (events : List Event) :
    (Draft.empty.run events).inImage ↔ InsideImage events := by
  constructor
  · intro himage
    rcases Regular.run (.inl Outside.empty) events with houtside | ⟨image, outer, hinside⟩
    · rw [houtside.inImage] at himage
      cases himage
    · obtain ⟨before, destination, title, inner, hevents, hinner⟩ := hinside.exists_start
      exact ⟨before, destination, title, inner, _, hevents, hinner⟩
  · -- before the start anything may be open, even another image
    rintro ⟨before, destination, title, inner, n, rfl, hinner⟩
    have hregular := Regular.run (.inl Outside.empty) before
    obtain ⟨image, outer, hinside⟩ := hregular.inside_start destination title
    have hdepth := depth_add
      (k := ((Draft.empty.run before).step (.start (.image destination title))).hidden) hinner
    rw [Nat.zero_add] at hdepth
    rw [run_append]
    exact (hinside.run hdepth).2.inImage

/-- Outside of the events of images, no image is open. -/
theorem outside_run {events : List Event} (h : ¬ InsideImage events) :
    (Draft.empty.run events).Outside := by
  rw [← inImage_run_iff, Bool.not_eq_true] at h
  exact (Regular.run (.inl .empty) events).outside h

end Draft

end StyledText.Markdown
