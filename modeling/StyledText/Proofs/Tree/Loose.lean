import StyledText.Proofs.Html.Items
import StyledText.Proofs.Tree.InList

/-!
# Loose lists

A list of a tree is one that the events start outside of images. It is loose if and only if a
paragraph starts right inside an item that is opened right inside the list (`HasItemParagraph`).
`Tree.ofEvents_loosens_lists` is the result, and says what it means for the HTML of the list.
-/

namespace StyledText.Markdown

/-! ## Paragraphs right inside items -/

/-- After the start of a list, an item is opened right inside it, and a paragraph right inside the
item: what else is opened in between is closed again. So the item is the innermost open tag when the
paragraph starts, the list is the next one, and no image is open if none is around the list. -/
def HasItemParagraph (inside : List Event) : Prop :=
  ∃ before inner after, inside = before ++ .start .item :: inner ++ .start .paragraph :: after ∧
    Balanced before ∧ Balanced inner

/-- Without events there is no paragraph. -/
theorem not_hasItemParagraph_nil : ¬ HasItemParagraph [] := by
  rintro ⟨before, inner, after, h, -, -⟩
  simp at h

/-- The last event makes a difference if it starts a paragraph while only an item is open. -/
theorem hasItemParagraph_concat_iff {inside : List Event} {e : Event} :
    HasItemParagraph (inside ++ [e]) ↔
      HasItemParagraph inside ∨ e = .start .paragraph ∧ openTags [] inside = some [.item] := by
  rw [openTags_eq_singleton_iff]
  constructor
  · -- the paragraph is the last event, or it was there before
    rintro ⟨before, inner, after, h, hbefore, hinner⟩
    rcases List.eq_nil_or_concat after with rfl | ⟨after, last, rfl⟩
    · obtain ⟨rfl, he⟩ := List.append_inj' h rfl
      exact .inr ⟨List.singleton_inj.1 he, before, inner, rfl, hbefore, hinner⟩
    · rw [List.concat_eq_append, ← List.cons_append, ← List.append_assoc] at h
      obtain ⟨rfl, -⟩ := List.append_inj' h rfl
      exact .inl ⟨before, inner, after, rfl, hbefore, hinner⟩
  · rintro (⟨before, inner, after, rfl, hbefore, hinner⟩ |
      ⟨rfl, before, inner, rfl, hbefore, hinner⟩)
    · exact ⟨before, inner, after ++ [e], by simp, hbefore, hinner⟩
    · exact ⟨before, inner, [], rfl, hbefore, hinner⟩

/-! ## From the start of a list -/

namespace Zipper

variable {z : Zipper} {l : Level} {below : List Level} {inside : List Event} {tags : List Tag}

theorem run_concat (z : Zipper) (events : List Event) (e : Event) :
    z.run (events ++ [e]) = (z.run events).step e := List.foldl_append

namespace InList

/-- As long as the list is open, the levels follow the tags. -/
theorem run (h : z.InList below [] []) (htags : openTags [] inside = some tags) :
    ∃ hidden shown, tags = hidden ++ shown ∧ (z.run inside).InList below hidden shown := by
  induction inside using List.reverseRecOn generalizing tags with
  | nil =>
    cases Option.some.inj htags
    exact ⟨[], [], rfl, h⟩
  | append_singleton inside e ih =>
    obtain ⟨us, hinside, he⟩ := openTags_append_eq_some_iff.1 htags
    obtain ⟨hidden, shown, rfl, hrun⟩ := ih hinside
    rw [run_concat]
    exact hrun.step (openTags_singleton.symm.trans he)

/-- Once the list is closed, it stays so. -/
theorem ended_run (h : z.InList (l :: below) [] []) (hregular : z.draft.Regular)
    (htags : openTags [] inside = none) :
    (z.run inside).draft.Ended (Level.widthAll (l :: below)) := by
  induction inside using List.reverseRecOn with
  | nil => cases htags
  | append_singleton inside e ih =>
    rw [run_concat, ← draft_step]
    cases hinside : openTags [] inside with
    | none =>
      have hrun := hregular.run inside
      rw [draft_run] at hrun
      exact (ih hinside).step hrun e
    | some tags =>
      -- this is the event that ends more than was open
      obtain ⟨hidden, shown, rfl, hrun⟩ := h.run hinside
      rw [openTags_append, hinside] at htags
      have hnest : e.nest (hidden ++ shown) = none := openTags_singleton.symm.trans htags
      obtain ⟨rfl, hnil⟩ := Event.eq_stop_of_nest hnest
      obtain ⟨rfl, rfl⟩ := List.append_eq_nil_iff.1 hnil
      exact hrun.ended_stop

/-- After events inside the list, a paragraph loosens it right inside of an item. -/
theorem loosens_run_iff (h : z.InList (l :: below) [] []) (hregular : z.draft.Regular)
    (inside : List Event) (e : Event) :
    (z.run inside).draft.Loosens e (Level.widthAll (l :: below)) ↔
      e = .start .paragraph ∧ openTags [] inside = some [.item] := by
  -- Either the list is still open, or one of the events has ended it for good.
  cases htags : openTags [] inside with
  | some tags =>
    obtain ⟨hidden, shown, rfl, hrun⟩ := h.run htags
    rw [hrun.loosens_iff, Option.some.injEq]
  | none =>
    have hsound : (z.run inside).draft.Sound := by
      rw [← draft_run]
      exact (hregular.run inside).sound
    simpa using (h.ended_run hregular htags).not_loosens hsound

end InList

/-- The start of a list opens it. -/
theorem inList_start (h : z.draft.Outside) (number : Option Nat) :
    (z.step (.start (.list number))).InList z.closeImplicit.levels [] [] := by
  have himage : z.inImage = false := z.draft_inImage.symm.trans h.inImage
  have hroom := h.of_keeps (Draft.Keeps.closeImplicit h.sound)
  rw [draft_closeImplicit] at hroom
  rw [Zipper.step, himage]
  refine ⟨⟨[], rfl, .list rfl ?_⟩, hroom.hidden.symm, absurd rfl⟩
  cases number <;> rfl

end Zipper

/-! ## Lists of a tree -/

/-- A node is a list of the sort that an event starts. It is loose if and only if, after that, a
paragraph starts right inside one of its items. -/
def Tree.HoldsList (t : Tree) (id : NodeId) (number : Option Nat) (inside : List Event) : Prop :=
  ∃ kind start tight, (Tag.list number).kind = .list kind start true ∧
    t.kind id = .list kind start tight ∧ (tight = false ↔ HasItemParagraph inside)

namespace Zipper

variable {z : Zipper}

/-- Closing an implicit paragraph does not change how many nodes there are. -/
theorem widthAll_closeImplicit (z : Zipper) :
    Level.widthAll z.closeImplicit.levels = z.draft.tree.size := by
  rw [← size_tree, ← Draft.tree_closeImplicit, draft_closeImplicit]
  rfl

/-- What has become of a list after its start. -/
theorem holdsList_run (h : z.draft.Outside) (number : Option Nat) (inside : List Event) :
    ((z.step (.start (.list number))).run inside).draft.tree.HoldsList z.draft.tree.size number
      inside := by
  obtain ⟨kind, start, htag⟩ : ∃ kind start, (Tag.list number).kind = .list kind start true := by
    cases number <;> exact ⟨_, _, rfl⟩
  refine ⟨kind, start, ?_⟩
  have hopen := inList_start h number
  have hregular : (z.step (.start (.list number))).draft.Regular := by
    rw [← draft_step]
    exact Draft.Regular.step (.inl h) _
  induction inside using List.reverseRecOn with
  | nil =>
    refine ⟨true, htag, ?_, by simp [not_hasItemParagraph_nil]⟩
    rw [run, List.foldl_nil, ← draft_step, Draft.kind_step_start_list h.sound h.inImage,
      if_pos rfl, htag]
  | append_singleton inside e ih =>
    obtain ⟨tight, -, hkind, htight⟩ := ih
    have hsound := (hregular.run inside).sound
    rw [draft_run] at hsound
    have hloosens := hopen.loosens_run_iff hregular inside e
    rw [← levels, widthAll_closeImplicit] at hloosens
    rw [run_concat, ← draft_step, hasItemParagraph_concat_iff, ← hloosens, ← htight]
    -- the event loosens the list just where it adds to what makes the list loose
    by_cases hloose : ((z.step (.start (.list number))).run inside).draft.Loosens e
        z.draft.tree.size
    · exact ⟨false, htag, Draft.kind_step_of_loosens hsound hloose hkind, by simp [hloose]⟩
    · exact ⟨tight, htag, Draft.kind_step_of_not_loosens hsound hloose hkind, by simp [hloose]⟩

end Zipper

namespace Draft

variable {events : List Event} {id : NodeId}

/-- A list comes from an event that starts it. -/
theorem exists_start_of_list (h : ((Draft.empty.run events).tree.kind id).list?.isSome) :
    ∃ before number inside, events = before ++ .start (.list number) :: inside ∧
      ¬ InsideImage before ∧ (Draft.empty.run before).tree.size = id := by
  -- A list is there because one of the events has started it, the last or one before.
  induction events using List.reverseRecOn with
  | nil =>
    change ((Tree.ofRoot .document).kind id).list?.isSome at h
    rw [Tree.kind, Tree.node_ofRoot] at h
    split at h <;> cases h
  | append_singleton events e ih =>
    rw [run_concat] at h
    have hsound : (Draft.empty.run events).Sound := Sound.empty.run events
    obtain ⟨kind, start, tight, hkind⟩ := Kind.exists_list h
    rcases exists_list_of_step hsound hkind with ⟨tight, hold⟩ | ⟨number, rfl, himage, rfl⟩
    · obtain ⟨before, number, inside, rfl, hbefore, hid⟩ := ih (by rw [hold]; rfl)
      exact ⟨before, number, inside ++ [e], by simp, hbefore, hid⟩
    · refine ⟨events, number, [], rfl, ?_, rfl⟩
      rw [← inImage_run_iff, himage]
      exact Bool.false_ne_true

/-- The list is what is open right after the event that starts it. -/
theorem top_run_start_list (h : ¬ InsideImage events) (number : Option Nat) :
    (Draft.empty.run (events ++ [.start (.list number)])).top =
      (Draft.empty.run events).tree.size := by
  rw [run_concat, step_start_list (outside_run h).inImage, ← tree_closeImplicit]
  rfl

end Draft

/-- A node is the list that one of the events starts, outside of images. -/
def Tree.IsListOf (t : Tree) (events : List Event) (id : NodeId) : Prop :=
  ∃ before number inside, events = before ++ .start (.list number) :: inside ∧
    ¬ InsideImage before ∧ (Draft.empty.run (before ++ [.start (.list number)])).top = id ∧
    t.HoldsList id number inside

/-- What makes lists loose, and what is written of them then. -/
structure LoosensLists (events : List Event) : Prop where
  /-- Every list is one that the events start, loose or not by what comes after that. -/
  lists : ∀ id, ((Tree.ofEvents events).kind id).list?.isSome →
    (Tree.ofEvents events).IsListOf events id
  /-- Every start of a list outside of images is that of such a list. -/
  starts : ∀ before number inside, events = before ++ .start (.list number) :: inside →
    ¬ InsideImage before → (Tree.ofEvents events).HoldsList
      (Draft.empty.run (before ++ [.start (.list number)])).top number inside
  /-- A paragraph right inside an item of a list has tags if and only if the list is loose. -/
  written : ∀ id kind start tight, (Tree.ofEvents events).kind id = .list kind start tight →
    (Tree.ofEvents events).WritesList id kind start tight

/-- A list outside of images is where it started, and as loose as its events make it. -/
theorem Tree.ofEvents_holdsList {before inside : List Event} (h : ¬ InsideImage before)
    (number : Option Nat) : (ofEvents (before ++ .start (.list number) :: inside)).HoldsList
      (Draft.empty.run before).tree.size number inside := by
  have hdraft : Draft.empty.run before = (Zipper.empty.run before).draft :=
    Zipper.empty.draft_run before
  have houtside := Draft.outside_run h
  rw [hdraft] at houtside
  have hholds := Zipper.holdsList_run houtside number inside
  rw [← Zipper.draft_run, ← Zipper.draft_step, ← hdraft] at hholds
  rw [ofEvents, Draft.run_append]
  exact hholds

/-- A list of any events is loose if and only if a paragraph starts right inside one of its items,
and then it is written with the tags of such paragraphs. -/
theorem Tree.ofEvents_loosens_lists (events : List Event) : LoosensLists events := by
  have hstarts : ∀ before number inside, events = before ++ .start (.list number) :: inside →
      ¬ InsideImage before → (Tree.ofEvents events).HoldsList
        (Draft.empty.run (before ++ [.start (.list number)])).top number inside := by
    rintro before number inside rfl hbefore
    rw [Draft.top_run_start_list hbefore]
    exact ofEvents_holdsList hbefore number
  refine ⟨?_, hstarts, ?_⟩
  · intro id hlist
    obtain ⟨before, number, inside, hevents, hbefore, rfl⟩ := Draft.exists_start_of_list hlist
    have hholds := hstarts before number inside hevents hbefore
    rw [← Draft.top_run_start_list hbefore]
    exact ⟨before, number, inside, hevents, hbefore, rfl, hholds⟩
  · intro id kind start tight hkind
    exact (Draft.Sound.empty.run events).built.linked.writesList hkind

/-- The paragraph of a quote in an item does not count, nor does one that no event starts. -/
example : (Tree.ofEvents [.start (.list none), .start .item, .text "a", .start .blockQuote,
    .start .paragraph, .stop, .stop, .stop, .stop]).kind 1 = .list .bullet 1 true := by
  decide +kernel

end StyledText.Markdown
