import StyledText.Proofs.Tree.Grammar
import StyledText.Proofs.Tree.ReadBack

/-!
# Trees of well nested events

Well nested events add to the innermost open node the outlines that they spell, and leave
everything else as it is (`Zipper.grows_run`). So the tree of such events is read back as the
outlines that they spell (`Tree.ofEvents_reads_back`).
-/

namespace StyledText.Markdown

namespace Zipper

open Marked (readAll readAll_append)

/-! ## Growth -/

/-- The zipper with the implicit paragraph closed, if one is open. -/
abbrev home (z : Zipper) : Zipper := z.closeImplicit

/-- The innermost node that an event has opened holds nodes, and what is open below it is an
implicit paragraph in an item. -/
structure Ready (z : Zipper) : Prop where
  hidden : z.hidden = 0
  holdsNodes : z.home.top.kind.gathersText = false
  explicit : z.home.top.implicit = false
  paragraph : z.top.implicit → z.top.kind = .paragraph ∧ z.home.top.kind = .item

/-- Outlines have been added to what the innermost open node holds. The list around it has become
loose, if they make it so. -/
structure Grows (z z' : Zipper) (outlines : List Outline) : Prop where
  ready : z'.Ready
  kind : z'.home.top.kind = z.home.top.kind.settled outlines
  content : readAll z'.home.top.done = readAll z.home.top.done ++ outlines
  outer : z'.home.outer = if z.home.top.kind = .item ∧ outlines.any (·.kind = .paragraph)
    then loosenHead z.home.outer else z.home.outer

/-- A list cannot be looser than loose. -/
theorem loosened_loosened (kind : Kind) : kind.loosened.loosened = kind.loosened := by
  cases kind <;> rfl

/-- Making a level loose twice is making it loose once. -/
theorem loosenHead_loosenHead (levels : List Level) :
    loosenHead (loosenHead levels) = loosenHead levels := by
  cases levels with
  | nil => rfl
  | cons l outer => simp [loosenHead, loosened_loosened]

/-- A kind may be settled by parts of its content. -/
theorem settled_append (kind : Kind) (l m : List Outline) :
    kind.settled (l ++ m) = (kind.settled l).settled m := by
  unfold Kind.settled
  rw [List.any_append]
  cases l.any _ <;> cases m.any _ <;> simp [loosened_loosened]

/-- Only a list gets another kind by what it holds. -/
theorem settled_eq_iff (target : Kind) (h : target.list? = none) (kind : Kind) (l : List Outline) :
    kind.settled l = target ↔ kind = target := by
  unfold Kind.settled
  split
  · cases kind with
    | list k start tight =>
      constructor
      · rintro rfl
        contradiction
      · rintro rfl
        contradiction
    | _ => exact Iff.rfl
  · exact Iff.rfl

namespace Grows

variable {z z' z'' : Zipper} {l m : List Outline}

/-- Without an event nothing grows. -/
theorem refl (h : z.Ready) : z.Grows z [] := by
  constructor
  · exact h
  · rfl
  · rw [List.append_nil]
  · simp

/-- What grows may grow on. -/
theorem trans (h : z.Grows z' l) (h' : z'.Grows z'' m) : z.Grows z'' (l ++ m) := by
  constructor
  · exact h'.ready
  · rw [h'.kind, h.kind, settled_append]
  · rw [h'.content, h.content, List.append_assoc]
  · simp only [h'.outer, h.outer, h.kind, settled_eq_iff .item rfl, List.any_append]
    by_cases hitem : z.home.top.kind = .item
    · cases l.any _ <;> cases m.any _ <;> simp [hitem, loosenHead_loosenHead]
    · simp [hitem]

end Grows

/-! ## Adding nodes -/

section Append

variable {z : Zipper} {o : Marked}

/-- An implicit paragraph is inside of something. -/
theorem Ready.exists_outer (h : z.Ready) (himplicit : z.top.implicit) :
    ∃ l outer, z.outer = l :: outer := by
  cases houter : z.outer with
  | nil =>
    have hexplicit := h.explicit
    rw [home, closeImplicit, if_pos himplicit, close, houter, himplicit] at hexplicit
    contradiction
  | cons l outer => exact ⟨l, outer, rfl⟩

/-- A node that is neither an item nor a paragraph makes nothing loose. -/
theorem Ready.grows_append (h : z.Ready) {kind : Kind} {done : List Marked}
    (hitem : kind ≠ .item) (hparagraph : kind ≠ .paragraph) :
    z.Grows (z.append (.node kind false done)) [.node kind (readAll done)] := by
  obtain ⟨hkind, houter, hexplicit, hcontent, htop⟩ :
      (z.append (.node kind false done)).home.top.kind = z.home.top.kind ∧
      (z.append (.node kind false done)).home.outer = z.home.outer ∧
      (z.append (.node kind false done)).home.top.implicit = z.home.top.implicit ∧
      readAll (z.append (.node kind false done)).home.top.done =
        readAll z.home.top.done ++ [.node kind (readAll done)] ∧
      (z.append (.node kind false done)).top.kind = z.top.kind := by
    -- The node is added to the open paragraph, if there is one, and else to what holds nodes.
    cases himplicit : z.top.implicit with
    | false =>
      have hhome : z.home = z := if_neg (by simp [himplicit])
      have hhome' : (z.append (.node kind false done)).home = z.append (.node kind false done) :=
        if_neg (by simp [append, Level.append, himplicit])
      rw [hhome, hhome']
      simp [append, Level.append, readAll_append, readAll, Marked.read]
    | true =>
      rcases h.exists_outer himplicit with ⟨l, outer, houter⟩
      simp [home, closeImplicit, close, append, Level.append, himplicit, houter, readAll_append,
        readAll, Marked.read]
  constructor
  · constructor
    · exact h.hidden
    · rw [hkind]
      exact h.holdsNodes
    · rw [hexplicit]
      exact h.explicit
    · rw [hkind, htop]
      exact h.paragraph
  · simp [hkind, Kind.settled, Outline.kind, hitem]
  · exact hcontent
  · simp [houter, Outline.kind, hparagraph]

theorem home_of_explicit (h : z.top.implicit = false) : z.home = z := if_neg (by simp [h])

/-- An open item is never implicit. -/
theorem Ready.explicit_of_item (h : z.Ready) (hitem : z.top.kind = .item) :
    z.top.implicit = false := by
  cases himplicit : z.top.implicit with
  | false => rfl
  | true =>
    have hparagraph := (h.paragraph himplicit).1
    rw [hitem] at hparagraph
    contradiction

/-- Room for inline content adds nothing to be read. -/
theorem Ready.grows_ensureInline (h : z.Ready) : z.Grows z.ensureInline [] := by
  by_cases hitem : z.top.kind = .item
  · -- in an item a paragraph is opened, which is not read back
    have hopen : z.ensureInline = z.openNode .paragraph true := if_pos hitem
    have hhome := home_of_explicit (h.explicit_of_item hitem)
    have hhome' : (z.openNode .paragraph true).home = z.append (.node .paragraph true []) := rfl
    rw [hopen]
    constructor
    · constructor
      · exact h.hidden
      · rw [hhome']
        exact hhome ▸ h.holdsNodes
      · rw [hhome']
        exact hhome ▸ h.explicit
      · intro _
        exact ⟨rfl, hitem⟩
    · rw [hhome, hhome']
      rfl
    · rw [hhome, hhome']
      simp [append, Level.append, readAll_append, readAll, Marked.read]
    · rw [hhome, hhome']
      simp [append]
  · have hsame : z.ensureInline = z := if_neg hitem
    rw [hsame]
    exact .refl h

/-- Closing an implicit paragraph adds nothing to be read. -/
theorem Ready.grows_closeImplicit (h : z.Ready) : z.Grows z.closeImplicit [] := by
  have hhome : z.home.home = z.home := home_of_explicit h.explicit
  have hhidden : z.home.hidden = z.hidden := by
    unfold home closeImplicit close
    split
    · cases z.outer <;> rfl
    · rfl
  constructor
  · constructor
    · exact hhidden.trans h.hidden
    · rw [hhome]
      exact h.holdsNodes
    · rw [hhome]
      exact h.explicit
    · intro himplicit
      rw [h.explicit] at himplicit
      contradiction
  · rw [hhome]
    rfl
  · rw [hhome, List.append_nil]
  · rw [hhome]
    simp

/-- No text is gathered between elements. -/
theorem Ready.topKind (h : z.Ready) : z.top.kind.gathersText = false := by
  cases himplicit : z.top.implicit with
  | false => exact home_of_explicit himplicit ▸ h.holdsNodes
  | true =>
    rw [(h.paragraph himplicit).1]
    rfl

/-- No image is open between elements. -/
theorem Ready.inImage (h : z.Ready) : z.inImage = false := by
  have hkind := h.topKind
  unfold Zipper.inImage
  cases htop : z.top.kind with
  | image =>
    rw [htop] at hkind
    contradiction
  | _ => rfl

/-- No text comes last in the innermost open node. -/
def EndsText (z : Zipper) : Prop :=
  ∀ r implicit children, z.top.done.getLast? ≠ some (.node (.text r) implicit children)

/-- Behind another node, text starts a new one. -/
theorem endsText_append {o : Marked} (h : ∀ r, o.kind ≠ .text r) : (z.append o).EndsText := by
  intro r implicit children heq
  rw [append, Level.append, List.getLast?_concat, Option.some.injEq] at heq
  rw [heq] at h
  exact h r rfl

end Append

/-! ## Elements -/

section Element

variable {z : Zipper} {tag : Tag}

/-- The zipper in which a tag opens its node. -/
def room (z : Zipper) (tag : Tag) : Zipper :=
  let z := if tag.isInline then z.ensureInline else z.closeImplicit
  if tag = .paragraph then z.loosen else z

/-- A tag opens its node where there is room for it. -/
theorem step_start (h : z.Ready) (tag : Tag) :
    z.step (.start tag) = (z.room tag).openNode tag.kind false := by
  simp only [step, h.inImage]
  rfl

/-- A new node takes elements, unless it gathers text. -/
theorem ready_openNode {y : Zipper} {kind : Kind} (hhidden : y.hidden = 0)
    (hkind : kind.gathersText = false) : (y.openNode kind false).Ready :=
  ⟨hhidden, hkind, rfl, by simp [openNode]⟩

/-- An end closes the implicit paragraph and then the node. -/
theorem step_stop (h : z.hidden = 0) : z.step .stop = z.closeImplicit.close := by
  simp [step, h]

/-- A closed node is the last of what holds it. -/
theorem close_of_outer {l : Level} {outer : List Level} (h : z.outer = l :: outer) :
    z.close = ⟨l.append (.node z.top.kind z.top.implicit z.top.done), outer, z.hidden⟩ := by
  rw [close, h]

/-- When an element ends, its node is added where it was opened. -/
theorem step_stop_of_grows {y z' : Zipper} {kind : Kind} {content : List Outline}
    (hhidden : y.hidden = 0) (h : (y.openNode kind false).Grows z' content) :
    ∃ done, readAll done = content ∧ z'.step .stop =
      (if kind = .item ∧ content.any (·.kind = .paragraph) then y.modifyTop Kind.loosened
        else y).append (.node (kind.settled content) false done) := by
  have hready := h.ready
  have hkind : z'.home.top.kind = kind.settled content := h.kind
  have houter : z'.home.outer = if kind = .item ∧ content.any (·.kind = .paragraph)
      then loosenHead (y.top :: y.outer) else y.top :: y.outer := h.outer
  have hstop : z'.step .stop = z'.home.close := step_stop hready.hidden
  -- The end closes the implicit paragraph, and then the node of the tag.
  have hhidden' : z'.home.hidden = y.hidden :=
    hready.grows_closeImplicit.ready.hidden.trans hhidden.symm
  refine ⟨z'.home.top.done, h.content, ?_⟩
  by_cases hloose : kind = .item ∧ content.any (·.kind = .paragraph)
  · rw [if_pos hloose] at houter ⊢
    rw [hstop, close_of_outer houter, hready.explicit, hkind, hhidden']
    rfl
  · rw [if_neg hloose] at houter ⊢
    rw [hstop, close_of_outer houter, hready.explicit, hkind, hhidden']
    rfl

/-- Making room hides nothing. -/
theorem Ready.hidden_room (h : z.Ready) (tag : Tag) : (z.room tag).hidden = 0 := by
  -- Loosening touches a kind only. All else that makes room grows by nothing.
  have hplain : (if tag.isInline then z.ensureInline else z.closeImplicit).hidden = 0 := by
    split
    · exact h.grows_ensureInline.ready.hidden
    · exact h.grows_closeImplicit.ready.hidden
  have hloosen : ∀ y : Zipper, y.loosen.hidden = y.hidden := by
    intro y
    unfold loosen
    split <;> rfl
  by_cases hparagraph : tag = .paragraph
  · rw [room, if_pos hparagraph, hloosen]
    exact hplain
  · rw [room, if_neg hparagraph]
    exact hplain

/-- Behind an element, text starts a new node. -/
theorem Ready.endsText_element (h : z.Ready) {z' : Zipper} {content : List Outline}
    (hcontent : (z.step (.start tag)).Grows z' content) : (z'.step .stop).EndsText := by
  rw [step_start h] at hcontent
  rcases step_stop_of_grows (h.hidden_room tag) hcontent with ⟨done, -, hstop⟩
  rw [hstop]
  apply endsText_append
  intro r
  rw [Marked.kind, Ne, settled_eq_iff (.text r) rfl]
  cases tag with
  | list start => cases start <;> simp [Tag.kind]
  | _ => simp [Tag.kind]

/-- A block other than a paragraph or an item comes where the innermost open node has none. -/
theorem grows_plain {y z' : Zipper} {content : List Outline} (hgrows : z.Grows y [])
    (hitem : tag ≠ .item) (hparagraph : tag ≠ .paragraph)
    (h : (y.openNode tag.kind false).Grows z' content) :
    z.Grows (z'.step .stop) [.node (tag.kind.settled content) content] := by
  rcases step_stop_of_grows hgrows.ready.hidden h with ⟨done, rfl, hstop⟩
  have hne : tag.kind ≠ .item ∧ tag.kind ≠ .paragraph := by
    cases tag with
    | list start => cases start <;> simp [Tag.kind]
    | _ => simp_all [Tag.kind]
  rw [hstop, if_neg (by simp [hne.1])]
  apply hgrows.trans (hgrows.ready.grows_append _ _)
  · rw [Ne, settled_eq_iff .item rfl]
    exact hne.1
  · rw [Ne, settled_eq_iff .paragraph rfl]
    exact hne.2

/-- What has to be shown of a zipper in which no implicit paragraph is open. -/
theorem grows_of_explicit {z' : Zipper} {outlines : List Outline} (h : z.Ready)
    (hexplicit : z.top.implicit = false) (hexplicit' : z'.top.implicit = false)
    (hhidden : z'.hidden = z.hidden) (hkind : z'.top.kind = z.top.kind.settled outlines)
    (hcontent : readAll z'.top.done = readAll z.top.done ++ outlines)
    (houter : z'.outer = if z.top.kind = .item ∧ outlines.any (·.kind = .paragraph)
      then loosenHead z.outer else z.outer) : z.Grows z' outlines := by
  have hhome := home_of_explicit hexplicit
  have hhome' := home_of_explicit hexplicit'
  have hnodes : (z.top.kind.settled outlines).gathersText = false := by
    have hz := h.topKind
    unfold Kind.settled
    split
    · cases htop : z.top.kind <;> simp_all [Kind.loosened, Kind.gathersText]
    · exact hz
  constructor
  · constructor
    · rw [hhidden]
      exact h.hidden
    · rw [hhome', hkind]
      exact hnodes
    · rw [hhome']
      exact hexplicit'
    · intro himplicit
      rw [hexplicit'] at himplicit
      contradiction
  · rw [hhome, hhome', hkind]
  · rw [hhome, hhome', hcontent]
  · rw [hhome, hhome', houter]

/-- A paragraph in an item makes the list around it loose. -/
theorem grows_paragraph (h : z.Ready) (hexplicit : z.top.implicit = false) (done : List Marked) :
    z.Grows (z.loosen.append (.node .paragraph false done)) [.node .paragraph (readAll done)] := by
  have htop : z.loosen.top = z.top := by
    unfold loosen
    split <;> rfl
  apply grows_of_explicit h hexplicit
  · rw [append, htop]
    exact hexplicit
  · unfold loosen
    split <;> rfl
  · rw [append, htop]
    rfl
  · rw [append, htop, Level.append, readAll_append]
    rfl
  · unfold loosen
    by_cases hitem : z.top.kind = .item <;> simp [append, hitem, Outline.kind]

/-- An item that holds a paragraph makes the list right around it loose. -/
theorem grows_item (h : z.Ready) (hexplicit : z.top.implicit = false) (done : List Marked) :
    z.Grows ((if (readAll done).any (·.kind = .paragraph) then z.modifyTop Kind.loosened
      else z).append (.node .item false done)) [.node .item (readAll done)] := by
  have hsettled : z.top.kind.settled [.node .item (readAll done)] =
      if (readAll done).any (·.kind = .paragraph) then z.top.kind.loosened else z.top.kind := by
    unfold Kind.settled
    rw [List.any_cons, List.any_nil, Bool.or_false]
    rfl
  apply grows_of_explicit h hexplicit
  · split <;> exact hexplicit
  · split <;> rfl
  · rw [hsettled]
    split <;> rfl
  · split <;> simp [append, Level.append, modifyTop, readAll_append, readAll, Marked.read]
  · split <;> simp [append, modifyTop, Outline.kind]

/-- Making room changes nothing, but for a paragraph. -/
theorem Ready.grows_room (h : z.Ready) (hparagraph : tag ≠ .paragraph) :
    z.Grows (z.room tag) [] := by
  unfold room
  rw [if_neg hparagraph]
  split
  · exact h.grows_ensureInline
  · exact h.grows_closeImplicit

/-- An element is added to what holds it, with the content that it has got. -/
theorem Ready.grows_element (h : z.Ready) {z' : Zipper} {content : List Outline}
    (hcontent : (z.step (.start tag)).Grows z' content) :
    z.Grows (z'.step .stop) [.node (tag.kind.settled content) content] := by
  rw [step_start h] at hcontent
  have hclosed := h.grows_closeImplicit
  -- Paragraphs and items loosen a list around them, all other elements only add themselves.
  by_cases hparagraph : tag = .paragraph
  · subst hparagraph
    rcases step_stop_of_grows (h.hidden_room .paragraph) hcontent with ⟨done, rfl, hstop⟩
    have hsettled : Kind.paragraph.settled (readAll done) = .paragraph :=
      (settled_eq_iff .paragraph rfl _ _).2 rfl
    rw [hstop, if_neg (by simp [Tag.kind]), Tag.kind, hsettled]
    exact hclosed.trans (grows_paragraph hclosed.ready h.explicit done)
  · by_cases hitem : tag = .item
    · subst hitem
      rcases step_stop_of_grows hclosed.ready.hidden hcontent with ⟨done, rfl, hstop⟩
      have hsettled : Kind.item.settled (readAll done) = .item :=
        (settled_eq_iff .item rfl _ _).2 rfl
      rw [hstop, Tag.kind, hsettled]
      simp only [true_and]
      exact hclosed.trans (grows_item hclosed.ready h.explicit done)
    · exact grows_plain (h.grows_room hparagraph) hitem hparagraph hcontent

/-- A node that gathers text is added when its tag ends. -/
theorem Ready.grows_gathered (h : z.Ready) (hgathers : tag.kind.gathersText) (s : String) :
    z.Grows (((z.step (.start tag)).extend s).step .stop) [.node (tag.kind.appending s) []] ∧
      (((z.step (.start tag)).extend s).step .stop).EndsText := by
  have hparagraph : tag ≠ .paragraph := by
    rintro rfl
    contradiction
  have hroom := h.grows_room hparagraph
  have hstop : ((z.step (.start tag)).extend s).step .stop =
      (z.room tag).append (.node (tag.kind.appending s) false []) := by
    have hhidden : (((z.room tag).openNode tag.kind false).extend s).hidden = 0 :=
      hroom.ready.hidden
    rw [step_start h, step_stop hhidden]
    rfl
  have hne : tag.kind.appending s ≠ .item ∧ tag.kind.appending s ≠ .paragraph ∧
      ∀ r, tag.kind.appending s ≠ .text r := by
    cases htag : tag.kind <;> simp_all [Kind.appending, Kind.gathersText]
  rw [hstop]
  exact ⟨hroom.trans (hroom.ready.grows_append hne.1 hne.2.1), endsText_append hne.2.2⟩

end Element

/-! ## Text -/

theorem run_cons (z : Zipper) (e : Event) (rest : List Event) :
    z.run (e :: rest) = (z.step e).run rest := rfl

/-- Events run one after the other. -/
theorem run_append (z : Zipper) (l m : List Event) : z.run (l ++ m) = (z.run l).run m :=
  List.foldl_append

section Gather

variable {z : Zipper}

/-- Text may be gathered in two steps. -/
theorem extend_extend (z : Zipper) (s r : String) :
    (z.extend s).extend r = z.extend (s ++ r) := by
  unfold extend modifyTop
  rw [← Kind.appending_appending]

/-- Empty text changes nothing. -/
theorem extend_empty (z : Zipper) : z.extend "" = z := by
  unfold extend modifyTop
  rw [Kind.appending_empty]

/-- Events that are all taken for text make what is gathered longer. -/
theorem run_gathered (f : Event → Option String) (inner : List Event)
    (hinner : ∀ e ∈ inner, (f e).isSome)
    (hstep : ∀ (z' : Zipper) (s : String), z'.top.kind = z.top.kind.appending s →
      ∀ e r, f e = some r → z'.step e = z'.extend r) :
    z.run inner = z.extend (String.join (inner.filterMap f)) := by
  -- With every event the open kind has more text, so the steps are known for every text.
  induction inner generalizing z with
  | nil => exact z.extend_empty.symm
  | cons e rest ih =>
    rcases Option.isSome_iff_exists.1 (hinner e List.mem_cons_self) with ⟨r, hr⟩
    have hfirst := hstep z "" (Kind.appending_empty _).symm e r hr
    rw [run_cons, hfirst, ih fun e he => hinner e (List.mem_cons_of_mem _ he),
      extend_extend, List.filterMap_cons_some hr, String.join_cons]
    intro z' s hkind
    apply hstep z' (r ++ s)
    rw [hkind, ← Kind.appending_appending]
    rfl

/-- What is inside an image makes its description longer. -/
theorem run_alt {inner : List Event} {alt : String} (halt : SpellsAlt inner alt)
    (h : z.inImage) : z.run inner = z.extend alt := by
  have hextend : ∀ {y : Zipper} (s : String), y.inImage → (y.extend s).inImage := by
    intro y s hy
    unfold inImage extend modifyTop at *
    cases hkind : y.top.kind <;> simp_all [Kind.isImage, Kind.appending]
  induction halt generalizing z with
  | nil => exact z.extend_empty.symm
  | @piece e rest s alt halt _ ih =>
    have hfirst : z.step e = z.extend s := by
      cases e with
      | text r =>
        rcases Option.some.inj halt with rfl
        unfold inImage at h
        cases hkind : z.top.kind <;> simp_all [step, addText, Kind.isImage]
      | code r =>
        rcases Option.some.inj halt with rfl
        exact if_pos h
      | softBreak | hardBreak =>
        rcases Option.some.inj halt with rfl
        exact if_pos h
      | _ => contradiction
    rw [run_cons, hfirst, ih (hextend s h), extend_extend]
  | @tag inner rest alt alt' tag _ _ ih ih' =>
    -- The tag only counts up and, at its end, down again.
    have hstart : z.step (.start tag) = { z with hidden := z.hidden + 1 } := if_pos h
    have hstop : (({ z with hidden := z.hidden + 1 } : Zipper).extend alt).step .stop =
        z.extend alt := by
      have himage := hextend alt h
      simp only [step]
      exact if_pos (Bool.and_eq_true_iff.2 ⟨himage, decide_eq_true (Nat.succ_pos _)⟩)
    have hinner := ih (z := { z with hidden := z.hidden + 1 }) h
    rw [List.cons_append, run_cons, hstart, run_append, hinner, run_cons, hstop,
      ih' (hextend alt h), extend_extend]

/-- After a tag its node is open. -/
theorem step_start_topKind (h : z.Ready) (tag : Tag) :
    (z.step (.start tag)).top.kind = tag.kind := by
  rw [step_start h]
  rfl

/-- A tag with all that it gathers. -/
theorem Ready.grows_gathering (h : z.Ready) (tag : Tag) (hgathers : tag.kind.gathersText)
    {inner : List Event} {s : String}
    (hinner : (z.step (.start tag)).run inner = (z.step (.start tag)).extend s) :
    z.Grows (z.run (.start tag :: inner ++ [.stop])) [.node (tag.kind.appending s) []] ∧
      (z.run (.start tag :: inner ++ [.stop])).EndsText := by
  rw [List.cons_append, run_cons, run_append, hinner]
  exact h.grows_gathered hgathers s

/-- A code block gathers its text. -/
theorem Ready.grows_codeBlock (h : z.Ready) (info : Option String) {inner : List Event}
    (hinner : ∀ e ∈ inner, e.text?.isSome) :
    z.Grows (z.run (.start (.codeBlock info) :: inner ++ [.stop]))
      [.node (.codeBlock (info.getD "") (String.join (inner.filterMap Event.text?))) []] ∧
      (z.run (.start (.codeBlock info) :: inner ++ [.stop])).EndsText := by
  have hkind := step_start_topKind h (.codeBlock info)
  have hrun := run_gathered (z := z.step (.start (.codeBlock info))) Event.text? inner hinner
    fun z' s hz' e r hr => by
      rw [hkind] at hz'
      cases e with
      | text t =>
        rcases Option.some.inj hr with rfl
        simp [step, addText, hz', Tag.kind, Kind.appending]
      | _ => contradiction
  have hgrows := h.grows_gathering (.codeBlock info) rfl hrun
  simpa [Tag.kind, Kind.appending] using hgrows

/-- A block of markup gathers its text. -/
theorem Ready.grows_htmlBlock (h : z.Ready) {inner : List Event}
    (hinner : ∀ e ∈ inner, e.markup?.isSome) :
    z.Grows (z.run (.start .htmlBlock :: inner ++ [.stop]))
      [.node (.htmlBlock (String.join (inner.filterMap Event.markup?))) []] ∧
      (z.run (.start .htmlBlock :: inner ++ [.stop])).EndsText := by
  have hkind := step_start_topKind h .htmlBlock
  have hrun := run_gathered (z := z.step (.start .htmlBlock)) Event.markup? inner hinner
    fun z' s hz' e r hr => by
      rw [hkind] at hz'
      cases e with
      | text t | html t =>
        rcases Option.some.inj hr with rfl
        simp [step, addText, hz', Tag.kind, Kind.appending, Kind.isHtmlBlock]
      | _ => contradiction
  have hgrows := h.grows_gathering .htmlBlock rfl hrun
  simpa [Tag.kind, Kind.appending] using hgrows

/-- An image gathers its description. -/
theorem Ready.grows_image (h : z.Ready) (destination title : String) {inner : List Event}
    {alt : String} (halt : SpellsAlt inner alt) :
    z.Grows (z.run (.start (.image destination title) :: inner ++ [.stop]))
      [.node (.image destination title alt) []] ∧
      (z.run (.start (.image destination title) :: inner ++ [.stop])).EndsText := by
  have hkind := step_start_topKind h (.image destination title)
  have himage : (z.step (.start (.image destination title))).inImage := by
    rw [Zipper.inImage, hkind]
    rfl
  have hgrows := h.grows_gathering (.image destination title) rfl (run_alt halt himage)
  simpa [Tag.kind, Kind.appending] using hgrows

/-- A leaf is added as it is. -/
theorem Ready.grows_leaf (h : z.Ready) {e : Event} {kind : Kind} (hleaf : e.leaf? = some kind) :
    z.Grows (z.step e) [.node kind []] ∧ (z.step e).EndsText := by
  -- Leaves are inline but for the rule, which closes the implicit paragraph first.
  have hinline : ∀ kind : Kind, kind ≠ .item → kind ≠ .paragraph → (∀ r, kind ≠ .text r) →
      z.Grows (z.addInline kind) [.node kind []] ∧ (z.addInline kind).EndsText := by
    intro kind hitem hparagraph htext
    have hroom := h.grows_ensureInline
    exact ⟨hroom.trans (hroom.ready.grows_append hitem hparagraph), endsText_append htext⟩
  have himage := h.inImage
  have hkind := h.topKind
  cases e with
  | start | stop | text => contradiction
  | rule =>
    rcases Option.some.inj hleaf with rfl
    have hclosed := h.grows_closeImplicit
    exact ⟨hclosed.trans (hclosed.ready.grows_append (by simp) (by simp)),
      endsText_append (by simp [Marked.kind])⟩
  | html s =>
    rcases Option.some.inj hleaf with rfl
    have hblock : z.top.kind.isHtmlBlock = false := by
      cases htop : z.top.kind <;> simp_all [Kind.isHtmlBlock, Kind.gathersText]
    simp only [step, hblock]
    exact hinline _ (by simp) (by simp) (by simp)
  | _ =>
    rcases Option.some.inj hleaf with rfl
    simp only [step, himage]
    exact hinline _ (by simp) (by simp) (by simp)

/-- Where text starts a new node, it is added. -/
theorem addTextNode_of_endsText (h : z.EndsText) (s : String) :
    z.addTextNode s = z.append (.node (.text s) false []) := by
  unfold addTextNode
  split
  · next r implicit children hlast => exact absurd hlast (h r implicit children)
  · rfl

/-- Text behind text joins it. -/
theorem addTextNode_append (z : Zipper) (r s : String) :
    (z.append (.node (.text r) false [])).addTextNode s =
      z.append (.node (.text (r ++ s)) false []) := by
  simp [addTextNode, append, Level.append]

/-- A new paragraph starts with a new text. -/
theorem EndsText.ensureInline (h : z.EndsText) : z.ensureInline.EndsText := by
  unfold Zipper.ensureInline
  split
  · intro r implicit children hlast
    simp [openNode] at hlast
  · exact h

/-- Texts in a row become one node. -/
theorem Ready.grows_text (h : z.Ready) (hend : z.EndsText) (s : String) (more : List String) :
    z.Grows (z.run ((s :: more).map .text)) [.node (.text (String.join (s :: more))) []] := by
  have hroom := h.grows_ensureInline
  have hplain : ∀ {y : Zipper} (r : String), y.top.kind.gathersText = false →
      y.step (.text r) = y.ensureInline.addTextNode r := by
    intro y r hy
    cases hkind : y.top.kind <;> simp_all [step, addText, Kind.gathersText]
  have hitem : z.ensureInline.top.kind ≠ .item := by
    unfold ensureInline
    split
    · simp [openNode]
    · assumption
  -- The first text makes a node, and each of the others makes it longer.
  have hmore : ∀ r, (z.ensureInline.append (.node (.text r) false [])).run (more.map .text) =
      z.ensureInline.append (.node (.text (r ++ String.join more)) false []) := by
    induction more with
    | nil => simp [run]
    | cons t more ih =>
      intro r
      have hsame : (z.ensureInline.append (.node (.text r) false [])).ensureInline =
          z.ensureInline.append (.node (.text r) false []) := if_neg hitem
      have hkind :
          (z.ensureInline.append (.node (.text r) false [])).top.kind.gathersText = false :=
        hroom.ready.topKind
      rw [List.map_cons, run_cons, hplain t hkind, hsame, addTextNode_append, ih, String.join_cons,
        String.append_assoc]
  rw [List.map_cons, run_cons, hplain s h.topKind, addTextNode_of_endsText hend.ensureInline,
    hmore s, String.join_cons]
  exact hroom.trans (hroom.ready.grows_append (by simp) (by simp))

end Gather

/-! ## Whole lists of events -/

/-- Well nested events add the outlines that they spell. -/
theorem grows_run {events : List Event} {outlines : List Outline} (h : Spells events outlines)
    {z : Zipper} (hready : z.Ready) (hend : ∀ s, events.head? = some (.text s) → z.EndsText) :
    z.Grows (z.run events) outlines := by
  induction h generalizing z with
  | nil => exact .refl hready
  | @text rest outlines s more hhead _ ih =>
    have hfirst := hready.grows_text (hend s rfl) s more
    rw [run_append]
    exact hfirst.trans (ih hfirst.ready fun r hr => absurd hr (hhead r))
  | leaf hleaf _ ih =>
    rcases hready.grows_leaf hleaf with ⟨hfirst, htext⟩
    exact hfirst.trans (ih hfirst.ready fun _ _ => htext)
  | @tag inner rest content outlines tag hnodes _ _ ih ih' =>
    -- Inside of the tag nothing comes before, so a text there cannot be joined to one.
    have hopen : (z.step (.start tag)).Ready := by
      rw [step_start hready]
      exact ready_openNode (hready.hidden_room tag) hnodes
    have hinner := ih hopen fun _ _ => by
      rw [step_start hready]
      intro r implicit children hlast
      contradiction
    have hcontent : (z.step (.start tag)).Grows ((z.step (.start tag)).run inner) content := hinner
    have hfirst := hready.grows_element hcontent
    have hrest := ih' hfirst.ready fun _ _ => hready.endsText_element hcontent
    rw [List.cons_append, run_cons, run_append, run_cons]
    exact hfirst.trans hrest
  | @codeBlock inner rest outlines info hinner _ ih =>
    rcases hready.grows_codeBlock info hinner with ⟨hfirst, htext⟩
    rw [List.append_cons, run_append]
    exact hfirst.trans (ih hfirst.ready fun _ _ => htext)
  | @htmlBlock inner rest outlines hinner _ ih =>
    rcases hready.grows_htmlBlock hinner with ⟨hfirst, htext⟩
    rw [List.append_cons, run_append]
    exact hfirst.trans (ih hfirst.ready fun _ _ => htext)
  | @image inner rest alt outlines destination title halt _ ih =>
    rcases hready.grows_image destination title halt with ⟨hfirst, htext⟩
    rw [List.append_cons, run_append]
    exact hfirst.trans (ih hfirst.ready fun _ _ => htext)

end Zipper

/-- The tree of well nested events is read back as the outlines that the events spell. All that is
left out are paragraphs inside items that no event has opened. -/
theorem Tree.ofEvents_reads_back {events : List Event} (h : wellNested [] events) :
    ∃ outlines, Spells events outlines ∧
      (Tree.ofEvents events).readBack (Draft.empty.implicits events) Tree.root =
        [.node .document outlines] ∧
      ∀ id ∈ Draft.empty.implicits events, (Tree.ofEvents events).IsParagraphInItem id := by
  rcases exists_spells h with ⟨outlines, hspells⟩
  have hready : Zipper.empty.Ready := ⟨rfl, rfl, rfl, by simp [Zipper.empty]⟩
  have hgrows := Zipper.grows_run hspells hready fun _ _ => by
    intro r implicit children hlast
    contradiction
  have htree : Tree.ofEvents events = (Zipper.empty.run events).tree :=
    congrArg Draft.tree (Zipper.empty.draft_run events)
  have hmarks : ∀ i, i ∈ Draft.empty.implicits events ↔
      (Zipper.empty.run events).marks[i]? = some true := by
    intro i
    have hnone : Zipper.empty.marks[i]? ≠ some true := by
      cases i <;> simp [Zipper.empty, Zipper.marks, Zipper.levels, Level.marks, Marked.marksAll]
    rw [Zipper.marks_run_iff, or_iff_right hnone]
    rfl
  have hkind : (Zipper.empty.run events).home.top.kind = .document := by
    rw [hgrows.kind]
    change Kind.document.settled outlines = .document
    unfold Kind.settled
    split <;> rfl
  -- No implicit paragraph is open at the end, as the document is no item.
  have hexplicit : (Zipper.empty.run events).top.implicit = false := by
    cases himplicit : (Zipper.empty.run events).top.implicit with
    | false => rfl
    | true =>
      have hitem := (hgrows.ready.paragraph himplicit).2
      rw [hkind] at hitem
      contradiction
  have hhome := Zipper.home_of_explicit hexplicit
  have houter : (Zipper.empty.run events).outer = [] := by
    rw [← hhome, hgrows.outer]
    rfl
  have hcontent : Marked.readAll (Zipper.empty.run events).top.done = outlines := by
    rw [← hhome, hgrows.content]
    rfl
  refine ⟨outlines, hspells, ?_, ?_⟩
  · rw [hhome] at hkind
    rw [htree, Zipper.readBack_tree houter hmarks, hexplicit, hkind, Marked.read, hcontent]
    rfl
  · intro i hi
    rw [htree]
    exact Zipper.marksParagraphs_run Zipper.empty events (fun i hi => by
      cases i <;>
        simp [Zipper.empty, Zipper.marks, Zipper.levels, Level.marks, Marked.marksAll] at hi)
      i ((hmarks i).1 hi)

/-- A list whose first item has inline content, a list and more inline content. -/
def shoppingList : List Event :=
  [.start (.list none), .start .item, .text "Fru", .text "it:", .start (.list (some 3)),
    .start .item, .start .paragraph, .start (.image "p.png" ""), .text "a ", .start .strong,
    .code "pear", .stop, .softBreak, .stop, .stop, .stop, .stop, .text "Bread", .stop, .stop,
    .start (.codeBlock (some "sh")), .text "buy\n", .text "all\n", .stop]

/-- The shopping list is read back as it was spelled. -/
theorem shoppingList_reads_back : wellNested [] shoppingList ∧ ∃ outlines,
    Spells shoppingList outlines ∧
      (Tree.ofEvents shoppingList).readBack (Draft.empty.implicits shoppingList) Tree.root =
        [.node .document outlines] ∧
      ∀ id ∈ Draft.empty.implicits shoppingList,
        (Tree.ofEvents shoppingList).IsParagraphInItem id := by
  have hnested : wellNested [] shoppingList := by decide
  exact ⟨hnested, Tree.ofEvents_reads_back hnested⟩

/-- A list whose items are paragraphs. -/
def looseList : List Event :=
  [.start (.list (some 1)), .start .item, .start .paragraph, .text "one", .stop, .stop,
    .start .item, .start .paragraph, .text "two", .stop, .stop, .stop]

/-- A list that becomes loose does not keep the kind that its tag gives it. -/
theorem looseList_kind_ne : wellNested [] looseList ∧ .start (.list (some 1)) ∈ looseList ∧
    ∀ id, (Tree.ofEvents looseList).kind id ≠ (Tag.list (some 1)).kind := by
  refine ⟨by decide, by decide, ?_⟩
  intro id
  have hall : ∀ id < (Tree.ofEvents looseList).size,
      (Tree.ofEvents looseList).kind id ≠ (Tag.list (some 1)).kind := by decide +kernel
  rcases Nat.lt_or_ge id (Tree.ofEvents looseList).size with hlt | hle
  · exact hall id hlt
  · rw [Tree.kind, Tree.node_of_size_le hle]
    decide

end StyledText.Markdown
