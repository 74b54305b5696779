import StyledText.Markdown.Event
import StyledText.Markdown.Tree.Outline

/-!
# The grammar of events

`Spells` says which outlines a list of events stands for. A list of events stands for outlines if
its starts and ends are balanced and nothing comes where it cannot be held: `wellNested` checks
that, and `exists_spells` finds the outlines.
-/

namespace StyledText.Markdown

/-! ## Content -/

namespace Event

def text? : Event → Option String
  | text s => some s
  | _ => none

/-- What an event adds to a block of raw markup. -/
def markup? : Event → Option String
  | text s | html s => some s
  | _ => none

/-- What an event adds to the description of an image. -/
def alt? : Event → Option String
  | text s | code s => some s
  | softBreak | hardBreak => some " "
  | _ => none

/-- The node that an event without content of its own becomes. -/
def leaf? : Event → Option Kind
  | code s => some (.code s)
  | html s | inlineHtml s => some (.inlineHtml s)
  | softBreak => some .softBreak
  | hardBreak => some .hardBreak
  | rule => some .thematicBreak
  | footnoteReference _ => some (.unsupported "footnote_reference")
  | taskListMarker _ => some (.unsupported "task_list_marker")
  | math _ => some (.unsupported "math")
  | _ => none

def isStart : Event → Bool
  | start _ => true
  | _ => false

end Event

namespace Kind

/-- Whether a node gathers the text inside it, instead of holding nodes. -/
def gathersText : Kind → Bool
  | codeBlock .. | htmlBlock _ | image .. => true
  | _ => false

/-- Text may be added in two steps. -/
theorem appending_appending (kind : Kind) (r s : String) :
    (kind.appending r).appending s = kind.appending (r ++ s) := by
  cases kind <;> simp [appending, String.append_assoc]

/-- Empty text changes nothing. -/
theorem appending_empty (kind : Kind) : kind.appending "" = kind := by
  cases kind <;> simp [appending]

/-- The kind in the end, when the content is known. A list is loose if one of its items holds a
paragraph. -/
def settled (kind : Kind) (content : List Outline) : Kind :=
  if content.any fun o => o.kind = .item && o.children.any (·.kind = .paragraph) then kind.loosened
  else kind

end Kind

/-! ## Grammar -/

/-- The description that the events inside an image spell. The tags there leave no trace. -/
inductive SpellsAlt : List Event → String → Prop
  | nil : SpellsAlt [] ""
  | piece {e rest s alt} : e.alt? = some s → SpellsAlt rest alt → SpellsAlt (e :: rest) (s ++ alt)
  | tag {inner rest alt alt'} (tag : Tag) : SpellsAlt inner alt → SpellsAlt rest alt' →
    SpellsAlt (.start tag :: inner ++ .stop :: rest) (alt ++ alt')

/-- The outlines that events spell. -/
inductive Spells : List Event → List Outline → Prop
  | nil : Spells [] []
  /-- As many texts as there are in a row become one. -/
  | text {rest outlines} (s : String) (more : List String) : (∀ r, rest.head? ≠ some (.text r)) →
    Spells rest outlines → Spells ((s :: more).map .text ++ rest)
      (.node (.text (String.join (s :: more))) [] :: outlines)
  | leaf {e rest kind outlines} : e.leaf? = some kind → Spells rest outlines →
    Spells (e :: rest) (.node kind [] :: outlines)
  | tag {inner rest content outlines} (tag : Tag) : tag.kind.gathersText = false →
    Spells inner content → Spells rest outlines →
    Spells (.start tag :: inner ++ .stop :: rest)
      (.node (tag.kind.settled content) content :: outlines)
  | codeBlock {inner rest outlines} (info : Option String) : (∀ e ∈ inner, e.text?.isSome) →
    Spells rest outlines → Spells (.start (.codeBlock info) :: inner ++ .stop :: rest)
      (.node (.codeBlock (info.getD "") (String.join (inner.filterMap Event.text?))) [] :: outlines)
  | htmlBlock {inner rest outlines} : (∀ e ∈ inner, e.markup?.isSome) →
    Spells rest outlines → Spells (.start .htmlBlock :: inner ++ .stop :: rest)
      (.node (.htmlBlock (String.join (inner.filterMap Event.markup?))) [] :: outlines)
  | image {inner rest alt outlines} (destination title : String) : SpellsAlt inner alt →
    Spells rest outlines → Spells (.start (.image destination title) :: inner ++ .stop :: rest)
      (.node (.image destination title alt) [] :: outlines)

/-! ## Balance -/

/-- Whether an event may come while tags are open, innermost first. -/
def Event.fits (opened : List Tag) (e : Event) : Bool :=
  if opened.any (·.kind.isImage) then e.alt?.isSome || e.isStart
  else match opened with
    | .codeBlock _ :: _ => e.text?.isSome
    | .htmlBlock :: _ => e.markup?.isSome
    | _ => true

theorem Event.fits_codeBlock {opened : List Tag} (hopened : opened.any (·.kind.isImage) = false)
    (info : Option String) (e : Event) :
    Event.fits (.codeBlock info :: opened) e = e.text?.isSome := by
  have himage : (Tag.codeBlock info :: opened).any (·.kind.isImage) = false := hopened
  rw [fits, himage]
  rfl

theorem Event.fits_htmlBlock {opened : List Tag} (hopened : opened.any (·.kind.isImage) = false)
    (e : Event) : Event.fits (.htmlBlock :: opened) e = e.markup?.isSome := by
  have himage : (Tag.htmlBlock :: opened).any (·.kind.isImage) = false := hopened
  rw [fits, himage]
  rfl

/-- Whether the starts and ends are balanced, with some tags open before, and every event may come
where it does. -/
def wellNested : List Tag → List Event → Bool
  | opened, [] => opened.isEmpty
  | opened, .start tag :: rest => Event.fits opened (.start tag) && wellNested (tag :: opened) rest
  | [], .stop :: _ => false
  | _ :: outer, .stop :: rest => wellNested outer rest
  | opened, e :: rest => e.fits opened && wellNested opened rest

/-- Text in front of what is spelled joins it or stands by itself. -/
theorem Spells.cons_text {events : List Event} {outlines : List Outline} (s : String)
    (h : Spells events outlines) : ∃ outlines', Spells (.text s :: events) outlines' := by
  -- The text stands alone unless another one comes right after it.
  have halone : (∀ r, events.head? ≠ some (.text r)) →
      ∃ outlines', Spells (.text s :: events) outlines' := by
    intro hhead
    exact ⟨_, .text s [] hhead h⟩
  cases h with
  | text r more hhead hrest => exact ⟨_, .text s (r :: more) hhead hrest⟩
  | leaf hleaf _ =>
    apply halone
    intro r heq
    rw [List.head?_cons, Option.some.injEq] at heq
    rw [heq] at hleaf
    contradiction
  | _ => exact halone (by simp)

/-- Any event but a start and an end has to fit, and leaves the open tags as they are. -/
theorem wellNested_cons {opened : List Tag} {e : Event} {rest : List Event}
    (hstart : e.isStart = false) (hstop : e ≠ .stop) (h : wellNested opened (e :: rest)) :
    e.fits opened ∧ wellNested opened rest := by
  cases e <;> simp_all [wellNested, Event.isStart]

/-- A tag that gathers text holds what it gathers, up to its end. -/
theorem exists_split_of_gathered {p : Event → Bool} {tag : Tag} {opened : List Tag}
    (hfits : ∀ e, Event.fits (tag :: opened) e = p e) (hstart : ∀ tag', p (.start tag') = false)
    {events : List Event} (h : wellNested (tag :: opened) events) :
    ∃ inner rest, events = inner ++ .stop :: rest ∧ (∀ e ∈ inner, p e) ∧
      wellNested opened rest := by
  -- Nothing opens in a node that gathers text, so the first end is its own.
  induction events with
  | nil => simp [wellNested] at h
  | cons e rest ih =>
    by_cases hstop : e = .stop
    · subst hstop
      exact ⟨[], rest, rfl, by simp, h⟩
    · have hne : e.isStart = false := by
        cases e with
        | start tag' => simp [wellNested, hfits, hstart] at h
        | _ => rfl
      rcases wellNested_cons hne hstop h with ⟨hfit, hrest⟩
      rcases ih hrest with ⟨inner, rest, rfl, hinner, hnested⟩
      rw [hfits] at hfit
      exact ⟨e :: inner, rest, rfl, by simpa [hfit] using hinner, hnested⟩

/-- What is inside an image spells a description, up to the end of the tag. -/
theorem exists_spellsAlt (bound : Nat) {tag : Tag} {opened : List Tag}
    (himage : (tag :: opened).any (·.kind.isImage)) {events : List Event}
    (hbound : events.length ≤ bound) (h : wellNested (tag :: opened) events) :
    ∃ inner rest alt, events = inner ++ .stop :: rest ∧ SpellsAlt inner alt ∧
      wellNested opened rest := by
  induction bound generalizing tag opened events with
  | zero =>
    rw [List.length_eq_zero_iff.1 (Nat.le_zero.1 hbound)] at h
    simp [wellNested] at h
  | succ bound ih =>
    cases events with
    | nil => simp [wellNested] at h
    | cons e rest =>
      rw [List.length_cons] at hbound
      by_cases hstop : e = .stop
      · subst hstop
        exact ⟨[], rest, "", rfl, .nil, h⟩
      · cases hstart : e.isStart with
        | true =>
          -- The tag goes up to its own end, and what follows goes on below the outer one.
          obtain ⟨tag', rfl⟩ : ∃ tag', e = .start tag' := by
            cases e <;> simp_all [Event.isStart]
          simp only [wellNested, Bool.and_eq_true] at h
          have himage' : (tag' :: tag :: opened).any (·.kind.isImage) := by
            rw [List.any_cons, himage, Bool.or_true]
          rcases (ih himage' (by omega) h.2) with ⟨inner, rest, alt, rfl, halt, hrest⟩
          rw [List.length_append, List.length_cons] at hbound
          rcases (ih himage (by omega) hrest) with ⟨inner', rest, alt', rfl, halt', hrest⟩
          exact ⟨.start tag' :: inner ++ .stop :: inner', rest, alt ++ alt', by simp,
            .tag tag' halt halt', hrest⟩
        | false =>
          rcases wellNested_cons hstart hstop h with ⟨hfit, hrest⟩
          unfold Event.fits at hfit
          rw [if_pos himage, hstart, Bool.or_false, Option.isSome_iff_exists] at hfit
          rcases hfit with ⟨s, hs⟩
          rcases (ih himage (by omega) hrest) with ⟨inner, rest, alt, rfl, halt, hnested⟩
          exact ⟨e :: inner, rest, s ++ alt, rfl, .piece hs halt, hnested⟩

/-- No tag is open inside which events are taken for text. -/
def HoldsNodes (opened : List Tag) : Prop :=
  opened.any (·.kind.isImage) = false ∧ ∀ tag ∈ opened.head?, tag.kind.gathersText = false

/-- Events spell outlines up to the end of the innermost open tag, or all of them if no tag is
open. -/
def SpellsUpTo (opened : List Tag) (events : List Event) : Prop :=
  ∃ inner outlines, Spells inner outlines ∧
    (opened = [] ∧ events = inner ∨ ∃ tag outer rest, opened = tag :: outer ∧
      events = inner ++ .stop :: rest ∧ wellNested outer rest)

namespace SpellsUpTo

variable {opened : List Tag} {rest : List Event}

/-- A piece in front is spelled with what follows. -/
theorem extend (h : SpellsUpTo opened rest) (piece : List Event) (hpiece : ∀ {inner outlines},
    Spells inner outlines → ∃ outlines', Spells (piece ++ inner) outlines') :
    SpellsUpTo opened (piece ++ rest) := by
  rcases h with ⟨inner, outlines, hspells, hend⟩
  rcases hpiece hspells with ⟨outlines', hspells'⟩
  refine ⟨piece ++ inner, outlines', hspells', ?_⟩
  rcases hend with ⟨hopened, rfl⟩ | ⟨tag, outer, rest, hopened, rfl, hrest⟩
  · exact .inl ⟨hopened, rfl⟩
  · exact .inr ⟨tag, outer, rest, hopened, (List.append_assoc _ _ _).symm, hrest⟩

/-- An element in front is spelled with what follows. -/
theorem extend_element (h : SpellsUpTo opened rest) {tag : Tag} {inner : List Event}
    (hpiece : ∀ {more outlines}, Spells more outlines →
      ∃ outlines', Spells (.start tag :: inner ++ .stop :: more) outlines') :
    SpellsUpTo opened (.start tag :: (inner ++ .stop :: rest)) := by
  have happend : ∀ more : List Event, .start tag :: inner ++ .stop :: more =
      (.start tag :: inner ++ [.stop]) ++ more := by
    intro more
    simp
  rw [← List.cons_append, happend]
  apply h.extend _
  intro more outlines hmore
  rw [← happend]
  exact hpiece hmore

end SpellsUpTo

/-- A tag that gathers text, and what comes after its end. -/
theorem exists_element_of_gathersText {tag : Tag} {opened : List Tag}
    (hopened : opened.any (·.kind.isImage) = false) (hgathers : tag.kind.gathersText)
    {events : List Event} (h : wellNested (tag :: opened) events) :
    ∃ inner rest, events = inner ++ .stop :: rest ∧ wellNested opened rest ∧
      ∀ {more outlines}, Spells more outlines →
        ∃ outlines', Spells (.start tag :: inner ++ .stop :: more) outlines' := by
  cases tag with
  | codeBlock info =>
    rcases exists_split_of_gathered (Event.fits_codeBlock hopened info) (fun _ => rfl) h with
      ⟨inner, rest, rfl, hinner, hrest⟩
    exact ⟨inner, rest, rfl, hrest, fun hmore => ⟨_, .codeBlock info hinner hmore⟩⟩
  | htmlBlock =>
    rcases exists_split_of_gathered (Event.fits_htmlBlock hopened) (fun _ => rfl) h with
      ⟨inner, rest, rfl, hinner, hrest⟩
    exact ⟨inner, rest, rfl, hrest, fun hmore => ⟨_, .htmlBlock hinner hmore⟩⟩
  | image destination title =>
    obtain ⟨inner, rest, alt, rfl, halt, hrest⟩ :=
      exists_spellsAlt events.length rfl (Nat.le_refl _) h
    exact ⟨inner, rest, rfl, hrest, fun hmore => ⟨_, .image destination title halt hmore⟩⟩
  | list start => cases start <;> contradiction
  | _ => contradiction

/-- Well nested events spell something up to the end of each open node. -/
theorem spellsUpTo_of_wellNested (bound : Nat) {opened : List Tag} (hnodes : HoldsNodes opened)
    {events : List Event} (hbound : events.length ≤ bound) (h : wellNested opened events) :
    SpellsUpTo opened events := by
  -- What follows an end is shorter, but no part of the events: the induction is on their number.
  induction bound generalizing opened events with
  | zero =>
    rcases List.length_eq_zero_iff.1 (Nat.le_zero.1 hbound) with rfl
    simp only [wellNested, List.isEmpty_iff] at h
    exact ⟨[], [], .nil, .inl ⟨h, rfl⟩⟩
  | succ bound ih =>
    cases events with
    | nil =>
      simp only [wellNested, List.isEmpty_iff] at h
      exact ⟨[], [], .nil, .inl ⟨h, rfl⟩⟩
    | cons e rest =>
      rw [List.length_cons] at hbound
      cases e with
      | start tag =>
        simp only [wellNested, Bool.and_eq_true] at h
        cases hgathers : tag.kind.gathersText with
        | true =>
          obtain ⟨inner, rest, rfl, hrest, hpiece⟩ :=
            exists_element_of_gathersText hnodes.1 hgathers h.2
          rw [List.length_append, List.length_cons] at hbound
          exact (ih hnodes (by omega) hrest).extend_element hpiece
        | false =>
          have himage : tag.kind.isImage = false := by
            cases hkind : tag.kind <;> simp_all [Kind.isImage, Kind.gathersText]
          have hnodes' : HoldsNodes (tag :: opened) :=
            ⟨by rw [List.any_cons, himage, hnodes.1]; rfl, by simpa using hgathers⟩
          -- What the tag holds goes up to its end, and then the outer events go on.
          rcases (ih hnodes' (by omega) h.2) with ⟨inner, content, hinner, hend⟩
          rcases hend with ⟨hopened, -⟩ | ⟨_, _, rest, hopened, rfl, hrest⟩
          · contradiction
          · rcases List.cons.inj hopened with ⟨rfl, rfl⟩
            rw [List.length_append, List.length_cons] at hbound
            exact (ih hnodes (by omega) hrest).extend_element
              fun hmore => ⟨_, .tag tag hgathers hinner hmore⟩
      | stop =>
        cases opened with
        | nil => simp [wellNested] at h
        | cons tag outer => exact ⟨[], [], .nil, .inr ⟨tag, outer, rest, rfl, rfl, h⟩⟩
      | text s =>
        rcases (wellNested_cons rfl (by simp) h) with ⟨-, hrest⟩
        exact (ih hnodes (by omega) hrest).extend [_] fun hmore => hmore.cons_text s
      | _ =>
        rcases (wellNested_cons rfl (by simp) h) with ⟨-, hrest⟩
        exact (ih hnodes (by omega) hrest).extend [_] fun hmore => ⟨_, .leaf rfl hmore⟩

/-- Every well nested list of events spells outlines. -/
theorem exists_spells {events : List Event} (h : wellNested [] events) :
    ∃ outlines, Spells events outlines := by
  obtain ⟨inner, outlines, hspells, hend⟩ :=
    spellsUpTo_of_wellNested events.length ⟨rfl, by simp⟩ (Nat.le_refl _) h
  rcases hend with ⟨-, rfl⟩ | ⟨tag, outer, rest, hopened, -⟩
  · exact ⟨outlines, hspells⟩
  · contradiction

end StyledText.Markdown
