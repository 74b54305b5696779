import Mathlib.Data.List.Forall2
import StyledText.Proofs.Conversion.Texts

/-!
# The style of lists

Indentation, markers and the numbers that ordered lists start with are chosen by options of their
own. Two conversions that differ in these options alone go side by side (`Alongside`): they fail
together, or they make runs that match one by one but for what items start with
(`Conversion.Matches`). Which run is which is told by the stops they come from
(`Conversion.sources`).

* `map_snd_sources`: with the stops left out, sources are the runs of the conversion.
* `alongside_row`: two conversions at one stop.
* `alongside_sources`: the same for stops in a row.
* `toText_varies_in_leads`: the same for whole conversions.
-/

namespace StyledText.Markdown

/-! ## Two outcomes side by side -/

/-- Both fail with one error, or both succeed and the results are related member by member. -/
inductive Alongside {ε α : Type} (R : α → α → Prop) :
    Except ε (List α) → Except ε (List α) → Prop
  | failed (e : ε) : Alongside R (.error e) (.error e)
  | done {row row' : List α} : List.Forall₂ R row row' → Alongside R (.ok row) (.ok row')

namespace Alongside

variable {ε α β : Type} {R : α → α → Prop}

theorem refl (first : Except ε (List α)) : Alongside (· = ·) first first := by
  cases first with
  | error e => exact .failed e
  | ok row => exact .done (List.forall₂_same.2 fun _ _ => rfl)

theorem map {S : β → β → Prop} {f : α → β} (hf : ∀ a b, R a b → S (f a) (f b))
    {first first' : Except ε (List α)} (h : Alongside R first first') :
    Alongside S (List.map f <$> first) (List.map f <$> first') := by
  cases h with
  | failed e => exact .failed e
  | done hrow =>
    apply done
    rw [List.forall₂_map_left_iff, List.forall₂_map_right_iff]
    exact hrow.imp hf

/-- One outcome after the other. The first failure ends both sides. -/
theorem append {first first' more more' : Except ε (List α)} (hfirst : Alongside R first first')
    (hmore : Alongside R more more') :
    Alongside R (do let a ← first; let b ← more; return a ++ b)
      (do let a ← first'; let b ← more'; return a ++ b) := by
  cases hfirst with
  | failed e => exact .failed e
  | done hrow =>
    cases hmore with
    | failed e => exact .failed e
    | done hmore => exact .done (List.rel_append hrow hmore)

end Alongside

/-! ## Runs and their stops -/

namespace Conversion

/-- The runs of a stop, with the stop. -/
def rowAt (c : Conversion) (t : Tree) (inherited : Attributes) (s : Stop) :
    Except ConversionError (List (Stop × Run)) :=
  List.map (Prod.mk s) <$> c.runsAt t inherited s

/-- The runs of stops in a row, each with the stop that it comes from. -/
def sources (c : Conversion) (t : Tree) (inherited : Attributes) (stops : List Stop) :
    Except ConversionError (List (Stop × Run)) :=
  List.flatten <$> stops.mapM (c.rowAt t inherited)

variable {c c' : Conversion} {t : Tree} {inherited : Attributes}

theorem sources_cons (s : Stop) (rest : List Stop) : c.sources t inherited (s :: rest) = do
    let first ← c.rowAt t inherited s
    let more ← c.sources t inherited rest
    return first ++ more := by
  unfold sources
  rw [List.mapM_cons]
  cases c.rowAt t inherited s with
  | error e => rfl
  | ok first => cases rest.mapM (c.rowAt t inherited) <;> rfl

/-- The runs of the sources are those that are gathered. -/
theorem map_snd_sources (stops : List Stop) :
    List.map Prod.snd <$> c.sources t inherited stops = c.gather t inherited stops := by
  induction stops with
  | nil => rfl
  | cons s rest ih =>
    rw [sources_cons, ← List.singleton_append, gather_append, gather_singleton, ← ih]
    unfold rowAt
    -- the first failure ends both
    cases c.runsAt t inherited s with
    | error e => rfl
    | ok first =>
      cases c.sources t inherited rest with
      | error e => rfl
      | ok more =>
        apply congrArg Except.ok
        simp [Function.comp_def]

/-! ## What the style of lists is for -/

/-- Two runs come from one stop and are the same, but for the text if they are leads. A lead is what
an item of a list starts with, by the options of its conversion. -/
structure Matches (c c' : Conversion) (t : Tree) (a b : Stop × Run) : Prop where
  stop : a.1 = b.1
  attributes : a.2.attributes = b.2.attributes
  text : a.1.part ≠ .lead → a.2.text = b.2.text
  lead : a.1.part = .lead → a.1.visit.role = .item ∧
    a.2.text = c.leadText t a.1.visit.node a.1.visit.position ∧
    b.2.text = c'.leadText t a.1.visit.node a.1.visit.position

/-- The conversion that differs in the style of lists alone. -/
def restyled (c : Conversion) (indent : String) (markers : MarkerStyle)
    (respectsListStart : Bool) : Conversion :=
  { c with options := { c.options with indent, markers, respectsListStart } }

variable {indent : String} {markers : MarkerStyle} {respectsListStart : Bool}

/-- What is no lead comes from a stop in the same way in any style of lists. -/
theorem runsAt_restyled {s : Stop} (hlead : s.part ≠ .lead) :
    (c.restyled indent markers respectsListStart).runsAt t inherited s =
      c.runsAt t inherited s := by
  obtain ⟨v, part⟩ := s
  cases part with
  | lead => contradiction
  | separator | leaf | image | html | blank => rfl

/-- Two styles of lists show the same at each stop, but for leads. -/
theorem alongside_row {s : Stop} (hshows : t.Shows s.visit s.part) :
    Alongside (Matches c (c.restyled indent markers respectsListStart) t) (c.rowAt t inherited s)
      ((c.restyled indent markers respectsListStart).rowAt t inherited s) := by
  unfold rowAt
  by_cases hlead : s.part = .lead
  · obtain ⟨v, part⟩ := s
    subst hlead
    have hitem : v.role = .item := hshows
    exact .done (.cons ⟨rfl, rfl, absurd rfl, fun _ => ⟨hitem, rfl, rfl⟩⟩ .nil)
  · rw [runsAt_restyled hlead]
    apply (Alongside.refl (c.runsAt t inherited s)).map
    rintro run _ rfl
    exact ⟨rfl, rfl, fun _ => rfl, fun h => absurd h hlead⟩

/-- So they do along the whole walk, and fail together. -/
theorem alongside_sources {stops : List Stop} (hshows : ∀ s ∈ stops, t.Shows s.visit s.part) :
    Alongside (Matches c (c.restyled indent markers respectsListStart) t)
      (c.sources t inherited stops)
      ((c.restyled indent markers respectsListStart).sources t inherited stops) := by
  induction stops with
  | nil => exact .done .nil
  | cons s rest ih =>
    rw [List.forall_mem_cons] at hshows
    rw [sources_cons, sources_cons]
    exact (alongside_row hshows.1).append (ih hshows.2)

end Conversion

namespace Tree

theorem toText_eq_sources {t : Tree} (h : t.Linked) (id : NodeId) (inherited : Attributes)
    (attachments : Attachments) (options : ConversionOptions) :
    t.toText id inherited attachments options = (fun runs => Text.mk (runs.map Prod.snd)) <$>
      Conversion.sources { options, attachments } t inherited (t.stopsFrom (t.visitTop id)) := by
  rw [toText_eq_gather h, ← Conversion.map_snd_sources, Functor.map_map]

/-- Conversions that differ in the style of lists alone fail with one error, or they make runs that
match one by one: leads stand in the same places, and all else is the same. -/
theorem toText_varies_in_leads {t : Tree} (h : t.Built) (id : NodeId) (inherited : Attributes)
    (attachments : Attachments) (options : ConversionOptions) (indent : String)
    (markers : MarkerStyle) (respectsListStart : Bool) :
    (∃ e, t.toText id inherited attachments options = .error e ∧
      t.toText id inherited attachments { options with indent, markers, respectsListStart } =
        .error e) ∨
    ∃ runs runs' : List (Stop × Run),
      t.toText id inherited attachments options = .ok ⟨runs.map Prod.snd⟩ ∧
      t.toText id inherited attachments { options with indent, markers, respectsListStart } =
        .ok ⟨runs'.map Prod.snd⟩ ∧
      Conversion.sources { options, attachments } t inherited (t.stopsFrom (t.visitTop id)) =
        .ok runs ∧
      List.Forall₂ (Conversion.Matches { options, attachments }
        { options := { options with indent, markers, respectsListStart }, attachments } t)
        runs runs' := by
  have hlinked := h.linked
  let plain : Conversion := { options, attachments }
  let styled := plain.restyled indent markers respectsListStart
  have halong : Alongside (Conversion.Matches plain styled t)
      (plain.sources t inherited (t.stopsFrom (t.visitTop id)))
      (styled.sources t inherited (t.stopsFrom (t.visitTop id))) :=
    Conversion.alongside_sources fun s hs => ((mem_stopsFrom_iff hlinked).1 hs).2
  rw [toText_eq_sources hlinked, toText_eq_sources hlinked]
  simp only [plain, styled, Conversion.restyled] at halong
  -- both outcomes are known only as far as they stand side by side
  generalize Conversion.sources _ t inherited _ = outcome at halong ⊢
  generalize Conversion.sources _ t inherited _ = outcome' at halong ⊢
  cases halong with
  | failed e => exact .inl ⟨e, rfl, rfl⟩
  | @done runs runs' hruns => exact .inr ⟨runs, runs', rfl, rfl, rfl, hruns⟩

/-- A document with a list in a list, and a quotation of raw markup and one more list. -/
def manifest : Tree :=
  (((((((((((ofRoot .document).push 0 (.list .ordered 3 true)).push 1 .item).push 2
    (.text "Crates")).push 2 (.list .bullet 1 true)).push 4 .item).push 5 (.code "oak")).push 0
    .blockQuote).push 7 (.htmlBlock "<hr>")).push 7 (.list .ordered 5 true)).push 9
    .item).push 10 (.text "Barrels")

/-- What is rendered of its quotation. -/
def manifestQuote : String :=
  "<blockquote>\n<hr><ol start=\"5\">\n<li>\nBarrels</li>\n</ol>\n</blockquote>\n"

/-- Leads change with the style of lists, rendered lists do not. -/
theorem manifest_varies_in_leads : manifest.Built ∧
    ((∃ e, manifest.toText root {} {} {} = .error e ∧
      manifest.toText root {} {} { indent := "  ", markers := .plain, respectsListStart := true } =
        .error e) ∨
    ∃ runs runs' : List (Stop × Run),
      manifest.toText root {} {} {} = .ok ⟨runs.map Prod.snd⟩ ∧
      manifest.toText root {} {} { indent := "  ", markers := .plain, respectsListStart := true } =
        .ok ⟨runs'.map Prod.snd⟩ ∧
      Conversion.sources { options := {}, attachments := {} } manifest {}
        (manifest.stopsFrom (manifest.visitTop root)) = .ok runs ∧
      List.Forall₂ (Conversion.Matches { options := {}, attachments := {} }
        { options := { indent := "  ", markers := .plain, respectsListStart := true }
          attachments := {} } manifest) runs runs') ∧
    Text.texts <$> manifest.toText root {} {} {} =
      .ok ["\t1. ", "Crates", "\u2029", "\t\t• ", "oak", "\u2029", manifestQuote] ∧
    Text.texts <$> manifest.toText root {} {}
        { indent := "  ", markers := .plain, respectsListStart := true } =
      .ok ["  3. ", "Crates", "\u2029", "    • ", "oak", "\u2029", manifestQuote] := by
  have hbuilt : manifest.Built := by
    unfold manifest
    repeat refine .push _ ?_ (by simp)
    exact .ofRoot _
  exact ⟨hbuilt, toText_varies_in_leads hbuilt root {} {} {} "  " .plain true, rfl, rfl⟩

end Tree

end StyledText.Markdown
