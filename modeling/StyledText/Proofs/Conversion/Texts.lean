import StyledText.Proofs.Conversion.DocumentOrder

/-!
# What a conversion shows

The attributes a conversion starts with, its fonts and its base URL are for style alone. What it
shows, run by run, and whether and how it fails, comes from the tree and the attachments, as long as
the renderer does not look at attributes either (`HtmlRenderer.IgnoresStyle`).

* `gather_map_congr`: what is the same stop by stop is the same for a whole walk.
* `map_text_runsAt`: a stop shows the same in whatever style.
* `toText_ignores_style`: so does a conversion.
-/

namespace StyledText

def Text.texts (text : Text) : List String := text.runs.map (·.text)

namespace Markdown

/-! ## Renderers -/

namespace HtmlRenderer

/-- What is rendered shows the same in whatever style. -/
def IgnoresStyle (r : HtmlRenderer) : Prop :=
  ∀ html a a', Text.texts <$> r.render html a = Text.texts <$> r.render html a'

/-- Markup that is shown as it is has the same text in every style. -/
theorem ignoresStyle_literal : literal.IgnoresStyle := fun _ _ _ => rfl

/-- Plain text does not depend on the style. -/
theorem ignoresStyle_plainText : plainText.IgnoresStyle := by
  intro html a a'
  simp only [plainText]
  cases Html.plainText html <;> rfl

/-- A renderer that always fails fails in every style. -/
theorem ignoresStyle_error (e : HtmlError) : IgnoresStyle ⟨fun _ _ => .error e⟩ :=
  fun _ _ _ => rfl

end HtmlRenderer

/-! ## Two walks side by side -/

namespace Conversion

variable {c c' : Conversion} {t : Tree} {inherited inherited' : Attributes}

/-- What a walk shows is what its first stop shows and then what the others show. -/
theorem map_gather_cons {α : Type} (f : Run → α) (s : Stop) (rest : List Stop) :
    List.map f <$> c.gather t inherited (s :: rest) = do
      let first ← List.map f <$> c.runsAt t inherited s
      let more ← List.map f <$> c.gather t inherited rest
      return first ++ more := by
  rw [← List.singleton_append, gather_append, gather_singleton]
  cases c.runsAt t inherited s with
  | error e => rfl
  | ok first =>
    cases c.gather t inherited rest with
    | error e => rfl
    | ok more => exact congrArg Except.ok List.map_append

/-- What is the same at every stop of two walks is the same altogether. -/
theorem gather_map_congr {α : Type} (f : Run → α) {stops : List Stop}
    (hstop : ∀ s ∈ stops,
      List.map f <$> c.runsAt t inherited s = List.map f <$> c'.runsAt t inherited' s) :
    List.map f <$> c.gather t inherited stops = List.map f <$> c'.gather t inherited' stops := by
  induction stops with
  | nil => rfl
  | cons s rest ih =>
    rw [List.forall_mem_cons] at hstop
    rw [map_gather_cons, map_gather_cons, hstop.1, ih hstop.2]

variable {options : ConversionOptions} {attachments : Attachments} {fonts : Font.Provider}
  {baseUrl : Option String}

/-- A stop shows the same in whatever style, and it fails in the same way. -/
theorem map_text_runsAt (hhtml : options.html.IgnoresStyle) (s : Stop) :
    List.map Run.text <$> runsAt { options, attachments } t inherited s =
      List.map Run.text <$>
        runsAt { options := { options with fonts, baseUrl }, attachments } t inherited' s := by
  obtain ⟨v, part⟩ := s
  cases part with
  | separator | lead | leaf | blank => rfl
  | image =>
    simp only [runsAt]
    cases attachments.get? ((t.kind v.node).destination?.getD "") <;> rfl
  | html =>
    have hsame := hhtml (t.outline v.node).toHtml
      (v.attributes (inheritance { options, attachments }) inherited)
      (v.attributes (inheritance { options := { options with fonts, baseUrl }, attachments })
        inherited')
    simp only [runsAt]
    -- both sides render, or both fail with one error
    generalize options.html.render _ _ = shown at hsame ⊢
    generalize options.html.render _ _ = shown' at hsame ⊢
    cases shown <;> cases shown' <;> simp_all [Functor.map, Except.map, Text.texts]

end Conversion

namespace Tree

/-- What a conversion shows and how it fails do not depend on style: on the attributes it starts
with, the fonts and the base URL. -/
theorem toText_ignores_style {t : Tree} (h : t.Built) (id : NodeId)
    {options : ConversionOptions} (hhtml : options.html = .literal ∨ options.html = .plainText ∨
      ∃ e, options.html = ⟨fun _ _ => .error e⟩)
    (attachments : Attachments) (inherited inherited' : Attributes) (fonts : Font.Provider)
    (baseUrl : Option String) :
    Text.texts <$> t.toText id inherited attachments options =
      Text.texts <$> t.toText id inherited' attachments { options with fonts, baseUrl } := by
  have hignores : options.html.IgnoresStyle := by
    rcases hhtml with hhtml | hhtml | ⟨e, hhtml⟩ <;> rw [hhtml]
    · exact HtmlRenderer.ignoresStyle_literal
    · exact HtmlRenderer.ignoresStyle_plainText
    · exact HtmlRenderer.ignoresStyle_error e
  rw [toText_eq_gather h.linked, toText_eq_gather h.linked, Functor.map_map, Functor.map_map]
  exact Conversion.gather_map_congr Run.text fun s _ => Conversion.map_text_runsAt hignores s

/-- A document with a heading, a link and a list. -/
def placard : Tree :=
  ((((((((ofRoot .document).push 0 (.heading 1)).push 1 (.text "Fair")).push 0 .paragraph).push 3
    (.link "plan" "Map")).push 4 (.text "Stalls")).push 0 (.list .bullet 1 true)).push 6
    .item).push 7 (.code "42")

/-- It shows the same in a large font and with a base URL. -/
theorem placard_ignores_style : placard.Built ∧
    Text.texts <$> placard.toText 0 {} {} {} =
      Text.texts <$> placard.toText 0
        (({} : Attributes).insert .font (.font { family := "Serif", size := 30.0 })) {}
        { baseUrl := some "https://fair.example/" } ∧
    Text.texts <$> placard.toText 0 {} {} {} =
      .ok ["Fair", "\u2029", "Stalls", "\u2029", "\t• ", "42"] := by
  have hbuilt : placard.Built := by
    unfold placard
    repeat refine .push _ ?_ (by simp)
    exact .ofRoot _
  exact ⟨hbuilt, toText_ignores_style hbuilt 0 (.inl rfl) {} {} _ _ _, rfl⟩

end Tree

end Markdown

end StyledText
