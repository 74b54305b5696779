import StyledText.OrderedMap.Lemmas
import StyledText.Proofs.Conversion.DocumentOrder

/-!
# What a conversion keeps of the attributes it starts with

Each kind sets a few attributes for what is below (`Kind.sets`) and leaves all others alone. So what
a conversion starts with reaches every run, but for the fonts, the targets of links, the attributes
that raw markup sets for its own run, and the attachments of images. Raw markup can never set what
has a name of its own among the keys, whatever it calls itself.

* `Inheritance.get?_resolve_of_not_sets`: one kind, and `Visit.get?_attributes` for a whole way.
* `Stop.Styled`: the attributes of the run of a stop, and `Stop.Keeps`: what it keeps.
* `toText_keeps_inherited`: so it is for all runs of a conversion, if the renderer is one of the two
  that are given.
-/

namespace StyledText

open Attribute

/-- Whether raw markup can set what is under a key: it can for the template variables and for what
is custom. -/
def Attribute.Key.isOpen : Key → Bool
  | .variableValue | .variableName | .custom _ => true
  | _ => false

/-- Whether a run stands for the end of a block or for nothing, without any attributes. -/
def Run.IsBare (r : Run) : Prop :=
  r.attributes = {} ∧ (r.text = "" ∨ r.text = paragraphSeparator.toString)

namespace Markdown

/-- Raw markup names variables and keys of its own, and no others. -/
theorem RawMarkup.isOpen_of_assignment? {literal value : String} {key : Key}
    (h : assignment? literal = some (key, value)) : key.isOpen := by
  unfold assignment? at h
  split at h
  · next name _ _ =>
    have hkey : keyOf (.ofList name) = key := congrArg Prod.fst (Option.some.inj h)
    rw [← hkey, keyOf]
    split
    · rfl
    · split <;> rfl
  · cases h

namespace Kind

def isLink : Kind → Bool
  | link .. => true
  | _ => false

/-- Whether this is raw markup inside a line. -/
def isInlineHtml : Kind → Bool
  | inlineHtml _ => true
  | _ => false

/-- Whether a node of this kind may set what is under the key. -/
def sets (key : Key) : Kind → Bool
  | blockQuote | emphasis | strong | heading _ | codeBlock .. | code _ => key = .font
  | link .. => key = .link || key = .toolTip
  | inlineHtml s => (RawMarkup.assignment? s).any fun a => a.1 = key
  | _ => false

theorem sets_inlineHtml_of_not_isOpen {key : Key} (hkey : ¬ key.isOpen) (s : String) :
    (inlineHtml s).sets key = false := by
  rw [sets, Option.any_eq_false]
  intro a ha
  rw [decide_eq_false_iff_not]
  rintro rfl
  exact hkey (RawMarkup.isOpen_of_assignment? ha)

end Kind

/-! ## On the way to a visit -/

/-- What a kind does not set is inherited. -/
theorem Inheritance.get?_resolve_of_not_sets (h : Inheritance) {kind : Kind} {key : Key}
    (hkind : kind.sets key = false) (a : Attributes) :
    (h.resolve kind a).get? key = a.get? key := by
  cases kind with
  | blockQuote | emphasis | strong | heading | codeBlock | code =>
    have hne : key ≠ .font := by simpa [Kind.sets] using hkind
    simp [resolve, hne]
  | link destination title =>
    obtain ⟨hlink, htip⟩ : key ≠ .link ∧ key ≠ .toolTip := by simpa [Kind.sets] using hkind
    simp only [resolve]
    split <;> split <;> simp [hlink, htip]
  | inlineHtml s =>
    simp only [resolve]
    split
    · next key' value hfound =>
      have hne : key ≠ key' := by
        rintro rfl
        simp [Kind.sets, hfound] at hkind
      simp [hne]
    · rfl
  | _ => rfl

/-- What no kind on the way sets comes from where the conversion starts. -/
theorem Visit.get?_attributes {v : Visit} (h : Inheritance) {key : Key}
    (hpath : ∀ kind ∈ v.path, kind.sets key = false) (inherited : Attributes) :
    (v.attributes h inherited).get? key = inherited.get? key := by
  unfold Visit.attributes
  generalize v.path = path at hpath
  induction path generalizing inherited with
  | nil => rfl
  | cons kind rest ih =>
    rw [List.forall_mem_cons] at hpath
    rw [List.foldl_cons, ih _ hpath.2, h.get?_resolve_of_not_sets hpath.1]

namespace Kind

variable {kind : Kind} {key : Key}

/-- No kind sets a colour. -/
theorem sets_eq_false_of_color (hkey : key ∈ [Key.foregroundColor, .backgroundColor]) :
    kind.sets key = false := by
  simp only [List.mem_cons, List.not_mem_nil, or_false] at hkey
  cases kind with
  | inlineHtml s =>
    apply sets_inlineHtml_of_not_isOpen
    rcases hkey with rfl | rfl <;> simp [Key.isOpen]
  | _ => rcases hkey with rfl | rfl <;> rfl

theorem sets_attachment : kind.sets .attachment = false := by
  cases kind with
  | inlineHtml s => exact sets_inlineHtml_of_not_isOpen (by simp [Key.isOpen]) s
  | _ => rfl

/-- Only links set targets and tool tips. -/
theorem sets_eq_false_of_link (hkey : key ∈ [Key.link, .toolTip]) (hkind : ¬ kind.isLink) :
    kind.sets key = false := by
  simp only [List.mem_cons, List.not_mem_nil, or_false] at hkey
  cases kind with
  | link => exact absurd rfl hkind
  | inlineHtml s =>
    apply sets_inlineHtml_of_not_isOpen
    rcases hkey with rfl | rfl <;> simp [Key.isOpen]
  | _ => rcases hkey with rfl | rfl <;> rfl

/-- Only raw markup sets open keys. -/
theorem sets_eq_false_of_isOpen (hkey : key.isOpen) (hkind : ¬ kind.isInlineHtml) :
    kind.sets key = false := by
  cases kind with
  | inlineHtml => exact absurd rfl hkind
  | _ => cases key <;> first | rfl | cases hkey

end Kind

/-! ## The run of a stop -/

/-- The run of a stop carries attributes as its part asks for: none between blocks and for nothing,
else those given, and for an image the attachment as well. -/
def Stop.Styled (s : Stop) (a : Attributes) (r : Run) : Prop :=
  match s.part with
  | .separator | .blank => r.IsBare
  | .lead | .leaf | .html => r.attributes = a
  | .image => ∃ attachment, r = .ofAttachment attachment a

/-- What the run of a stop keeps of the attributes the conversion starts with. -/
structure Stop.Keeps (t : Tree) (inherited : Attributes) (s : Stop) (r : Run) : Prop where
  colors : ∀ key ∈ [Key.foregroundColor, .backgroundColor],
    r.attributes.get? key = inherited.get? key
  /-- Template variables and custom attributes, unless the run is that of raw markup. -/
  opens : ¬ (s.part = .leaf ∧ (t.kind s.visit.node).isInlineHtml) → ∀ key, key.isOpen →
    r.attributes.get? key = inherited.get? key
  /-- Unless there is a link on the way to the run, its own node included. -/
  links : (∀ a ∈ (t.ancestors s.visit.node).take (s.visit.place.length + 1),
      ¬ (t.kind a).isLink) →
    ∀ key ∈ [Key.link, .toolTip], r.attributes.get? key = inherited.get? key
  attachment : s.part ≠ .image → r.attributes.get? .attachment = inherited.get? .attachment

section

variable {t : Tree} {id : NodeId} {v : Visit} {s : Stop} {c : Conversion} {inherited : Attributes}

/-- A stop that carries attributes has no raw markup on its way, unless it is a leaf of that
kind. -/
theorem Tree.Reaches.not_isInlineHtml (hreach : t.Reaches (t.visitTop id) s.visit)
    (hshows : t.Shows s.visit s.part) (hpart : s.part ∈ [.lead, .leaf, .image, .html])
    (hleaf : ¬ (s.part = .leaf ∧ (t.kind s.visit.node).isInlineHtml)) :
    ∀ kind ∈ s.visit.path, ¬ kind.isInlineHtml := by
  obtain ⟨v, part⟩ := s
  obtain ⟨above, hpath, habove⟩ := hreach.exists_path
  have hlast : ¬ (t.kindAt v).isInlineHtml := by
    unfold Tree.kindAt
    split
    · simp [Kind.isInlineHtml]
    · next hitem =>
      cases part with
      | separator | blank => simp at hpart
      | lead => exact absurd hshows hitem
      | leaf => exact fun hkind => hleaf ⟨rfl, hkind⟩
      | image =>
        intro hkind
        have hdestination := hshows.2
        cases hk : t.kind v.node <;> simp_all [Kind.isInlineHtml, Kind.destination?]
      | html =>
        intro hkind
        have hblock := hshows.2.1
        cases hk : t.kind v.node <;> simp_all [Kind.isInlineHtml]
  intro kind hkind
  rw [hpath] at hkind
  rcases List.mem_append.1 hkind with hkind | hkind
  · have hliteral := habove kind hkind
    cases kind <;> simp_all [Kind.isInlineHtml, Kind.literal?]
  · rw [List.mem_singleton.1 hkind]
    exact hlast

/-- A run keeps all that its visit keeps. -/
theorem Tree.Reaches.keeps (h : t.Linked) (hreach : t.Reaches (t.visitTop id) s.visit)
    (hshows : t.Shows s.visit s.part) (hpart : s.part ∈ [.lead, .leaf, .image, .html])
    {r : Run} (hr : ∀ key, (s.part = .image → key ≠ .attachment) →
      r.attributes.get? key = (s.visit.attributes c.inheritance inherited).get? key) :
    s.Keeps t inherited r := by
  have hway : ∀ key, (s.part = .image → key ≠ .attachment) →
      (∀ kind ∈ s.visit.path, kind.sets key = false) →
      r.attributes.get? key = inherited.get? key := by
    intro key himage hpath
    rw [hr key himage, Visit.get?_attributes _ hpath]
  refine ⟨?_, ?_, ?_, ?_⟩
  · intro key hkey
    refine hway key ?_ fun kind _ => Kind.sets_eq_false_of_color hkey
    rintro - rfl
    simp at hkey
  · intro hleaf key hkey
    have hraw := hreach.not_isInlineHtml hshows hpart hleaf
    refine hway key ?_ fun kind hkind => Kind.sets_eq_false_of_isOpen hkey (hraw kind hkind)
    rintro - rfl
    cases hkey
  · intro hlinks key hkey
    refine hway key ?_ fun kind hkind => Kind.sets_eq_false_of_link hkey ?_
    · rintro - rfl
      simp at hkey
    · rcases hreach.mem_path h hkind with rfl | ⟨a, ha, rfl⟩
      · simp [Kind.isLink]
      · exact hlinks a ha
  · intro himage
    exact hway .attachment (fun h => absurd h himage) fun kind _ => Kind.sets_attachment

/-- Both renderers put all they show into one run. -/
theorem HtmlRenderer.eq_styled {renderer : HtmlRenderer} {html : String} {a : Attributes}
    {text : Text} (hrenderer : renderer = .literal ∨ renderer = .plainText)
    (hok : renderer.render html a = .ok text) : ∃ shown, text = .styled shown a := by
  rcases hrenderer with rfl | rfl
  · exact ⟨html, (Except.ok.inj hok).symm⟩
  · simp only [plainText] at hok
    split at hok
    · next shown _ => exact ⟨shown, (Except.ok.inj hok).symm⟩
    · cases hok

namespace Conversion

/-- A stop has one run, unless it is for a renderer of the host. -/
theorem styled_runsAt
    (hhtml : s.part = .html → c.options.html = .literal ∨ c.options.html = .plainText)
    {row : List Run} (hok : c.runsAt t inherited s = .ok row) :
    ∃ r, row = [r] ∧ s.Styled (s.visit.attributes c.inheritance inherited) r := by
  obtain ⟨v, part⟩ := s
  cases part with
  | separator => exact ⟨_, (Except.ok.inj hok).symm, rfl, .inr rfl⟩
  | blank => exact ⟨_, (Except.ok.inj hok).symm, rfl, .inl rfl⟩
  | lead | leaf => exact ⟨_, (Except.ok.inj hok).symm, rfl⟩
  | image =>
    simp only [runsAt] at hok
    split at hok
    · next attachment _ => exact ⟨_, (Except.ok.inj hok).symm, attachment, rfl⟩
    · cases hok
  | html =>
    simp only [runsAt] at hok
    split at hok
    · next text htext =>
      obtain ⟨shown, rfl⟩ := HtmlRenderer.eq_styled (hhtml rfl) htext
      exact ⟨_, (Except.ok.inj hok).symm, rfl⟩
    · cases hok

/-- A stop has one run, which is bare or keeps what it can. -/
theorem keeps_runsAt (h : t.Linked)
    (hhtml : c.options.html = .literal ∨ c.options.html = .plainText)
    (hreach : t.Reaches (t.visitTop id) s.visit) (hshows : t.Shows s.visit s.part)
    {row : List Run} (hok : c.runsAt t inherited s = .ok row) :
    ∃ r, row = [r] ∧ (r.IsBare ∨ s.Keeps t inherited r) := by
  obtain ⟨r, rfl, hstyled⟩ := styled_runsAt (fun _ => hhtml) hok
  refine ⟨r, rfl, ?_⟩
  obtain ⟨v, part⟩ := s
  cases part with
  | separator | blank => exact .inl hstyled
  | lead | leaf | html =>
    exact .inr (hreach.keeps (c := c) h hshows (by simp) fun key _ =>
      congrArg (OrderedMap.get? · key) hstyled)
  | image =>
    obtain ⟨attachment, rfl⟩ := hstyled
    refine .inr (hreach.keeps (c := c) h hshows (by simp) fun key hkey => ?_)
    simp [Run.ofAttachment, hkey rfl]

/-- Where each stop has one run, runs and stops stand side by side. -/
theorem forall₂_of_gather {P : Stop → Run → Prop} {stops : List Stop} {runs : List Run}
    (hstop : ∀ s ∈ stops, ∀ row, c.runsAt t inherited s = .ok row → ∃ r, row = [r] ∧ P s r)
    (hok : c.gather t inherited stops = .ok runs) : List.Forall₂ P stops runs := by
  induction stops generalizing runs with
  | nil =>
    cases hok
    exact .nil
  | cons s rest ih =>
    rw [List.forall_mem_cons] at hstop
    obtain ⟨row, more, hrow, hmore, rfl⟩ := gather_cons_eq_ok_iff.1 hok
    obtain ⟨r, rfl, hr⟩ := hstop.1 row hrow
    exact .cons hr (ih hstop.2 hmore)

end Conversion

end

namespace Tree

variable {t : Tree}

/-- Every run of a conversion is the one of its stop. It is bare, or it has the colours that the
conversion starts with, and all the rest as well that no link, raw markup or image on its way has
set. -/
theorem toText_keeps_inherited (h : t.Built) {id : NodeId} {inherited : Attributes}
    {attachments : Attachments} {options : ConversionOptions} {text : Text}
    (hhtml : options.html = .literal ∨ options.html = .plainText)
    (hok : t.toText id inherited attachments options = .ok text) :
    List.Forall₂ (fun s r => Conversion.runsAt { options, attachments } t inherited s = .ok [r] ∧
      (r.IsBare ∨ s.Keeps t inherited r)) (t.stopsFrom (t.visitTop id)) text.runs := by
  have hlinked := h.linked
  refine Conversion.forall₂_of_gather ?_ ((toText_eq_ok_iff hlinked).1 hok)
  intro s hs row hrow
  obtain ⟨hreach, hshows⟩ := (mem_stopsFrom_iff hlinked).1 hs
  obtain ⟨r, rfl, hr⟩ := Conversion.keeps_runsAt hlinked hhtml hreach hshows hrow
  exact ⟨r, rfl, hrow, hr⟩

/-- A paragraph with a link, raw markup that calls itself a colour, and an image. -/
def flyer : Tree :=
  (((((ofRoot .document).push 0 .paragraph).push 1 (.link "shop" "Open")).push 2
    (.text "Shop")).push 1 (.inlineHtml "<foregroundColor red/>")).push 1 (.image "map.png" "" "")

/-- A tip and a custom attribute. -/
def imprint : Attributes := .ofList [(.toolTip, .text "Sent"), (.custom "place", .text "Pier")]

/-- Its image. -/
def album : Attachments := .ofList [("map.png", { name := "map" })]

theorem flyer_keeps_inherited : flyer.Built ∧ ∃ text,
    flyer.toText 0 imprint album {} = .ok text ∧
      List.Forall₂ (fun s r =>
        Conversion.runsAt { options := {}, attachments := album } flyer imprint s = .ok [r] ∧
          (r.IsBare ∨ s.Keeps flyer imprint r))
        (flyer.stopsFrom (flyer.visitTop 0)) text.runs := by
  have hbuilt : flyer.Built := by
    unfold flyer
    repeat refine .push _ ?_ (by simp)
    exact .ofRoot _
  obtain ⟨text, hok⟩ : ∃ text, flyer.toText 0 imprint album {} = .ok text := ⟨_, rfl⟩
  exact ⟨hbuilt, text, hok, toText_keeps_inherited hbuilt (.inl rfl) hok⟩

end Tree

end Markdown

end StyledText
