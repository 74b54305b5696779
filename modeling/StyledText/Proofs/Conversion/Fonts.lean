import Mathlib.Data.List.Induction
import StyledText.Proofs.Conversion.Breaks
import StyledText.Proofs.Conversion.Kept

/-!
# Fonts on the way to a run

On the way to a run every node may ask the font system for another font. With two families to
choose from, the answers add up whatever the order of the nodes: the traits are those of all nodes
together, the size is scaled by one heading after the other from the outside in, and code turns to
fixed pitch at the end of the way.

* `wayFont_concat`: one more kind on the way.
* `Inheritance.get?_font_foldl`: the font entry after a way without code.
* `Visit.get?_font`: that of a visit.
* `toText_combines_fonts`: that of every run in the text of a whole tree.
-/

namespace StyledText.Markdown

open Attribute

namespace Kind

def slants : Kind → Bool
  | blockQuote | emphasis => true
  | _ => false

def emboldens : Kind → Bool
  | strong | heading _ => true
  | _ => false

def isCode : Kind → Bool
  | codeBlock .. | code _ => true
  | _ => false

/-- Whether text in a node of this kind has another font than the text around it. -/
def changesFont (kind : Kind) : Bool := kind.slants || kind.emboldens || kind.isCode

def level? : Kind → Option Nat
  | heading level => some level
  | _ => none

/-- What a node of this kind makes of a font, fixed pitch apart. -/
def restyle (kind : Kind) (font : Font) : Font :=
  match kind with
  | blockQuote | emphasis => font.withTraits { italic := true }
  | strong => font.withTraits { bold := true }
  | heading level =>
    (font.withSize (font.size * headingScale level)).withTraits { bold := true }
  | _ => font

variable {kind : Kind}

/-- Raw markup never sets the font, whatever it calls itself. -/
theorem sets_font : kind.sets .font = kind.changesFont := by
  cases kind with
  | inlineHtml s => exact sets_inlineHtml_of_not_isOpen (by simp [Key.isOpen]) s
  | _ => rfl

theorem restyle_of_not_changesFont (h : kind.changesFont = false) (font : Font) :
    kind.restyle font = font := by
  cases kind <;> first | rfl | cases h

theorem restyle_of_isCode (h : kind.isCode) (font : Font) : kind.restyle font = font := by
  cases kind <;> first | rfl | cases h

theorem isCode_of_literal? (h : kind.literal? = none) : kind.isCode = false := by
  cases kind <;> first | rfl | cases h

end Kind

/-! ## The font of a way -/

variable {fs : Font.Families} {inherited : Attributes} {path : List Kind}

/-- The font that the kinds on a way ask for together, code apart. -/
def wayFont (fs : Font.Families) (inherited : Attributes) (path : List Kind) : Font :=
  let base := inherited.font?.getD fs.defaultFont
  { family := base.family
    size := (path.filterMap Kind.level?).foldl (fun size level => size * headingScale level)
      base.size
    traits := base.traits.union
      { bold := path.any Kind.emboldens, italic := path.any Kind.slants } }

/-- The font in fixed pitch. It keeps its traits if the faces for them exist. -/
def fixedPitch (fs : Font.Families) (font : Font) : Font :=
  { family := fs.monospaceFamily
    size := font.size
    traits := if fs.combinesTraits then font.traits.union { monospace := true }
      else { monospace := true } }

/-- The font entry at the end of a way. Without a change on the way it stays what it was. -/
def fontEntry (fs : Font.Families) (inherited : Attributes) (path : List Kind) : Option Value :=
  if path.any Kind.changesFont then
    some (.font (if path.getLast?.any Kind.isCode then fixedPitch fs (wayFont fs inherited path)
      else wayFont fs inherited path))
  else inherited.get? .font

theorem wayFont_nil : wayFont fs inherited [] = inherited.font?.getD fs.defaultFont := by
  simp [wayFont]

/-- The last kind on the way restyles the font of the way before it. -/
theorem wayFont_concat (kind : Kind) :
    wayFont fs inherited (path ++ [kind]) = kind.restyle (wayFont fs inherited path) := by
  cases kind <;>
    simp [wayFont, Kind.restyle, Font.withTraits, Font.withSize, Font.Traits.union,
      List.filterMap_cons, Kind.level?, Kind.emboldens, Kind.slants]

/-- A way on which no kind changes the font keeps the one it starts with. -/
theorem wayFont_of_not_changesFont (h : path.any Kind.changesFont = false) :
    wayFont fs inherited path = inherited.font?.getD fs.defaultFont := by
  induction path using List.reverseRecOn with
  | nil => exact wayFont_nil
  | append_singleton path kind ih =>
    rw [List.any_append, Bool.or_eq_false_iff, List.any_cons, List.any_nil, Bool.or_false] at h
    rw [wayFont_concat, ih h.1, Kind.restyle_of_not_changesFont h.2]

theorem monospaced_eq_fixedPitch (font : Font) : fs.monospaced font = fixedPitch fs font := by
  simp [Font.Families.monospaced, fixedPitch, Font.Traits.union]

namespace Inheritance

variable {h : Inheritance}

/-- A kind that changes the font, other than code, writes the restyled font. -/
theorem get?_font_resolve (hfonts : h.fonts = fs.provider) {kind : Kind} (hcode : ¬ kind.isCode)
    (hchanges : kind.changesFont) (a : Attributes) :
    (h.resolve kind a).get? .font = some (.font (kind.restyle (h.font a))) := by
  cases kind with
  | codeBlock | code => exact absurd rfl hcode
  | blockQuote | emphasis | strong | heading =>
    simp [resolve, hfonts, Font.Families.provider, Kind.restyle]
  | _ => cases hchanges

/-- Code writes a font of fixed pitch. -/
theorem get?_font_resolve_code (hfonts : h.fonts = fs.provider) {kind : Kind} (hcode : kind.isCode)
    (a : Attributes) :
    (h.resolve kind a).get? .font = some (.font (fixedPitch fs (h.font a))) := by
  cases kind with
  | codeBlock | code =>
    simp [resolve, hfonts, Font.Families.provider, monospaced_eq_fixedPitch]
  | _ => cases hcode

/-- The font in force at the end of a way is read off the font entry. -/
theorem font_eq_wayFont (hfonts : h.fonts = fs.provider) {a : Attributes}
    (ha : a.get? .font = if path.any Kind.changesFont then
      some (.font (wayFont fs inherited path)) else inherited.get? .font) :
    h.font a = wayFont fs inherited path := by
  by_cases hchanges : path.any Kind.changesFont
  · rw [if_pos hchanges] at ha
    simp [font, Attributes.font?, ha]
  · rw [if_neg hchanges] at ha
    rw [Bool.not_eq_true] at hchanges
    rw [wayFont_of_not_changesFont hchanges, font, Attributes.font?, ha, hfonts]
    rfl

/-- Every kind on the way changes the font that those before it have made. -/
theorem get?_font_foldl (hfonts : h.fonts = fs.provider) (hcode : ∀ kind ∈ path, ¬ kind.isCode) :
    (path.foldl (fun a kind => h.resolve kind a) inherited).get? .font =
      if path.any Kind.changesFont then some (.font (wayFont fs inherited path))
      else inherited.get? .font := by
  induction path using List.reverseRecOn with
  | nil => rfl
  | append_singleton path kind ih =>
    have hbefore := ih fun k hk => hcode k (List.mem_append_left _ hk)
    have hkind := hcode kind (by simp)
    rw [List.foldl_append, List.foldl_cons, List.foldl_nil, wayFont_concat, List.any_append,
      List.any_cons, List.any_nil, Bool.or_false]
    by_cases hchanges : kind.changesFont
    · rw [get?_font_resolve hfonts hkind hchanges, font_eq_wayFont hfonts hbefore, hchanges,
        Bool.or_true, if_pos rfl]
    · rw [Bool.not_eq_true] at hchanges
      rw [get?_resolve_of_not_sets h (Kind.sets_font.trans hchanges), hbefore, hchanges,
        Bool.or_false, Kind.restyle_of_not_changesFont hchanges]

end Inheritance

/-- The font entry of a visit comes from its way alone. -/
theorem Visit.get?_font {h : Inheritance} (hfonts : h.fonts = fs.provider) {v : Visit}
    {above : List Kind} {last : Kind} (hpath : v.path = above ++ [last])
    (hcode : ∀ kind ∈ above, ¬ kind.isCode) :
    (v.attributes h inherited).get? .font = fontEntry fs inherited v.path := by
  unfold Visit.attributes fontEntry
  rw [hpath, List.getLast?_concat, Option.any_some]
  by_cases hlast : last.isCode
  · have habove : (above.foldl (fun a kind => h.resolve kind a) inherited).get? .font = _ :=
      Inheritance.get?_font_foldl hfonts hcode
    have hchanges : (above ++ [last]).any Kind.changesFont := by simp [Kind.changesFont, hlast]
    rw [List.foldl_append, List.foldl_cons, List.foldl_nil,
      Inheritance.get?_font_resolve_code hfonts hlast, Inheritance.font_eq_wayFont hfonts habove,
      if_pos hchanges, if_pos hlast, wayFont_concat, Kind.restyle_of_isCode hlast]
  · have hway : ∀ kind ∈ above ++ [last], ¬ kind.isCode := by
      intro kind hkind
      rcases List.mem_append.1 hkind with hkind | hkind
      · exact hcode kind hkind
      · rw [List.mem_singleton.1 hkind]
        exact hlast
    rw [Inheritance.get?_font_foldl hfonts hway, if_neg hlast]

/-! ## The fonts of a text -/

namespace Tree

variable {t : Tree} {v : Visit} {s : Stop}

/-- From the root, the way to a node is all that is above it. -/
theorem Reaches.path_eq_ancestors (h : t.Linked) (hitems : t.ListsHoldItems)
    (hreach : t.Reaches (t.visitTop root) v) :
    v.path = (t.ancestors v.node).reverse.map t.kind := by
  induction hreach with
  | refl => simp [visitTop, ancestors_of_parent?_eq_none h.parent?_root]
  | @tail u w _ hstep ih =>
    obtain ⟨role, i, c, hrole, hc, rfl⟩ := mem_nexts_iff.1 hstep
    have hmem := List.mem_of_getElem? hc
    simp only [visitChild, hitems.kind_eq hrole hmem]
    rw [h.ancestors_of_parent? (h.mem_children_iff.1 hmem), List.reverse_cons, List.map_append,
      ih, List.map_singleton]

/-- The font of a visit can be told from its way. -/
theorem Reaches.get?_font {h : Inheritance} (hfonts : h.fonts = fs.provider) {id : NodeId}
    (hreach : t.Reaches (t.visitTop id) v) :
    (v.attributes h inherited).get? .font = fontEntry fs inherited v.path := by
  obtain ⟨above, hpath, habove⟩ := hreach.exists_path
  refine Visit.get?_font hfonts hpath fun kind hkind => ?_
  simp [Kind.isCode_of_literal? (habove kind hkind)]

end Tree

namespace Conversion

variable {c : Conversion} {t : Tree} {s : Stop}

/-- Besides what a renderer makes, a stop leaves one run. It has the font entry of its visit, unless
it stands between blocks or for nothing. -/
theorem exists_run_of_runsAt (hhtml : s.part ≠ .html) {row : List Run}
    (hok : c.runsAt t inherited s = .ok row) : ∃ r, row = [r] ∧
      (s.part ∈ [.lead, .leaf, .image] →
        r.attributes.get? .font = (s.visit.attributes c.inheritance inherited).get? .font) := by
  obtain ⟨r, rfl, hstyled⟩ := styled_runsAt (fun hpart => absurd hpart hhtml) hok
  refine ⟨r, rfl, fun hpart => ?_⟩
  obtain ⟨v, part⟩ := s
  cases part with
  | separator | blank => simp at hpart
  | lead | leaf => exact congrArg (OrderedMap.get? · .font) hstyled
  | image =>
    obtain ⟨attachment, rfl⟩ := hstyled
    simp [Run.ofAttachment]
  | html => exact absurd rfl hhtml

end Conversion

namespace Tree

variable {t : Tree}

/-- The fonts in the text of a whole tree. -/
structure CombinesFonts (t : Tree) (fs : Font.Families) (inherited : Attributes) (c : Conversion)
    (text : Text) : Prop where
  /-- A leaf that the walk comes to has a stop of its own. So has an image with a destination. -/
  leaves : ∀ v, t.Reaches (t.visitTop root) v →
    (t.kind v.node).leafText?.isSome ∨ (t.kind v.node).destination?.isSome →
    ∃ part ∈ [Part.leaf, .image], ⟨v, part⟩ ∈ t.stopsFrom (t.visitTop root)
  /-- The run of such a stop has the font entry of the way from the root, and so has the lead of an
  item. -/
  runs : List.Forall₂ (fun s r => c.runsAt t inherited s = .ok [r] ∧
      (s.part ∈ [.lead, .leaf, .image] → r.attributes.get? .font =
        fontEntry fs inherited ((t.ancestors s.visit.node).reverse.map t.kind)))
    (t.stopsFrom (t.visitTop root)) text.runs

/-- With two families to choose from, the fonts that are asked for on the way to a run add up. -/
theorem toText_combines_fonts (h : t.Built) (hitems : t.ListsHoldItems) (hraw : t.NoHtmlBlocks)
    {attachments : Attachments} {options : ConversionOptions} {text : Text}
    (hfonts : options.fonts = fs.provider)
    (htext : t.toText root inherited attachments options = .ok text) :
    t.CombinesFonts fs inherited { options, attachments } text := by
  have hlinked := h.linked
  refine ⟨?_, Conversion.forall₂_of_gather ?_ ((toText_eq_ok_iff hlinked).1 htext)⟩
  · intro v hreach hleaf
    have hrole : v.role ≠ .item := by
      intro hitem
      rw [hreach.kind_of_item hitems hitem] at hleaf
      simp [Kind.leafText?, Kind.literal?, Kind.destination?] at hleaf
    rcases hleaf with hleaf | himage
    · exact ⟨.leaf, by simp, (mem_stopsFrom_iff hlinked).2 ⟨hreach, hrole, hleaf⟩⟩
    · exact ⟨.image, by simp, (mem_stopsFrom_iff hlinked).2 ⟨hreach, hrole, himage⟩⟩
  · intro s hs row hrow
    obtain ⟨hreach, hshows⟩ := (mem_stopsFrom_iff hlinked).1 hs
    have hhtml : s.part ≠ .html := by
      intro hpart
      rw [hpart, Shows, hraw.holdsHtml] at hshows
      simp at hshows
    obtain ⟨r, rfl, hr⟩ := Conversion.exists_run_of_runsAt hhtml hrow
    refine ⟨r, rfl, hrow, fun hpart => ?_⟩
    rw [hr hpart, hreach.get?_font hfonts, hreach.path_eq_ancestors hlinked hitems]

/-- A quotation with code in a heading, and a list with a word in it. -/
def gazette : Tree :=
  (((((((((ofRoot .document).push 0 .blockQuote).push 1 (.heading 1)).push 2 .strong).push 3
    .emphasis).push 4 (.code "main")).push 0 (.list .bullet 1 true)).push 6 .item).push 7
    .paragraph).push 8 (.text "News")

/-- Two families, one of them without bold and italic faces. -/
def typewriter : Font.Families := { combinesTraits := false }

/-- Text where a font should be. -/
def mislabelled : Attributes := .ofList [(.font, .text "Serif")]

/-- The code takes the default font, as there is none to start with, and loses its traits. Outside
of the quotation the font entry stays what it is. -/
theorem gazette_combines_fonts :
    gazette.Built ∧ gazette.ListsHoldItems ∧ gazette.NoHtmlBlocks ∧
      ∃ text, gazette.toText root mislabelled {} { fonts := typewriter.provider } = .ok text ∧
        gazette.CombinesFonts typewriter mislabelled
          { options := { fonts := typewriter.provider }, attachments := {} } text ∧
        text.runs.map (fun r => (r.text, r.attributes.get? .font)) =
          [("main", some (.font
              { family := "monospace", size := 13.0 * 2.0, traits := { monospace := true } })),
            ("\u2029", none), ("\t• ", some (.text "Serif")), ("News", some (.text "Serif"))] := by
  have hbuilt : gazette.Built := by
    unfold gazette
    repeat refine .push _ ?_ (by simp)
    exact .ofRoot _
  have hitems : gazette.ListsHoldItems := by decide
  have hraw : gazette.NoHtmlBlocks := by decide
  refine ⟨hbuilt, hitems, hraw, _, rfl, ?_, rfl⟩
  exact toText_combines_fonts hbuilt hitems hraw rfl rfl

end Tree

end StyledText.Markdown
