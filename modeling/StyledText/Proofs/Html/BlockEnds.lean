import StyledText.Proofs.Conversion.Blocks
import StyledText.Proofs.Html.Cells
import StyledText.Proofs.Html.Layout
import StyledText.Proofs.Html.Nesting

/-!
# Blocks of the plain text

The plain text of what was written is cut into blocks where the tags of a node end one. A paragraph
in a tight list has no tags, so it shares its block with what follows up to the next such end. A
conversion without the detour over HTML would keep it apart (`toText_keeps_blocks_apart`).

* `seen_pieces`: what is seen of the written pieces are the cells of the writer's tour.
* `plainText_cuts_at_ends` is the result, and `errands_share_block` a block of two paragraphs.
-/

namespace StyledText.Markdown

open Chars (ink isBlank)

/-! ## What is seen -/

namespace Html

/-- Whether an effect shows ink or ends a block. -/
def Token.Effect.isSeen : Token.Effect → Bool
  | shows c => !isBlank c
  | blockEnd => true
  | nothing => false

def seen (ps : List Piece) : List Token.Effect :=
  (ps.flatMap Piece.effects).filter Token.Effect.isSeen

def Element.isBlock : Element → Bool
  | blockquote | p | pre | ul | ol | li | hr => true
  | h level => 1 ≤ level && level ≤ 6
  | _ => false

/-- The headings that are blocks have six levels. -/
theorem heading_mem_blockElements_iff (level : Nat) :
    (Element.h level).name ∈ blockElements ↔ 1 ≤ level ∧ level ≤ 6 := by
  constructor
  · intro hmem
    -- A level has only one way to be written in digits, so an unlisted level is an unlisted name.
    have hnames : ∀ name ∈ blockElements, name.toList.head? = some 'h' →
        name.toList.tail = ['r'] ∨ ∃ n ∈ [1, 2, 3, 4, 5, 6],
          name.toList.tail = Nat.toDigits 10 n := by decide
    have htail : (Element.h level).name.toList.tail = Nat.toDigits 10 level := by
      simp [Element.name]
    have hname := hnames _ hmem (by simp [Element.name])
    rw [htail] at hname
    rcases hname with hr | ⟨n, hn, hdigits⟩
    · have hdigit : 'r'.isDigit :=
        Nat.isDigit_of_mem_toDigits (by decide) (by decide) (hr ▸ List.mem_singleton_self 'r')
      exact absurd hdigit (by decide)
    · have hlevel := congrArg (Nat.ofDigitChars 10 · 0) hdigits
      simp only [Nat.ofDigitChars_toDigits (by decide : 1 < 10) (Nat.le_refl 10)] at hlevel
      simp only [List.mem_cons, List.not_mem_nil, or_false] at hn
      omega
  · rintro ⟨hle, hge⟩
    have hall : ∀ n < 7, 1 ≤ n → (Element.h n).name ∈ blockElements := by decide
    exact hall level (by omega) hle

/-- The names that end a block are those of block elements. -/
theorem Element.name_mem_blockElements_iff (e : Element) :
    e.name ∈ blockElements ↔ e.isBlock := by
  cases e with
  | h level => simpa [isBlock] using heading_mem_blockElements_iff level
  | _ => decide

/-- No other element is named like a rule. -/
theorem Element.name_eq_hr_iff (e : Element) : e.name = "hr" ↔ e = .hr := by
  cases e with
  | h level =>
    refine iff_of_false ?_ Element.noConfusion
    intro hname
    have hblock : (Element.h level).name ∈ blockElements := by
      rw [hname]
      decide
    obtain ⟨-, hle⟩ := (heading_mem_blockElements_iff level).1 hblock
    have hall : ∀ n < 7, (Element.h n).name ≠ "hr" := by decide
    exact hall level (by omega) hname
  | _ => decide

def TagMark.endsBlock : TagMark → Bool
  | opening name => name = "hr"
  | closing name => name ∈ blockElements

/-- Of the opening tags, only that of a rule ends a block. -/
theorem endsBlock_opening (e : Element) : (TagMark.opening e.name).endsBlock = (e = .hr) := by
  simp [TagMark.endsBlock, e.name_eq_hr_iff]

/-- A closing tag ends a block if it closes a block element. -/
theorem endsBlock_closing (e : Element) : (TagMark.closing e.name).endsBlock = e.isBlock := by
  simp [TagMark.endsBlock, e.name_mem_blockElements_iff]

/-- A tag is seen where it ends a block, and nowhere else. -/
theorem filter_effect_tag (body : List Char) :
    [Token.effect (.tag body)].filter Token.Effect.isSeen =
      if (TagMark.ofBody body).endsBlock then [.blockEnd] else [] := by
  have hline : Token.Effect.isSeen (.shows lineSeparator) = false := by decide
  have hbr : "br" ∉ blockElements := by decide
  have hhr : "hr" ∈ blockElements := by decide
  rw [Token.effect, TagMark.ofBody]
  by_cases hname : tagName body = "br"
  · by_cases hend : isEndTag body <;> simp [hname, hend, hline, hbr, TagMark.endsBlock]
  · by_cases hend : isEndTag body
    · by_cases hblock : tagName body ∈ blockElements <;>
        simp [hname, hend, hblock, TagMark.endsBlock, Token.Effect.isSeen]
    · by_cases hrule : tagName body = "hr" <;>
        simp [hrule, hname, hend, hhr, TagMark.endsBlock, Token.Effect.isSeen]

section Seen

variable (ps : List Piece)

@[simp] theorem seen_nil : seen [] = [] := rfl

@[simp] theorem seen_append (qs : List Piece) : seen (ps ++ qs) = seen ps ++ seen qs := by
  rw [seen, List.flatMap_append, List.filter_append, seen, seen]

@[simp] theorem seen_text (s : String) :
    seen (.text s :: ps) = (ink s.toList).map .shows ++ seen ps := by
  rw [seen, List.flatMap_cons, List.filter_append, Piece.effects, List.filter_map, seen]
  rfl

@[simp] theorem seen_newline : seen (.newline :: ps) = seen ps := rfl

@[simp] theorem seen_raw (s : String) : seen (.raw s :: ps) = seen ps := rfl

/-- Of a tag, one sees the end of a block or nothing. -/
@[simp] theorem seen_tag (m : Markup) :
    seen (.tag m :: ps) = (if m.mark.endsBlock then [.blockEnd] else []) ++ seen ps := by
  rw [seen, List.flatMap_cons, List.filter_append, Piece.effects, filter_effect_tag, m.ofBody_body,
    seen]

/-- An element that is written around pieces is seen by its end. -/
@[simp] theorem seen_wrap {e : Element} (he : e ≠ .hr) (properties : List Property) :
    seen (e.wrap properties ps) = seen ps ++ if e.isBlock then [.blockEnd] else [] := by
  simp [Element.wrap, Markup.mark, endsBlock_opening, endsBlock_closing, he]

end Seen

/-! ## Blocks -/

/-- What is seen of effects has the characters that are not blank. -/
theorem filterMap_char?_filter (es : List Token.Effect) :
    (es.filter Token.Effect.isSeen).filterMap Token.Effect.char? =
      ink (es.filterMap Token.Effect.char?) := by
  induction es with
  | nil => rfl
  | cons e es ih =>
    cases e with
    | shows c =>
      by_cases hblank : isBlank c <;>
        simp_all [Token.Effect.isSeen, Token.Effect.char?, ink]
    | blockEnd => exact ih
    | nothing => exact ih

/-- The ink of the blocks is what is seen between their ends, where something is seen. -/
theorem map_ink_blocks (ps : List Piece) : (blocks (ps.flatMap Piece.tokens)).map ink =
    (((seen ps).splitOn .blockEnd).map (·.filterMap Token.Effect.char?)).filter (!·.isEmpty) := by
  have hinked : (fun block : List Char => block.any (!isBlank ·)) =
      (fun inked : List Char => !inked.isEmpty) ∘ ink := by
    funext block
    rw [Bool.eq_iff_iff, Chars.any_not_isBlank_iff]
    simp
  have hparts : ((rawBlocks (ps.flatMap Piece.tokens)).map tidyBlock).map ink =
      ((seen ps).splitOn .blockEnd).map (·.filterMap Token.Effect.char?) := by
    rw [rawBlocks_tokens, seen, Chars.splitOn_filter rfl]
    simp only [List.map_map, Function.comp_def, ink_tidyBlock_escapeChars, filterMap_char?_filter]
  rw [blocks, hinked, ← List.filter_map, hparts]

end Html

open Html

/-- The characters of the parts are what the cells show between the ends of blocks. -/
theorem Cell.splitOn_map_effect (cells : List Cell) :
    ((cells.map effect).splitOn .blockEnd).map (·.filterMap Token.Effect.char?) =
      (parts cells).map (·.map Glyph.char) := by
  -- The induction is on the cells, like the definition of the parts.
  induction cells with
  | nil => rfl
  | cons cell cells ih =>
    rw [List.map_cons, List.splitOn_cons_eq_if_modifyHead]
    cases cell with
    | glyph g =>
      obtain ⟨first, rest, hparts⟩ := exists_parts_eq cells
      obtain ⟨part, more, hsplit⟩ := List.exists_cons_of_ne_nil
        (List.splitOn_ne_nil Token.Effect.blockEnd (cells.map effect))
      rw [hparts, hsplit] at ih
      obtain ⟨hfirst, hrest⟩ := List.cons.inj ih
      simp [effect, parts, hparts, hsplit, Token.Effect.char?, hfirst, hrest]
    | blockEnd p => simp [effect, parts, ih]

namespace Outline

/-- The ends of lines inside an item are not seen. -/
theorem seen_piecesItem (tight : Bool) (os : List Outline) (first : Bool) (before : List Piece) :
    seen (piecesItem tight first os before) = seen before ++ seen (piecesAll tight os) := by
  induction os generalizing first before with
  | nil => simp [piecesItem, piecesAll]
  | cons o rest ih =>
    rw [piecesItem, ih, piecesAll, seen_append, seen_append, ← List.append_assoc]
    congr 2
    split <;> simp

mutual

/-- What is seen of the pieces are the steps of the tour. -/
theorem seen_pieces (tight : Bool) : ∀ o : Outline,
    seen (pieces tight o) = (tour tight o).flatMap TourStep.effects
  | .node kind children => by
    have hall := fun tight => seen_piecesAll tight 0 children
    have hitem := seen_piecesItem tight children true []
    cases kind with
    | paragraph =>
      cases tight <;> simp [pieces, tour, hall, Kind.goesOn, Kind.tightBelow,
        TourStep.effects_enter, TourStep.effects_leave, Kind.ownText, Written.endsBlock,
        Element.isBlock]
    | list kind start tight =>
      cases kind <;> simp [pieces, tour, hall, Kind.goesOn, Kind.tightBelow,
        TourStep.effects_enter, TourStep.effects_leave, Kind.ownText, Written.endsBlock,
        Element.isBlock, listElement]
    | _ => simp [pieces, tour, hall, hitem, Kind.goesOn, Kind.tightBelow, TourStep.effects_enter,
        TourStep.effects_leave, Kind.ownText, Written.endsBlock, Element.isBlock, Markup.mark,
        endsBlock_opening]

/-- The tour of siblings has what is seen of them. -/
theorem seen_piecesAll (tight : Bool) : ∀ (i : Nat) (os : List Outline),
    seen (piecesAll tight os) = (tourAll tight i os).flatMap TourStep.effects
  | i, [] => rfl
  | i, o :: rest => by
    rw [piecesAll, seen_append, seen_pieces tight o, seen_piecesAll tight (i + 1) rest, tourAll,
      List.flatMap_append, List.flatMap_map]
    simp only [TourStep.effects_under]

end

/-- What is seen of a node are its cells. -/
theorem seen_pieces_eq (o : Outline) : seen (o.pieces false) = o.cells.map Cell.effect := by
  rw [seen_pieces, cells, List.map_flatMap]
  rfl

/-! ## Cutting -/

/-- How the plain text of a node is cut: the glyphs of its blocks. -/
structure CutInto (o : Outline) (parts : List (List Glyph)) : Prop where
  /-- Nothing is lost or moved. -/
  flatten_eq : parts.flatten = o.glyphs
  /-- Glyphs share a block iff no node whose end ends a block ends between them. -/
  shares_iff : ∀ g ∈ o.glyphs, ∀ g' ∈ o.glyphs,
    (∃ part ∈ parts, g ∈ part ∧ g' ∈ part) ↔ ∀ n ∈ o.written, n.endsBlock →
      (EndsBefore n.place g.place ↔ EndsBefore n.place g'.place)
  /-- Of two blocks of text that share a block, the first is a paragraph without tags. -/
  apart : ∀ a ∈ o.written, ∀ b ∈ o.written, a.isLeafBlock → b.isLeafBlock →
    ¬ a.place <+: b.place → ¬ b.place <+: a.place → ∀ part ∈ parts,
    ∀ g ∈ part, ∀ g' ∈ part, a.place <+: g.place → b.place <+: g'.place →
      EndsBefore a.place b.place ∧ a.kind = .paragraph ∧ a.tight ∨
      EndsBefore b.place a.place ∧ b.kind = .paragraph ∧ b.tight

/-- The ink of the blocks are the parts of the cells, where there are glyphs. -/
theorem map_ink_blocks_pieces (o : Outline) :
    (blocks ((o.pieces false).flatMap Piece.tokens)).map ink =
      ((Cell.parts o.cells).filter (!·.isEmpty)).map (·.map Glyph.char) := by
  have hempty : (fun chars : List Char => !chars.isEmpty) ∘ List.map Glyph.char =
      fun part : List Glyph => !part.isEmpty := by
    funext part
    rw [Function.comp_apply, List.isEmpty_map]
  rw [map_ink_blocks, seen_pieces_eq, Cell.splitOn_map_effect, List.filter_map, hempty]

section CutInto

variable {o : Outline} {parts : List (List Glyph)}

/-- Two glyphs that share a block see the same ends before them, so the block of the first is not
ended. Of the blocks of text, only a paragraph without tags is not. -/
theorem tight_of_shares (hlevel : ∀ level, .heading level ∈ o.kinds → 1 ≤ level ∧ level ≤ 6)
    {a b : Written} (ha : a ∈ o.written) (hleaf : a.isLeafBlock)
    (hends : EndsBefore a.place b.place) {g g' : Glyph} (hg : a.place <+: g.place)
    (hg' : b.place <+: g'.place)
    (hsame : a.endsBlock → (EndsBefore a.place g.place ↔ EndsBefore a.place g'.place)) :
    a.kind = .paragraph ∧ a.tight := by
  have hopen : ¬ a.endsBlock := fun h =>
    not_endsBefore_of_prefix hg ((hsame h).2 (hends.of_prefix hg'))
  have hkind := kind_mem_kinds ha
  obtain ⟨place, tight, kind⟩ := a
  cases kind with
  | paragraph => simpa [Written.endsBlock] using hopen
  | heading level => exact absurd (by simpa [Written.endsBlock] using hlevel level hkind) hopen
  | codeBlock info literal => exact absurd rfl hopen
  | _ => cases hleaf

/-- Of the parts that have glyphs, none is lost and none is new. -/
theorem mem_iff_mem_parts (h : parts.filter (!·.isEmpty) = (Cell.parts o.cells).filter (!·.isEmpty))
    {part : List Glyph} {g : Glyph} (hg : g ∈ part) : part ∈ parts ↔ part ∈ Cell.parts o.cells := by
  have hfilter : ∀ {all : List (List Glyph)}, part ∈ all ↔ part ∈ all.filter (!·.isEmpty) := by
    intro all
    rw [List.mem_filter, and_iff_left (by simpa using List.ne_nil_of_mem hg)]
  rw [hfilter, h, ← hfilter]

/-- The cells are cut as the text is. Parts without glyphs do not count. -/
theorem cutInto_of_filter (hlevel : ∀ level, .heading level ∈ o.kinds → 1 ≤ level ∧ level ≤ 6)
    (h : parts.filter (!·.isEmpty) = (Cell.parts o.cells).filter (!·.isEmpty)) :
    o.CutInto parts := by
  have hflatten : parts.flatten = o.glyphs := by
    rw [← List.flatten_filter_not_isEmpty, h, List.flatten_filter_not_isEmpty, Cell.flatten_parts,
      filterMap_cells]
  have hshares : ∀ g ∈ o.glyphs, ∀ g' ∈ o.glyphs,
      (∃ part ∈ parts, g ∈ part ∧ g' ∈ part) ↔ ∀ n ∈ o.written, n.endsBlock →
        (EndsBefore n.place g.place ↔ EndsBefore n.place g'.place) := by
    intro g hg g' hg'
    have hparts : (∃ part ∈ parts, g ∈ part ∧ g' ∈ part) ↔
        ∃ part ∈ Cell.parts o.cells, g ∈ part ∧ g' ∈ part :=
      exists_congr fun part => and_congr_left fun hmem => mem_iff_mem_parts h hmem.1
    rw [hparts, Cell.shares_iff o.cells_inOrder (glyph_mem_cells_iff.2 hg)
      (glyph_mem_cells_iff.2 hg')]
    simp only [blockEnd_mem_cells_iff]
    constructor
    · intro hsame n hn hends
      exact hsame n.place ⟨n, hn, hends, rfl⟩
    · rintro hsame p ⟨n, hn, hends, rfl⟩
      exact hsame n hn hends
  -- What shares a part has the same ends in front of it. If one leaf block ends before the other
  -- begins, that leaves paragraphs in tight lists.
  refine ⟨hflatten, hshares, ?_⟩
  intro a ha b hb hleafa hleafb hab hba part hpart g hg g' hg' hga hgb
  have hglyph : ∀ d ∈ part, d ∈ o.glyphs := fun d hd =>
    hflatten ▸ List.mem_flatten.2 ⟨part, hpart, hd⟩
  have hsame := (hshares g (hglyph g hg) g' (hglyph g' hg')).1 ⟨part, hpart, hg, hg'⟩
  -- Whichever of the two comes first, its end would stand between the glyphs.
  rcases endsBefore_or_endsBefore hab hba with hends | hends
  · exact .inl ⟨hends, tight_of_shares hlevel ha hleafa hends hga hgb (hsame a ha)⟩
  · exact .inr ⟨hends, tight_of_shares hlevel hb hleafb hends hgb hga fun h => (hsame b hb h).symm⟩

end CutInto

end Outline

namespace Tree

/-- Of a subtree without raw markup whose headings have the six levels, the plain text is cut into
blocks where a node ends that ends one. Only a paragraph without tags does not. -/
theorem plainText_cuts_at_ends (t : Tree) (id : NodeId) (base : Attributes)
    (hraw : ∀ s, .htmlBlock s ∉ (t.outline id).kinds ∧ .inlineHtml s ∉ (t.outline id).kinds)
    (hlevel : ∀ level, .heading level ∈ (t.outline id).kinds → 1 ≤ level ∧ level ≤ 6) :
    ∃ s parts, HtmlRenderer.plainText.render (t.outline id).toHtml base = .ok (.styled s base) ∧
      (s.toList.splitOn paragraphSeparator).map ink = parts.map (·.map Glyph.char) ∧
      (t.outline id).CutInto parts := by
  have hholds : ¬ Outline.HoldsRaw (t.outline id).kinds := by
    rintro ⟨s, hs | hs⟩
    · exact (hraw s).1 hs
    · exact (hraw s).2 hs
  have htokens := tokens_printAll (Outline.raw_not_mem_pieces hholds false)
  have hink := Outline.map_ink_blocks_pieces (t.outline id)
  refine ⟨.ofList (List.intercalate [paragraphSeparator]
    (blocks (((t.outline id).pieces false).flatMap Piece.tokens))), ?_⟩
  rw [Outline.toHtml_eq, String.toList_ofList]
  simp only [HtmlRenderer.plainText, plainText, htokens]
  by_cases hnone : blocks (((t.outline id).pieces false).flatMap Piece.tokens) = []
  · -- A text without blocks is cut into one part, which is empty.
    refine ⟨[[]], rfl, ?_, Outline.cutInto_of_filter hlevel ?_⟩
    · rw [hnone]
      rfl
    · rw [hnone, List.map_nil, eq_comm, List.map_eq_nil_iff] at hink
      rw [hink]
      rfl
  · refine ⟨(Cell.parts (t.outline id).cells).filter (!·.isEmpty), rfl, ?_,
      Outline.cutInto_of_filter hlevel ?_⟩
    · rw [splitOn_blocks hnone, hink]
    · rw [List.filter_filter]
      simp only [Bool.and_self]

/-- A tight list in a tight list. The outer item goes on behind the inner list. -/
def errands : Tree :=
  ((((((((((ofRoot .document).push 0 (.list .bullet 1 true)).push 1 .item).push 2
    .paragraph).push 3 (.text "a")).push 2 (.list .bullet 1 true)).push 5 .item).push 6
    .paragraph).push 7 (.text "b")).push 2 .paragraph).push 9 (.text "c")

/-- The kinds of all that the tree holds. -/
theorem errands_kinds : (errands.outline 0).kinds =
    [.document, .list .bullet 1 true, .item, .paragraph, .text "a", .list .bullet 1 true, .item,
      .paragraph, .text "b", .paragraph, .text "c"] := by
  decide

/-- Plain text cuts this tree at the ends of blocks. -/
theorem errands_cuts_at_ends :
    (∀ s, .htmlBlock s ∉ (errands.outline 0).kinds ∧ .inlineHtml s ∉ (errands.outline 0).kinds) ∧
    (∀ level, .heading level ∈ (errands.outline 0).kinds → 1 ≤ level ∧ level ≤ 6) ∧
    ∃ s parts, HtmlRenderer.plainText.render (errands.outline 0).toHtml {} = .ok (.styled s {}) ∧
      (s.toList.splitOn paragraphSeparator).map ink = parts.map (·.map Glyph.char) ∧
      (errands.outline 0).CutInto parts := by
  have hraw : ∀ s, .htmlBlock s ∉ (errands.outline 0).kinds ∧
      .inlineHtml s ∉ (errands.outline 0).kinds := by
    simp [errands_kinds]
  have hlevel : ∀ level, .heading level ∈ (errands.outline 0).kinds → 1 ≤ level ∧ level ≤ 6 := by
    simp [errands_kinds]
  exact ⟨hraw, hlevel, plainText_cuts_at_ends errands 0 {} hraw hlevel⟩

/-- Not all paragraphs are kept apart: those of both lists share a block. Converted directly, they
do not, as `toText_keeps_blocks_apart` says of all paragraphs in lists. -/
theorem errands_share_block :
    (∀ s, .htmlBlock s ∉ (errands.outline 0).kinds ∧ .inlineHtml s ∉ (errands.outline 0).kinds) ∧
    (∀ level, .heading level ∈ (errands.outline 0).kinds → 1 ≤ level ∧ level ≤ 6) ∧
    HtmlRenderer.plainText.render (errands.outline 0).toHtml {} =
      .ok (.styled "a b\u2029c" {}) ∧
    (∃ parts : List (List Glyph), ("a b\u2029c".toList.splitOn paragraphSeparator).map ink =
        parts.map (·.map Glyph.char) ∧ parts.flatten = (errands.outline 0).glyphs ∧
      ∃ a ∈ (errands.outline 0).written, ∃ b ∈ (errands.outline 0).written,
        a.kind = .paragraph ∧ b.kind = .paragraph ∧
        ¬ a.place <+: b.place ∧ ¬ b.place <+: a.place ∧
        ∃ part ∈ parts, ∃ g ∈ part, ∃ g' ∈ part, a.place <+: g.place ∧ b.place <+: g'.place) ∧
    (errands.toText 0 {} {} {}).map Text.string =
      .ok "\t• a\u2029\t\t◦ b\u2029c" := by
  refine ⟨by simp [errands_kinds], by simp [errands_kinds], rfl, ?_, rfl⟩
  refine ⟨[[⟨[0, 0, 0, 0], 'a'⟩, ⟨[0, 0, 1, 0, 0, 0], 'b'⟩], [⟨[0, 0, 2, 0], 'c'⟩]], by decide,
    by decide, ⟨[0, 0, 0], true, .paragraph⟩, by decide, ⟨[0, 0, 1, 0, 0], true, .paragraph⟩,
    by decide, rfl, rfl, by decide, by decide, _, List.mem_cons_self, _, List.mem_cons_self,
    _, List.mem_cons_of_mem _ List.mem_cons_self, by decide, by decide⟩

end Tree

end StyledText.Markdown
