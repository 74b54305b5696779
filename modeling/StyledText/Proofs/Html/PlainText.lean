import StyledText.Markdown.Html.Renderer
import StyledText.Proofs.Chars.Ink
import StyledText.Proofs.Html.Pieces

/-!
# The plain text of written HTML

Writer and tokenizer agree on every tree without raw markup: each tag that was written is read as
one tag, and each text as its characters. So the plain text of what was written can be given, and
its ink is that of the literals (`render_toHtml`).
-/

namespace StyledText.Markdown

namespace Html

open Chars (ink isBlank)

/-! ## Tags -/

/-- The name of an element begins with a letter. -/
theorem Element.exists_name (e : Element) : ∃ c cs, e.name.toList = c :: cs ∧ c.isAlpha := by
  cases e with
  | h level => exact ⟨'h', level.repr.toList, by simp [name], by decide⟩
  | _ => exact ⟨_, _, rfl, by decide⟩

/-- No name ends a tag. -/
theorem Element.not_mem_name (e : Element) : '>' ∉ e.name.toList := by
  cases e with
  | h level =>
    have hdigits : '>' ∉ Nat.toDigits 10 level := fun hmem =>
      absurd (Nat.isDigit_of_mem_toDigits (by decide) (by decide) hmem) (by decide)
    simp [name, hdigits]
  | _ => decide

/-- No property ends a tag: its value is escaped. -/
theorem Property.not_mem_print (p : Property) : '>' ∉ p.print.toList := by
  have hkey : '>' ∉ p.key.toList := by cases p <;> simp [key]
  have hvalue := not_mem_escapeChars (.inr (.inl rfl)) p.value.toList
  simp [print, hkey, hvalue]

/-- Properties do not end a tag. -/
theorem not_mem_printProperties (ps : List Property) : '>' ∉ (printProperties ps).toList := by
  induction ps with
  | nil => simp
  | cons p ps ih =>
    rw [printProperties_cons, String.toList_append, List.mem_append, not_or]
    exact ⟨p.not_mem_print, ih⟩

namespace Markup

/-- A tag ends at its own bracket, whatever its properties are. -/
theorem not_mem_body (m : Markup) : '>' ∉ m.body.toList := by
  cases m <;> simp [body, Element.not_mem_name, not_mem_printProperties]

/-- A tag is taken for one. -/
theorem opensTag_body (m : Markup) (rest : List Char) :
    opensTag (m.body.toList ++ rest) = true := by
  cases m with
  | opening e properties =>
    rcases e.exists_name with ⟨c, cs, hname, halpha⟩
    simp [body, hname, opensTag, halpha]
  | closing e => simp [body, opensTag]
  | void e properties =>
    rcases e.exists_name with ⟨c, cs, hname, halpha⟩
    simp [body, hname, opensTag, halpha]

end Markup

/-! ## Tokens -/

/-- The tokens of a piece. Copied markup is left out: what becomes of it depends on what follows. -/
def Piece.tokens : Piece → List Token
  | tag m => [.tag m.body.toList]
  | text s => (escapeChars s.toList).map .char
  | newline => [.char '\n']
  | raw _ => []

/-- Whether characters are read as these tokens, at whatever byte they start. -/
def ReadAs (cs : List Char) (ts : List Token) : Prop := ∀ offset, tokensFrom offset none cs = .ok ts

/-- Characters outside of tags are read as they stand. -/
theorem ReadAs.chars {cs : List Char} {ts : List Token} (h : ReadAs cs ts) {passed : List Char}
    (hpassed : '<' ∉ passed) : ReadAs (passed ++ cs) (passed.map .char ++ ts) := by
  induction passed with
  | nil => exact h
  | cons c passed ih =>
    intro offset
    simp only [List.mem_cons, not_or] at hpassed
    have hc : (c = '<' && opensTag (passed ++ cs)) = false := by simp [Ne.symm hpassed.1]
    rw [List.cons_append, tokensFrom]
    simp only [hc, ih hpassed.2 _]
    rfl

/-- A tag is read to its end. -/
theorem tokensFrom_inside {cs : List Char} {ts : List Token} (h : ReadAs cs ts) :
    ∀ (body : List Char) (offset start : Nat) (read : List Char), '>' ∉ body →
      tokensFrom offset (some (start, read)) (body ++ '>' :: cs) =
        .ok (.tag (read.reverse ++ body) :: ts)
  | [], offset, start, read, _ => by simp [tokensFrom, h _]
  | c :: body, offset, start, read, hbody => by
    simp only [List.mem_cons, not_or] at hbody
    rw [List.cons_append, tokensFrom]
    simp [Ne.symm hbody.1, tokensFrom_inside h body _ start (c :: read) hbody.2]

/-- What stands between brackets is read as one tag. -/
theorem ReadAs.tag {cs : List Char} {ts : List Token} (h : ReadAs cs ts) {body : List Char}
    (hopens : opensTag (body ++ '>' :: cs) = true) (hbody : '>' ∉ body) :
    ReadAs ('<' :: (body ++ '>' :: cs)) (.tag body :: ts) := by
  -- A tag is read up to the first bracket behind it, which is its own.
  intro offset
  rw [tokensFrom]
  simp [hopens, tokensFrom_inside h body _ _ [] hbody]

/-- What was written is read piece by piece. -/
theorem readAs_printAll {ps : List Piece} (h : ∀ s, .raw s ∉ ps) :
    ReadAs (printAll ps).toList (ps.flatMap Piece.tokens) := by
  induction ps with
  | nil => exact fun offset => rfl
  | cons p ps ih =>
    have hrest := ih fun s hs => h s (List.mem_cons_of_mem p hs)
    rw [printAll_cons, String.toList_append, List.flatMap_cons]
    cases p with
    | tag m => simpa [Piece.print, Piece.tokens] using hrest.tag (m.opensTag_body _) m.not_mem_body
    | text s =>
      rw [Piece.print, toList_escape]
      exact hrest.chars (not_mem_escapeChars (.inl rfl) s.toList)
    | newline => exact hrest.chars (show '<' ∉ ['\n'] by decide)
    | raw s => exact absurd List.mem_cons_self (h s)

/-- Pieces in print are read as their tokens. -/
theorem tokens_printAll {ps : List Piece} (h : ∀ s, .raw s ∉ ps) :
    tokens (printAll ps).toList = .ok (ps.flatMap Piece.tokens) := readAs_printAll h 0

/-! ## Blocks -/

/-- What a piece shows, its text unescaped. -/
def Piece.effects : Piece → List Token.Effect
  | tag m => [Token.effect (.tag m.body.toList)]
  | text s => s.toList.map .shows
  | newline => [.shows '\n']
  | raw _ => []

/-- What is shown of an effect whose character has been escaped. -/
def Token.Effect.escape : Token.Effect → List Token.Effect
  | shows c => (escapeChar c).map .shows
  | e => [e]

/-- A tag shows no character but the end of a line. -/
theorem effect_tag (body : List Char) : Token.effect (.tag body) = .shows lineSeparator ∨
    Token.effect (.tag body) = .blockEnd ∨ Token.effect (.tag body) = .nothing := by
  simp only [Token.effect]
  split
  · exact .inl rfl
  · split
    · exact .inr (.inl rfl)
    · exact .inr (.inr rfl)

theorem escapeChar_lineSeparator : escapeChar lineSeparator = [lineSeparator] := rfl

/-- The tokens of a piece have its effects, with characters escaped. -/
theorem map_effect_tokens (p : Piece) :
    p.tokens.map Token.effect = p.effects.flatMap Token.Effect.escape := by
  cases p with
  | tag m =>
    rcases effect_tag m.body.toList with h | h | h <;>
      simp [Piece.tokens, Piece.effects, h, Token.Effect.escape, escapeChar_lineSeparator]
  | text s =>
    simp only [Piece.tokens, Piece.effects, escapeChars, List.map_flatMap, List.flatMap_map,
      List.map_map]
    rfl
  | newline => rfl
  | raw s => rfl

/-- The characters of escaped effects are escaped. -/
theorem filterMap_char?_escape (es : List Token.Effect) :
    (es.flatMap Token.Effect.escape).filterMap Token.Effect.char? =
      escapeChars (es.filterMap Token.Effect.char?) := by
  induction es with
  | nil => rfl
  | cons e es ih =>
    rw [List.flatMap_cons, List.filterMap_append, ih]
    cases e with
    | shows c =>
      simp [Token.Effect.escape, Token.Effect.char?, escapeChars, Function.comp_def]
    | _ => rfl

/-- The blocks of what was written are those of its unescaped pieces, escaped. -/
theorem rawBlocks_tokens (ps : List Piece) :
    rawBlocks (ps.flatMap Piece.tokens) =
      (((ps.flatMap Piece.effects).splitOn .blockEnd).map
        (·.filterMap Token.Effect.char?)).map escapeChars := by
  have heffects : (ps.flatMap Piece.tokens).map Token.effect =
      (ps.flatMap Piece.effects).flatMap Token.Effect.escape := by
    rw [List.map_flatMap, List.flatMap_assoc]
    exact List.flatMap_congr fun p _ => map_effect_tokens p
  -- No escaped character ends a block, so the blocks can be cut before they are escaped.
  have hcut : ∀ e : Token.Effect, e ≠ .blockEnd → .blockEnd ∉ e.escape := by
    intro e he
    cases e <;> simp_all [Token.Effect.escape]
  have hkeep : Token.Effect.escape .blockEnd = [.blockEnd] := rfl
  rw [rawBlocks, heffects, Chars.splitOn_flatMap hkeep hcut, List.map_map, List.map_map]
  exact List.map_congr_left fun es _ => filterMap_char?_escape es

/-- Escaping neither makes nor hides line separators. -/
theorem splitOn_lineSeparator_escapeChars (cs : List Char) :
    (escapeChars cs).splitOn lineSeparator = (cs.splitOn lineSeparator).map escapeChars := by
  have hcut : ∀ d, d ≠ lineSeparator → lineSeparator ∉ escapeChar d := fun d hd =>
    not_mem_escapeChar (by decide) hd
  exact Chars.splitOn_flatMap escapeChar_lineSeparator hcut cs

/-- Tidying an escaped block leaves its ink as it was before it was escaped. -/
theorem ink_tidyBlock_escapeChars (cs : List Char) : ink (tidyBlock (escapeChars cs)) = ink cs := by
  have hline : ∀ line, ink (Chars.squeeze (decode (escapeChars line))) = ink line := by
    intro line
    rw [decode_escapeChars, Chars.ink_squeeze]
  rw [tidyBlock, Chars.ink_intercalate (by decide), splitOn_lineSeparator_escapeChars,
    List.map_map, List.flatMap_map]
  simp only [Function.comp_def, hline]
  apply Chars.ink_flatten_splitOnP
  intro c hc
  rw [beq_iff_eq.mp hc]
  decide

/-- Blocks are left out only where there is no ink. -/
theorem flatMap_ink_blocks (ts : List Token) :
    (blocks ts).flatMap ink = (rawBlocks ts).flatMap fun cs => ink (tidyBlock cs) := by
  rw [blocks, Chars.flatMap_ink_filter, List.flatMap_map]

/-- Cutting where blocks end keeps all that is shown. -/
theorem flatten_splitOn_blockEnd (es : List Token.Effect) :
    ((es.splitOn .blockEnd).map (·.filterMap Token.Effect.char?)).flatten =
      es.filterMap Token.Effect.char? := by
  rw [← List.filterMap_flatten, List.splitOn_eq_splitOnP, Chars.flatten_splitOnP,
    List.filterMap_filter]
  congr 1
  funext e
  cases e <;> rfl

/-- Tags and ends of lines have no ink. -/
theorem ink_effects (ps : List Piece) :
    ink ((ps.flatMap Piece.effects).filterMap Token.Effect.char?) =
      ink ((texts ps).flatMap String.toList) := by
  induction ps with
  | nil => rfl
  | cons p ps ih =>
    rw [List.flatMap_cons, List.filterMap_append, Chars.ink_append, ih]
    cases p with
    | tag m =>
      have hblank : ink [lineSeparator] = [] := by decide
      rcases effect_tag m.body.toList with h | h | h <;>
        simp [Piece.effects, h, Token.Effect.char?, List.filterMap_cons, hblank]
    | text s =>
      simp [Piece.effects, Token.Effect.char?, Function.comp_def]
    | newline => rfl
    | raw s => rfl

/-- The plain text of written pieces has the ink of their texts. -/
theorem exists_plainText_printAll {ps : List Piece} (h : ∀ s, .raw s ∉ ps) :
    ∃ s, plainText (printAll ps) = .ok s ∧
      ink s.toList = ink ((texts ps).flatMap String.toList) := by
  rw [plainText, tokens_printAll h]
  refine ⟨_, rfl, ?_⟩
  -- Block by block and line by line, entities are read in what was escaped as a whole.
  rw [String.toList_ofList, Chars.ink_intercalate (by decide), flatMap_ink_blocks,
    rawBlocks_tokens, List.flatMap_map]
  simp only [ink_tidyBlock_escapeChars]
  rw [← Chars.ink_flatten, flatten_splitOn_blockEnd, ink_effects]

end Html

open Html

namespace Tree

/-- Of a subtree without raw markup, the plain text that is rendered from its HTML has the ink of
the literals, in document order: no string of the tree is taken for markup, and none is lost. -/
theorem plainText_render_toHtml (t : Tree) (id : NodeId) (base : Attributes)
    (h : ∀ s, .htmlBlock s ∉ (t.outline id).kinds ∧ .inlineHtml s ∉ (t.outline id).kinds) :
    ∃ s, HtmlRenderer.plainText.render (t.outline id).toHtml base = .ok (.styled s base) ∧
      Chars.ink s.toList = Chars.ink ((t.outline id).literals.flatMap String.toList) := by
  have hraw : ∀ s, .raw s ∉ (t.outline id).pieces false := by
    intro s hs
    rcases Outline.holdsRaw_of_mem_pieces false s _ hs with ⟨literal, hkind | hkind⟩
    · exact (h literal).1 hkind
    · exact (h literal).2 hkind
  rcases exists_plainText_printAll hraw with ⟨s, hs, hink⟩
  rw [Outline.texts_pieces] at hink
  refine ⟨s, ?_, hink⟩
  rw [Outline.toHtml_eq]
  simp only [HtmlRenderer.plainText, hs]

/-- A document whose strings all look like markup. -/
def postcard : Tree :=
  ((((((ofRoot .document).push 0 .paragraph).push 1 (.text "</p><hr> & \"so\"")).push 1
    (.link "\">" "<br")).push 3 (.code "&lt;")).push 1 (.image "<" ">" "\"")).push 0
    (.codeBlock "\"> x" "a < b\n")

/-- The plain text of the postcard has its words, as they were before escaping. -/
theorem postcard_plainText :
    (∀ s, .htmlBlock s ∉ (postcard.outline 0).kinds ∧ .inlineHtml s ∉ (postcard.outline 0).kinds) ∧
    ∃ s, HtmlRenderer.plainText.render (postcard.outline 0).toHtml {} = .ok (.styled s {}) ∧
      Chars.ink s.toList = "</p><hr>&\"so\"&lt;a<b".toList := by
  have hkinds : (postcard.outline 0).kinds = [.document, .paragraph, .text "</p><hr> & \"so\"",
      .link "\">" "<br", .code "&lt;", .image "<" ">" "\"", .codeBlock "\"> x" "a < b\n"] := by
    decide
  have hraw : ∀ s, .htmlBlock s ∉ (postcard.outline 0).kinds ∧
      .inlineHtml s ∉ (postcard.outline 0).kinds := by
    simp [hkinds]
  rcases plainText_render_toHtml postcard 0 {} hraw with ⟨s, hrender, hink⟩
  refine ⟨hraw, s, hrender, hink.trans ?_⟩
  decide

end Tree

end StyledText.Markdown
