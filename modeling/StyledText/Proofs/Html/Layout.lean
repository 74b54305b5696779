import StyledText.Markdown.Html.Renderer
import StyledText.Proofs.Chars.Squeezed

/-!
# The layout of plain text

The plain text of HTML is empty, or it is made of blocks that each show something, and they are made
of squeezed lines. In a line, the space is the only blank, so what sets lines and blocks apart
stands nowhere else, whatever was in the source.

* `splitOn_tidyBlock`: the lines of a block are those it was made of.
* `plainText_isLaidOut` is the result.
-/

namespace StyledText.Markdown

namespace Html

open Chars (isBlank IsSqueezed)

variable {cs : List Char}

/-- The lines that a block is made of. -/
def tidyLines (cs : List Char) : List (List Char) :=
  (cs.splitOn lineSeparator).map fun line => Chars.squeeze (decode line)

/-- Every line of a block is squeezed. -/
theorem isSqueezed_of_mem_tidyLines {line : List Char} (h : line ∈ tidyLines cs) :
    IsSqueezed line := by
  obtain ⟨raw, -, rfl⟩ := List.mem_map.1 h
  exact Chars.isSqueezed_squeeze _

/-- A separator is a blank, but no space. -/
theorem not_mem_of_isSqueezed {line : List Char} (h : IsSqueezed line) {c : Char}
    (hblank : isBlank c) (hc : c ≠ ' ') : c ∉ line :=
  fun hmem => hc (h.space c hmem hblank)

/-- Line separators cut a block into its lines. -/
theorem splitOn_tidyBlock (cs : List Char) :
    (tidyBlock cs).splitOn lineSeparator = tidyLines cs := by
  refine List.splitOn_intercalate lineSeparator ?_ (by simp [List.splitOn_ne_nil])
  intro line hline
  exact not_mem_of_isSqueezed (isSqueezed_of_mem_tidyLines hline) (by decide) (by decide)

/-- No paragraph separator is in a block. -/
theorem paragraphSeparator_not_mem_tidyBlock (cs : List Char) :
    paragraphSeparator ∉ tidyBlock cs := by
  intro hmem
  -- It is no line separator, so it would stand in one of the lines.
  have hlines : paragraphSeparator ∈ (tidyLines cs).flatten := by
    rw [← splitOn_tidyBlock, List.splitOn_eq_splitOnP, Chars.flatten_splitOnP, List.mem_filter]
    exact ⟨hmem, by decide⟩
  obtain ⟨line, hline, hin⟩ := List.mem_flatten.1 hlines
  exact not_mem_of_isSqueezed (isSqueezed_of_mem_tidyLines hline) (by decide) (by decide) hin

/-- How plain text is laid out: there is no block at all, or each shows something in squeezed
lines. -/
def IsLaidOut (cs : List Char) : Prop :=
  cs = [] ∨ ∀ block ∈ cs.splitOn paragraphSeparator,
    (∃ c ∈ block, ¬ isBlank c) ∧ ∀ line ∈ block.splitOn lineSeparator, IsSqueezed line

/-- Cutting a text that shows something gives back its blocks. -/
theorem splitOn_blocks {ts : List Token} (h : blocks ts ≠ []) :
    (List.intercalate [paragraphSeparator] (blocks ts)).splitOn paragraphSeparator =
      blocks ts := by
  refine List.splitOn_intercalate _ ?_ h
  intro block hblock
  obtain ⟨cs, -, rfl⟩ := List.mem_map.1 (List.mem_filter.1 hblock).1
  exact paragraphSeparator_not_mem_tidyBlock cs

/-- Blocks with paragraph separators between them are laid out. -/
theorem isLaidOut_blocks (ts : List Token) :
    IsLaidOut (List.intercalate [paragraphSeparator] (blocks ts)) := by
  by_cases hnone : blocks ts = []
  · exact .inl (by rw [hnone]; rfl)
  · right
    rw [splitOn_blocks hnone]
    intro block hblock
    obtain ⟨hmem, hshows⟩ := List.mem_filter.1 hblock
    obtain ⟨cs, -, rfl⟩ := List.mem_map.1 hmem
    refine ⟨by simpa using hshows, ?_⟩
    intro line hline
    rw [splitOn_tidyBlock] at hline
    exact isSqueezed_of_mem_tidyLines hline

end Html

/-- The plain text of HTML is empty, or each of its blocks has something to show. Lines neither
start nor end with a blank, and single spaces are the only blanks in them. -/
theorem HtmlRenderer.plainText_isLaidOut {html : String} {base : Attributes} {text : Text}
    (h : plainText.render html base = .ok text) : Html.IsLaidOut text.chars := by
  simp only [plainText, Html.plainText] at h
  cases htokens : Html.tokens html.toList with
  | error start =>
    rw [htokens] at h
    cases h
  | ok ts =>
    rw [htokens] at h
    cases h
    simpa [Text.styled, Text.ofRun, Text.chars, Run.chars] using Html.isLaidOut_blocks ts

/-- Blanks of all sorts, a blank block, and separators in the source. -/
def scribble : String := " a\u2029\u3000b <br>&lt;\u2028 \t</p> \u2028 <p></p>c"

/-- The scribble comes out laid out. -/
theorem scribble_isLaidOut :
    HtmlRenderer.plainText.render scribble {} = .ok (.styled "a b\u2028<\u2028\u2029c" {}) ∧
      Html.IsLaidOut (Text.styled "a b\u2028<\u2028\u2029c" {}).chars := by
  have hrender : HtmlRenderer.plainText.render scribble {} =
      .ok (.styled "a b\u2028<\u2028\u2029c" {}) := rfl
  exact ⟨hrender, HtmlRenderer.plainText_isLaidOut hrender⟩

end StyledText.Markdown
