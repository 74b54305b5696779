import StyledText.Proofs.Chars.Cuts
import StyledText.Proofs.Terminal.Lines

/-!
# Lines as a row that is cut

A text is a row of marks (`Text.marks`): a stand-in for each attachment, which is one mark, and its
characters, each in the style of its run. Drawing cuts this row at the line breaks, wherever the
runs begin and end, and draws each mark by itself.

* `Page.Shows`: a page shows a row of marks.
* `Page.Shows.put`, `Page.Shows.breakLine`: what a step of drawing adds to the row.
* `Page.Shows.putRun`, `Page.Shows.putRuns`: so a run adds its own marks, and so do runs in a row.
* `render_cuts_marks` is the result.
-/

namespace StyledText

namespace Terminal

/-! ## Marks -/

/-- What a terminal shows in one piece, or where it ends a line. -/
inductive Mark where
  /-- The name of an attachment in brackets. -/
  | placeholder (name : String)
  | char (c : Char) (style : Style)
deriving DecidableEq, Repr

namespace Mark

/-- Whether a line ends here. What is in the name of an attachment does not end it. -/
def endsLine : Mark → Bool
  | placeholder _ => false
  | char c _ => isLineBreak c

/-- The characters that a mark is drawn with, each with its style. -/
def drawn (theme : Theme) : Mark → List (Char × Style)
  | placeholder name => ("[" ++ name ++ "]").toList.map (·, theme.muted)
  | char c style => (if c = '\t' then List.replicate theme.tabWidth ' ' else [c]).map (·, style)

end Mark

def Span.drawn (s : Span) : List (Char × Style) := s.text.toList.map (·, s.style)

end Terminal

open Terminal

/-- The marks of a run: that of its attachment, then its characters. -/
def Run.marks (theme : Theme) (r : Run) : List Mark :=
  (r.attributes.attachment?.map fun a => .placeholder a.name).toList ++
    r.chars.map (.char · (theme.styleFor r.attributes))

def Text.marks (theme : Theme) (t : Text) : List Mark := t.runs.flatMap (Run.marks theme)

namespace Terminal

/-! ## Drawing -/

namespace Page

variable {theme : Theme} {style : Style} {p : Page} {marks : List Mark}

/-- Whether the lines of a page are a row of marks, cut where lines end. -/
def Shows (theme : Theme) (p : Page) (marks : List Mark) : Prop :=
  p.lines.map (·.flatMap Span.drawn) =
    (marks.splitOnP Mark.endsLine).map (·.flatMap (Mark.drawn theme))

theorem shows_empty (theme : Theme) : Shows theme {} [] := rfl

/-- A span goes on the last line. -/
theorem Shows.put (h : Shows theme p marks) {s : Span} {more : List Mark}
    (hmore : ∀ m ∈ more, m.endsLine = false) (hs : s.drawn = more.flatMap (Mark.drawn theme)) :
    Shows theme (p.put s) (marks ++ more) := by
  -- Only the last part is still open. The new marks end no line, so they all go there.
  obtain ⟨init, last, hparts, hput⟩ := Chars.exists_last_part Mark.endsLine marks
  unfold Shows lines at h ⊢
  rw [hparts, List.map_append, List.map_append] at h
  obtain ⟨hended, hcurrent⟩ := List.append_inj' h rfl
  have hlast : (p.current ++ [s]).flatMap Span.drawn =
      (last ++ more).flatMap (Mark.drawn theme) := by
    rw [List.flatMap_append, List.flatMap_append, List.flatMap_singleton, hs]
    exact congrArg (· ++ _) (List.cons.inj hcurrent).1
  rw [hput more hmore, List.map_append, List.map_append, List.map_singleton, List.map_singleton,
    ← hlast]
  exact congrArg (· ++ _) hended

/-- A line break ends the line that is shown. -/
theorem Shows.breakLine (h : Shows theme p marks) {m : Mark} (hm : m.endsLine) :
    Shows theme p.breakLine (marks ++ [m]) := by
  unfold Shows at h ⊢
  rw [List.splitOnP_append_cons marks [] hm, List.map_append, ← h]
  simp [Page.breakLine, lines]

/-- Characters that end no line. -/
theorem Shows.putPiece (h : Shows theme p marks) {piece : List Char}
    (hpiece : ∀ c ∈ piece, isLineBreak c = false) :
    Shows theme (p.putPiece theme style piece) (marks ++ piece.map (.char · style)) := by
  unfold Page.putPiece
  split
  · next hnil => rwa [hnil, List.map_nil, List.append_nil]
  · refine h.put ?_ ?_
    · simpa [Mark.endsLine] using hpiece
    · simp [Span.drawn, expandTabs, Mark.drawn, List.flatMap_map, List.map_flatMap]

/-- The characters of a run, cut into pieces. -/
theorem Shows.putPieces (h : Shows theme p marks) (cs : List Char) :
    Shows theme (p.putPieces theme style (cs.splitOnP isLineBreak))
      (marks ++ cs.map (.char · style)) := by
  have hinked : ∀ piece ∈ cs.splitOnP isLineBreak, ∀ c ∈ piece, isLineBreak c = false :=
    fun _ => Chars.not_of_mem_splitOnP
  generalize hpieces : cs.splitOnP isLineBreak = pieces at hinked
  -- Each piece but the last ends with the line break that cut it off.
  induction pieces generalizing p marks cs with
  | nil => exact absurd hpieces (List.splitOnP_ne_nil _ _)
  | cons piece rest ih =>
    have hpiece : Shows theme (p.putPiece theme style piece) (marks ++ piece.map (.char · style)) :=
      h.putPiece (hinked piece List.mem_cons_self)
    cases rest with
    | nil => rwa [Chars.eq_of_splitOnP_eq_singleton hpieces]
    | cons next rest =>
      obtain ⟨c, behind, rfl, hc, hbehind⟩ := Chars.exists_first_cut hpieces
      have hline := ih (hpiece.breakLine (m := .char c style) hc) behind hbehind
        fun part hpart => hinked part (List.mem_cons_of_mem _ hpart)
      rw [putPieces_cons_cons]
      simpa using hline

/-- A run adds its marks. -/
theorem Shows.putRun (h : Shows theme p marks) (r : Run) :
    Shows theme (p.putRun theme r) (marks ++ r.marks theme) := by
  unfold Page.putRun Run.marks
  cases r.attributes.attachment? with
  | none => exact h.putPieces r.chars
  | some a =>
    have hmarked : Shows theme (p.put ⟨"[" ++ a.name ++ "]", theme.muted⟩)
        (marks ++ [.placeholder a.name]) :=
      h.put (by simp [Mark.endsLine]) (by simp [Span.drawn, Mark.drawn])
    rw [Option.map_some, Option.toList_some, ← List.append_assoc]
    exact hmarked.putPieces r.chars

/-- The runs of a text are shown as their marks. -/
theorem Shows.putRuns (h : Shows theme p marks) (runs : List Run) :
    Shows theme (p.putRuns theme runs) (marks ++ runs.flatMap (Run.marks theme)) := by
  unfold Page.putRuns
  induction runs generalizing p marks with
  | nil => simpa using h
  | cons r rest ih =>
    rw [List.foldl_cons, List.flatMap_cons, ← List.append_assoc]
    exact ih (h.putRun r)

end Page

end Terminal

namespace Text

/-- The lines of a text are its marks, cut and drawn. -/
theorem map_drawn_lines_render (t : Text) (theme : Theme) :
    (t.render theme).lines.map (·.flatMap Span.drawn) =
      ((t.marks theme).splitOnP Mark.endsLine).map (·.flatMap (Mark.drawn theme)) :=
  (Page.shows_empty theme).putRuns t.runs

/-- Drawing a text is cutting it into lines. Line by line, the characters of the spans with their
styles are those of the marks up to the next line break. There is one line more than there are line
breaks in the string. That is the height too, as far as 32 bits can count it. -/
theorem render_cuts_marks (t : Text) (theme : Theme) :
    (t.render theme).lines.map (·.flatMap Span.drawn) =
      ((t.marks theme).splitOnP Mark.endsLine).map (·.flatMap (Mark.drawn theme)) ∧
    (t.render theme).lines.length = 1 + t.string.toList.countP isLineBreak ∧
    (t.render theme).height = (1 + t.string.toList.countP isLineBreak) % UInt32.size ∧
    (1 + t.string.toList.countP isLineBreak < UInt32.size →
      (t.render theme).height = 1 + t.string.toList.countP isLineBreak) := by
  have hlength : (t.render theme).lines.length = 1 + t.string.toList.countP isLineBreak := by
    rw [length_lines_render, string, String.toList_ofList]
  refine ⟨t.map_drawn_lines_render theme, hlength, by rw [Screen.height, hlength], ?_⟩
  intro hcounted
  rw [Screen.height_eq_length (by rwa [hlength]), hlength]

/-- A run that ends with a line break, and an attachment whose name has one. -/
def postcard : Text :=
  ⟨[{ text := "one\n" }, { Run.ofAttachment { name := "a\nb" } {} with text := "\ttwo" }]⟩

/-- A line ends at the end of a run, but not in a name. -/
theorem postcard_cuts_marks :
    1 + postcard.string.toList.countP isLineBreak < UInt32.size ∧
    (postcard.render { tabWidth := 2 }).height = 1 + postcard.string.toList.countP isLineBreak ∧
    (postcard.render { tabWidth := 2 }).height = 2 ∧
    (postcard.render { tabWidth := 2 }).lines.map Screen.lineText = ["one", "[a\nb]  two"] := by
  have hcounted : 1 + postcard.string.toList.countP isLineBreak < UInt32.size := by decide
  obtain ⟨-, -, -, hheight⟩ := render_cuts_marks postcard { tabWidth := 2 }
  exact ⟨hcounted, hheight hcounted, by decide, by decide⟩

end Text

end StyledText
