import StyledText.Proofs.Terminal.Lines

/-!
# Lines and rows

A line takes one row of a terminal, unless a character in it leaves the row. Of the characters of a
run none is left that does so, nor any tab. But the name of an attachment is drawn as it is
(`placeholder`), so it can take the terminal to another row or to another place.

* `Page.moving_putPiece`, `Page.moving_putRun`: of what a run adds, only the stand-in of its
  attachment can move the cursor.
* `rows_eq`: how many rows the lines take.
* `render_moves_in_names` puts these together, and `signpost_leaves_row` is a text of one line that
  takes two rows.
-/

namespace StyledText

namespace Terminal

/-- Whether a terminal goes to another row, or to another place in the row, at a character. -/
def movesCursor (c : Char) : Bool := isLineBreak c || c = '\t'

/-- Whether a span holds such a character. -/
def Span.moves (s : Span) : Bool := s.text.toList.any movesCursor

/-- What stands for an attachment. -/
def placeholder (theme : Theme) (name : String) : Span := ⟨"[" ++ name ++ "]", theme.muted⟩

/-! ## What moves the cursor -/

/-- A placeholder moves the cursor if the name in it does. -/
theorem moves_placeholder (theme : Theme) (name : String) :
    (placeholder theme name).moves = name.toList.any movesCursor := by
  have hopen : movesCursor '[' = false := by decide
  have hclose : movesCursor ']' = false := by decide
  simp [Span.moves, placeholder, hopen, hclose]

/-- Characters that end no line are drawn without any that moves the cursor. -/
theorem movesCursor_of_mem_expandTabs {tabWidth : Nat} {piece : List Char} {c : Char}
    (hpiece : ∀ d ∈ piece, isLineBreak d = false) (hc : c ∈ expandTabs tabWidth piece) :
    movesCursor c = false := by
  obtain ⟨d, hd, hc⟩ := List.mem_flatMap.1 hc
  split at hc
  · rw [List.eq_of_mem_replicate hc]
    decide
  · next htab =>
    rw [List.mem_singleton] at hc
    subst hc
    simp [movesCursor, hpiece c hd, htab]

namespace Page

variable {theme : Theme} {style : Style} {p : Page}

/-- The spans of a page that move the cursor. -/
def moving (p : Page) : List Span := p.lines.flatten.filter Span.moves

theorem moving_put (p : Page) (s : Span) :
    (p.put s).moving = p.moving ++ [s].filter Span.moves := by
  simp [moving, put, lines]

theorem moving_breakLine (p : Page) : p.breakLine.moving = p.moving := by
  simp [moving, breakLine, lines]

/-- A piece without line breaks moves no cursor: tabs are expanded. -/
theorem moving_putPiece {piece : List Char} (h : ∀ c ∈ piece, isLineBreak c = false) :
    (p.putPiece theme style piece).moving = p.moving := by
  unfold putPiece
  split
  · rfl
  · have hstill : Span.moves ⟨String.ofList (expandTabs theme.tabWidth piece), style⟩ = false := by
      rw [Span.moves, String.toList_ofList, List.any_eq_false]
      exact fun c hc => by simp [movesCursor_of_mem_expandTabs h hc]
    rw [moving_put, List.filter_cons_of_neg (by simp [hstill]), List.filter_nil, List.append_nil]

/-- Pieces without line breaks move no cursor. -/
theorem moving_putPieces {pieces : List (List Char)}
    (h : ∀ piece ∈ pieces, ∀ c ∈ piece, isLineBreak c = false) :
    (p.putPieces theme style pieces).moving = p.moving := by
  induction pieces generalizing p with
  | nil => rfl
  | cons piece rest ih =>
    rw [List.forall_mem_cons] at h
    cases rest with
    | nil => exact moving_putPiece h.1
    | cons next rest => rw [putPieces_cons_cons, ih h.2, moving_breakLine, moving_putPiece h.1]

/-- Of what a run adds, only the stand-in of its attachment can move the cursor. -/
theorem moving_putRun (r : Run) :
    (p.putRun theme r).moving =
      p.moving ++ (r.attributes.attachment?.map fun a => placeholder theme a.name).toList.filter
        Span.moves := by
  have hpieces : ∀ piece ∈ r.chars.splitOnP isLineBreak, ∀ c ∈ piece, isLineBreak c = false :=
    fun _ => Chars.not_of_mem_splitOnP
  unfold putRun
  cases r.attributes.attachment? with
  | none => exact (moving_putPieces hpieces).trans (List.append_nil _).symm
  | some a => exact (moving_putPieces hpieces).trans (moving_put p _)

/-- Of runs, only the names of attachments move the cursor. -/
theorem moving_putRuns (runs : List Run) : (putRuns theme p runs).moving = p.moving ++
    ((runs.filterMap fun r => r.attributes.attachment?.map Attachment.name).map
      (placeholder theme)).filter Span.moves := by
  unfold putRuns
  induction runs generalizing p with
  | nil => exact (List.append_nil _).symm
  | cons r rest ih =>
    rw [List.foldl_cons, ih, moving_putRun, List.append_assoc, List.filterMap_cons]
    cases r.attributes.attachment? with
    | none => rfl
    | some a =>
      rw [Option.map_some, Option.map_some, Option.toList_some, ← List.filter_append]
      rfl

end Page

/-! ## Rows -/

namespace Screen

/-- The rows that a line takes: one, and one more for each time it leaves the row. -/
def rowsOf (line : List Span) : Nat := 1 + (line.flatMap (·.text.toList)).countP isLineBreak

/-- The rows that all lines take. -/
def rows (s : Screen) : Nat := (s.lines.map rowsOf).sum

/-- There is a row for each line, and one more for each line break in it. -/
theorem rows_eq (s : Screen) :
    s.rows = s.lines.length + (s.lines.flatten.flatMap (·.text.toList)).countP isLineBreak := by
  unfold rows
  induction s.lines with
  | nil => rfl
  | cons line rest ih =>
    rw [List.map_cons, List.sum_cons, ih, List.length_cons, List.flatten_cons, List.flatMap_append,
      List.countP_append, rowsOf]
    omega

/-- Only spans that move the cursor have line breaks. -/
theorem countP_filter_moves (spans : List Span) :
    ((spans.filter Span.moves).flatMap (·.text.toList)).countP isLineBreak =
      (spans.flatMap (·.text.toList)).countP isLineBreak := by
  -- what moves no cursor has no line break
  induction spans with
  | nil => rfl
  | cons s rest ih =>
    rw [List.flatMap_cons, List.countP_append, ← ih]
    by_cases hs : s.moves
    · rw [List.filter_cons_of_pos hs, List.flatMap_cons, List.countP_append]
    · have hnone : s.text.toList.countP isLineBreak = 0 := by
        rw [List.countP_eq_zero]
        intro c hc hbreak
        exact hs (List.any_eq_true.2 ⟨c, hc, by simp [movesCursor, hbreak]⟩)
      rw [List.filter_cons_of_neg hs, hnone, Nat.zero_add]

/-- The placeholders have the line breaks of the names. -/
theorem countP_placeholders (theme : Theme) (names : List String) :
    ((names.map (placeholder theme)).flatMap (·.text.toList)).countP isLineBreak =
      (names.flatMap String.toList).countP isLineBreak := by
  have hopen : isLineBreak '[' = false := by decide
  have hclose : isLineBreak ']' = false := by decide
  induction names with
  | nil => rfl
  | cons name rest ih =>
    rw [List.map_cons, List.flatMap_cons, List.flatMap_cons, List.countP_append, ih,
      List.countP_append]
    simp [placeholder, hopen, hclose]

end Screen

end Terminal

open Terminal

namespace Text

variable {theme : Theme}

def attachmentNames (t : Text) : List String :=
  t.runs.filterMap fun r => r.attributes.attachment?.map Attachment.name

/-- The spans that move the cursor stand for attachments whose names do so. -/
theorem filter_moves_lines_render (t : Text) (theme : Theme) :
    (t.render theme).lines.flatten.filter Span.moves =
      (t.attachmentNames.map (placeholder theme)).filter Span.moves :=
  Page.moving_putRuns t.runs

/-- The line breaks that are drawn are those of names. -/
theorem countP_isLineBreak_render (t : Text) (theme : Theme) :
    ((t.render theme).lines.flatten.flatMap (·.text.toList)).countP isLineBreak =
      (t.attachmentNames.flatMap String.toList).countP isLineBreak := by
  rw [← Screen.countP_filter_moves, filter_moves_lines_render, Screen.countP_filter_moves,
    Screen.countP_placeholders]

/-- No span moves the cursor, if no name does. -/
theorem forall_not_moves_iff (t : Text) (theme : Theme) :
    (∀ line ∈ (t.render theme).lines, ∀ s ∈ line, ¬ s.moves) ↔
      ∀ name ∈ t.attachmentNames, ¬ name.toList.any movesCursor := by
  have hlines : (∀ line ∈ (t.render theme).lines, ∀ s ∈ line, ¬ s.moves) ↔
      (t.render theme).lines.flatten.filter Span.moves = [] := by
    rw [List.filter_eq_nil_iff, List.forall_mem_flatten]
  rw [hlines, filter_moves_lines_render, List.filter_eq_nil_iff, List.forall_mem_map]
  simp only [moves_placeholder]

/-- Each line takes one row, if no name has a line break. -/
theorem forall_rowsOf_eq_one_iff (t : Text) (theme : Theme) :
    (∀ line ∈ (t.render theme).lines, Screen.rowsOf line = 1) ↔
      ∀ name ∈ t.attachmentNames, ¬ name.toList.any isLineBreak := by
  have hlines : (∀ line ∈ (t.render theme).lines, Screen.rowsOf line = 1) ↔
      ((t.render theme).lines.flatten.flatMap (·.text.toList)).countP isLineBreak = 0 := by
    simp only [Screen.rowsOf, Nat.add_eq_left, List.countP_eq_zero, List.forall_mem_flatMap,
      List.forall_mem_flatten]
  rw [hlines, countP_isLineBreak_render, List.countP_eq_zero]
  simp only [List.any_eq_true, List.forall_mem_flatMap, not_exists, not_and]

/-- A span moves the cursor only where it stands for an attachment whose name does so. So the lines
take a row each, and one more for each line break in a name, and they are free of line breaks and
tabs exactly if the names are. -/
theorem render_moves_in_names (t : Text) (theme : Theme) :
    (t.render theme).lines.flatten.filter Span.moves =
      (t.attachmentNames.map (placeholder theme)).filter Span.moves ∧
    (t.render theme).rows = (t.render theme).lines.length +
      (t.attachmentNames.flatMap String.toList).countP isLineBreak ∧
    ((∀ line ∈ (t.render theme).lines, ∀ s ∈ line, ¬ s.moves) ↔
      ∀ name ∈ t.attachmentNames, ¬ name.toList.any movesCursor) ∧
    ((∀ line ∈ (t.render theme).lines, Screen.rowsOf line = 1) ↔
      ∀ name ∈ t.attachmentNames, ¬ name.toList.any isLineBreak) := by
  refine ⟨t.filter_moves_lines_render theme, ?_, t.forall_not_moves_iff theme,
    t.forall_rowsOf_eq_one_iff theme⟩
  rw [Screen.rows_eq, countP_isLineBreak_render]

/-- A text that is only an attachment, with a line break in its name. -/
def signpost : Text := ⟨[.ofAttachment { name := "a\nb" } {}]⟩

/-- Its only line takes two rows. -/
theorem signpost_leaves_row :
    (signpost.render {}).lines = [[⟨"[a\nb]", Theme.muted {}⟩]] ∧
    '\n' ∈ "[a\nb]".toList ∧ (signpost.render {}).height = 1 ∧ (signpost.render {}).rows = 2 ∧
    ¬ ∀ (t : Text) (theme : Theme), ∀ line ∈ (t.render theme).lines, ∀ s ∈ line, ¬ s.moves := by
  have hlines : (signpost.render {}).lines = [[⟨"[a\nb]", Theme.muted {}⟩]] := by decide
  refine ⟨hlines, by decide, by decide, by decide, ?_⟩
  intro hstill
  have hspan := hstill signpost {} _ (hlines ▸ List.mem_singleton_self _) _
    (List.mem_singleton_self _)
  exact hspan (by decide)

end Text

end StyledText
