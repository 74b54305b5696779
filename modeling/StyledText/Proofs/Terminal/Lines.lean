import StyledText.Proofs.Chars.Ink
import StyledText.Terminal.Screen
import Mathlib.Algebra.Order.BigOperators.Group.List
import Mathlib.Algebra.Order.Group.Nat
import Mathlib.Algebra.GroupWithZero.Nat

/-!
# Lines of texts in a row

Drawing a run needs nothing of what is on the page but the end of its last line. So a text can be
drawn on a page of its own, which is then put behind what was there (`Page.after`).

* Every step of drawing goes through `Page.after` (`Page.put_after` to `Page.putRun_after`), and so
  does the whole row of runs (`Page.putRuns_eq_after`).
* A paragraph separator ends the line (`Page.putRun_separator`), and what is behind it is drawn on
  lines of its own (`Page.lines_putRuns_breakLine`).
* Screens that stand one below the other (`Screen.Stacks`) have as many lines as they have
  together, and the widest of them is as wide as all.
* `render_isCompositional` is the result.

How many lines there are depends on the characters alone: there is one more than there are line
breaks (`length_lines_render`).
-/

namespace StyledText

namespace Terminal

namespace Page

variable {p q : Page} {theme : Theme} {style : Style}

/-! ## One page behind another -/

/-- A page drawn behind another one. Its first line goes on where the last line of that one is. -/
def after (p q : Page) : Page :=
  match q.ended with
  | [] => ⟨p.ended, p.current ++ q.current⟩
  | first :: rest => ⟨p.ended ++ (p.current ++ first) :: rest, q.current⟩

@[simp] theorem after_empty (p : Page) : p.after {} = p := by
  simp [after]

theorem after_of_breakLine (p q : Page) :
    (p.breakLine.after q).lines = p.lines ++ q.lines := by
  obtain ⟨ended, current⟩ := q
  cases ended <;> simp [after, breakLine, lines]

/-- What is put on a page does not depend on the lines before. -/
theorem put_after (p q : Page) (s : Span) : (p.after q).put s = p.after (q.put s) := by
  obtain ⟨ended, current⟩ := q
  cases ended <;> simp [after, put]

/-- A line break does not depend on the lines before. -/
theorem breakLine_after (p q : Page) : (p.after q).breakLine = p.after q.breakLine := by
  obtain ⟨ended, current⟩ := q
  cases ended <;> simp [after, breakLine, lines]

/-- A piece does not depend on the lines before. -/
theorem putPiece_after (p q : Page) (piece : List Char) :
    (p.after q).putPiece theme style piece = p.after (q.putPiece theme style piece) := by
  unfold putPiece
  split
  · rfl
  · exact put_after p q _

theorem putPieces_cons_cons (p : Page) (piece next : List Char) (rest : List (List Char)) :
    p.putPieces theme style (piece :: next :: rest) =
      (p.putPiece theme style piece).breakLine.putPieces theme style (next :: rest) := rfl

/-- Pieces do not depend on the lines before. -/
theorem putPieces_after (p q : Page) (pieces : List (List Char)) :
    (p.after q).putPieces theme style pieces = p.after (q.putPieces theme style pieces) := by
  induction pieces generalizing q with
  | nil => rfl
  | cons piece rest ih =>
    cases rest with
    | nil => exact putPiece_after p q piece
    | cons next rest =>
      rw [putPieces_cons_cons, putPieces_cons_cons, putPiece_after, breakLine_after, ih]

/-- What a run draws does not depend on what was drawn before it. -/
theorem putRun_after (p q : Page) (r : Run) :
    (p.after q).putRun theme r = p.after (q.putRun theme r) := by
  unfold putRun
  cases r.attributes.attachment? with
  | none => exact putPieces_after p q _
  | some a =>
    dsimp only
    rw [put_after, putPieces_after]

/-- Runs can be drawn on a page of their own. -/
theorem putRuns_eq_after (p : Page) (runs : List Run) :
    putRuns theme p runs = p.after (putRuns theme {} runs) := by
  have hmore : ∀ q : Page, putRuns theme (p.after q) runs = p.after (putRuns theme q runs) := by
    -- What is on the page grows, so the induction is over all pages behind `p`.
    unfold putRuns
    induction runs with
    | nil => exact fun q => rfl
    | cons r rest ih =>
      intro q
      rw [List.foldl_cons, List.foldl_cons, putRun_after, ih]
  have hwhole := hmore {}
  rwa [after_empty] at hwhole

/-- Runs are put one after the other. -/
theorem putRuns_append (p : Page) (runs more : List Run) :
    putRuns theme p (runs ++ more) = putRuns theme (putRuns theme p runs) more :=
  List.foldl_append

/-- The first line of the page behind is put at the end of the last line before it. -/
theorem lines_after (p q : Page) : ∃ first rest, q.lines = first :: rest ∧
    (p.after q).lines = p.ended ++ (p.current ++ first) :: rest := by
  obtain ⟨ended, current⟩ := q
  cases ended with
  | nil => exact ⟨current, [], rfl, rfl⟩
  | cons first rest => exact ⟨first, rest ++ [current], rfl, by simp [after, lines]⟩

/-! ## Separators -/

/-- A separator breaks the line and leaves nothing. -/
theorem putRun_separator (theme : Theme) (p : Page) :
    p.putRun theme { text := paragraphSeparator.toString } = p.breakLine := by
  have hpieces : (Run.chars { text := paragraphSeparator.toString }).splitOnP isLineBreak =
      [[], []] := by decide
  have hplain : Attributes.attachment? {} = none := rfl
  unfold putRun
  rw [hpieces]
  simp only [hplain, putPieces, putPiece, if_true]

/-- After a line break, runs are put as on an empty page. -/
theorem lines_putRuns_breakLine (p : Page) (runs : List Run) :
    (putRuns theme p.breakLine runs).lines = p.lines ++ (putRuns theme {} runs).lines := by
  rw [putRuns_eq_after, after_of_breakLine]

/-! ## The number of lines -/

@[simp] theorem length_lines_put (p : Page) (s : Span) :
    (p.put s).lines.length = p.lines.length := by
  simp [put, lines]

@[simp] theorem length_lines_breakLine (p : Page) :
    p.breakLine.lines.length = p.lines.length + 1 := by
  simp [breakLine, lines]

@[simp] theorem length_lines_putPiece (p : Page) (piece : List Char) :
    (p.putPiece theme style piece).lines.length = p.lines.length := by
  unfold putPiece
  split
  · rfl
  · exact length_lines_put p _

/-- There is a line break between pieces. -/
theorem length_lines_putPieces (p : Page) {pieces : List (List Char)} (h : pieces ≠ []) :
    (p.putPieces theme style pieces).lines.length + 1 = p.lines.length + pieces.length := by
  induction pieces generalizing p with
  | nil => exact absurd rfl h
  | cons piece rest ih =>
    cases rest with
    | nil => simp [putPieces]
    | cons next rest =>
      rw [putPieces_cons_cons, ih _ (List.cons_ne_nil _ _), length_lines_breakLine,
        length_lines_putPiece, List.length_cons (a := piece)]
      omega

/-- A run adds a line for each of its line breaks. -/
theorem length_lines_putRun (p : Page) (r : Run) :
    (p.putRun theme r).lines.length = p.lines.length + r.chars.countP isLineBreak := by
  have hpieces : ∀ (q : Page) (style : Style),
      (q.putPieces theme style (r.chars.splitOnP isLineBreak)).lines.length =
        q.lines.length + r.chars.countP isLineBreak := by
    intro q style
    have hlength : (q.putPieces theme style (r.chars.splitOnP isLineBreak)).lines.length + 1 =
        q.lines.length + (r.chars.splitOnP isLineBreak).length :=
      q.length_lines_putPieces (List.splitOnP_ne_nil _ _)
    rw [Chars.length_splitOnP] at hlength
    omega
  unfold putRun
  cases r.attributes.attachment? with
  | none => exact hpieces p _
  | some a => exact (hpieces _ _).trans (by rw [length_lines_put])

/-- Runs add a line for each line break in them. -/
theorem length_lines_putRuns (p : Page) (runs : List Run) :
    (putRuns theme p runs).lines.length =
      p.lines.length + (runs.flatMap Run.chars).countP isLineBreak := by
  unfold putRuns
  induction runs generalizing p with
  | nil => rfl
  | cons r rest ih =>
    rw [List.foldl_cons, ih, length_lines_putRun, List.flatMap_cons, List.countP_append,
      Nat.add_assoc]

end Page

/-! ## Screens one below the other -/

namespace Screen

/-- The screen shows the others one below the other. -/
structure Stacks (whole : Screen) (parts : List Screen) : Prop where
  lines : whole.lines = parts.flatMap Screen.lines
  /-- Unless there are more lines than are counted. -/
  height : whole.lines.length < UInt32.size → whole.height = (parts.map Screen.height).sum
  width : ∀ measure, (parts.map (widthBy measure)).max? = some (whole.widthBy measure)

variable {s whole : Screen} {parts : List Screen} {measure : String → Nat}

/-- One of the lines is the widest. -/
theorem exists_widest (measure : String → Nat) (h : s.lines ≠ []) : ∃ line ∈ s.lines,
    ∀ other ∈ s.lines, lineWidth measure other ≤ lineWidth measure line := by
  have hne : s.lines.map (lineWidth measure) ≠ [] := by simpa using h
  obtain ⟨most, hmost⟩ := Option.isSome_iff_exists.1 (List.isSome_max?_of_ne_nil hne)
  obtain ⟨hmem, hle⟩ := List.max?_eq_some_iff.1 hmost
  obtain ⟨line, hline, rfl⟩ := List.mem_map.1 hmem
  exact ⟨line, hline, fun other hother => hle _ (List.mem_map_of_mem hother)⟩

/-- The width is that of a widest line, as far as a screen can be that wide. -/
theorem widthBy_of_widest {line : List Span} (hmem : line ∈ s.lines)
    (hwidest : ∀ other ∈ s.lines, lineWidth measure other ≤ lineWidth measure line) :
    s.widthBy measure = min (lineWidth measure line) maxWidth := by
  have hmost : (s.lines.map (lineWidth measure)).max? = some (lineWidth measure line) := by
    rw [List.max?_eq_some_iff]
    refine ⟨List.mem_map_of_mem hmem, ?_⟩
    simpa using hwidest
  rw [widthBy, hmost, Option.getD_some]

/-- The height is the number of lines, as far as 32 bits can count them. -/
theorem height_eq_length (h : s.lines.length < UInt32.size) : s.height = s.lines.length :=
  Nat.mod_eq_of_lt h

/-- Where lines can be counted, the heights of the parts add up. -/
theorem height_eq_sum (h : whole.lines = parts.flatMap Screen.lines)
    (hcounted : whole.lines.length < UInt32.size) :
    whole.height = (parts.map Screen.height).sum := by
  have hsum : whole.lines.length = (parts.map fun s => s.lines.length).sum := by
    rw [h, List.length_flatMap]
  have hheights : parts.map Screen.height = parts.map fun s => s.lines.length := by
    refine List.map_congr_left ?_
    intro s hs
    have hmem : s.lines.length ∈ parts.map fun s => s.lines.length := List.mem_map.2 ⟨s, hs, rfl⟩
    have hle := List.le_sum_of_mem hmem
    rw [← hsum] at hle
    exact height_eq_length (Nat.lt_of_le_of_lt hle hcounted)
  rw [hheights, ← hsum, height_eq_length hcounted]

/-- A widest line of all is a widest one of the part it belongs to. -/
theorem width_eq_max (h : whole.lines = parts.flatMap Screen.lines) (hne : parts ≠ [])
    (hlines : ∀ s ∈ parts, s.lines ≠ []) :
    (parts.map (widthBy measure)).max? = some (whole.widthBy measure) := by
  have hwhole : whole.lines ≠ [] := by
    obtain ⟨s, hs⟩ := List.exists_mem_of_ne_nil parts hne
    obtain ⟨line, hline⟩ := List.exists_mem_of_ne_nil s.lines (hlines s hs)
    rw [h]
    exact List.ne_nil_of_mem (List.mem_flatMap.2 ⟨s, hs, hline⟩)
  obtain ⟨line, hline, hwidest⟩ := exists_widest measure hwhole
  have hshown : ∀ s ∈ parts, ∀ other ∈ s.lines,
      lineWidth measure other ≤ lineWidth measure line := by
    intro s hs other hother
    refine hwidest other ?_
    rw [h]
    exact List.mem_flatMap.2 ⟨s, hs, hother⟩
  -- the widest line of all is the widest line of its part
  rw [widthBy_of_widest hline hwidest, List.max?_eq_some_iff]
  constructor
  · rw [h] at hline
    obtain ⟨s, hs, hin⟩ := List.mem_flatMap.1 hline
    exact List.mem_map.2 ⟨s, hs, widthBy_of_widest hin (hshown s hs)⟩
  · intro width hwidth
    obtain ⟨s, hs, rfl⟩ := List.mem_map.1 hwidth
    obtain ⟨other, hother, hmost⟩ := exists_widest measure (hlines s hs)
    have hle := hshown s hs other hother
    rw [widthBy_of_widest hother hmost]
    omega

/-- A screen stacks parts if it has their lines. -/
theorem stacks_of_lines (h : whole.lines = parts.flatMap Screen.lines) (hne : parts ≠ [])
    (hlines : ∀ s ∈ parts, s.lines ≠ []) : whole.Stacks parts :=
  ⟨h, height_eq_sum h, fun _ => width_eq_max h hne hlines⟩

end Screen

end Terminal

namespace Text

open Terminal

variable {theme : Theme}

/-- A text has one line more than it has line breaks. -/
theorem length_lines_render (t : Text) (theme : Theme) :
    (t.render theme).lines.length = 1 + t.chars.countP isLineBreak := by
  rw [render, Page.length_lines_putRuns]
  rfl

/-- Even an empty text has a line. -/
theorem lines_render_ne_nil (t : Text) : (t.render theme).lines ≠ [] := by
  simp [render, Page.lines]

/-- The first line of the second text goes on where the last line of the first one stops. -/
theorem lines_render_append (a b : Text) : ∃ init last first rest,
    (a.render theme).lines = init ++ [last] ∧ (b.render theme).lines = first :: rest ∧
      ((a ++ b).render theme).lines = init ++ (last ++ first) :: rest := by
  obtain ⟨first, rest, hfirst, hlines⟩ :=
    (Page.putRuns theme {} a.runs).lines_after (Page.putRuns theme {} b.runs)
  refine ⟨(Page.putRuns theme {} a.runs).ended, (Page.putRuns theme {} a.runs).current, first, rest,
    rfl, hfirst, ?_⟩
  rw [render, runs_append, Page.putRuns_append, Page.putRuns_eq_after, hlines]

/-- Behind each separator, the lines are those of the next part. -/
theorem lines_putRuns_parts (p : Page) (parts : List Text) :
    (Page.putRuns theme p (parts.flatMap fun part =>
      { text := paragraphSeparator.toString } :: part.runs)).lines =
        p.lines ++ parts.flatMap fun part => (part.render theme).lines := by
  -- The separator in front of each part ends the line before, so no line is shared.
  induction parts generalizing p with
  | nil => simp [Page.putRuns]
  | cons part rest ih =>
    have hline : Page.putRuns theme p ({ text := paragraphSeparator.toString } :: part.runs) =
        Page.putRuns theme p.breakLine part.runs := by
      rw [← Page.putRun_separator theme]
      rfl
    rw [List.flatMap_cons, List.flatMap_cons, Page.putRuns_append, hline, ih,
      Page.lines_putRuns_breakLine, List.append_assoc]
    rfl

/-- Joined by separators, each text has its own lines. -/
theorem lines_render_joined {parts : List Text} (h : parts ≠ []) :
    ((joined (some paragraphSeparator.toString) parts).render theme).lines =
      parts.flatMap fun part => (part.render theme).lines := by
  cases parts with
  | nil => exact absurd rfl h
  | cons first rest =>
    rw [joined, render, Page.putRuns_append]
    exact lines_putRuns_parts _ rest

/-- Texts in a row share the line between them, and texts with separators between them stand one
below the other. -/
theorem render_isCompositional (theme : Theme) :
    (∀ a b : Text, ∃ init last first rest,
      (a.render theme).lines = init ++ [last] ∧ (b.render theme).lines = first :: rest ∧
        ((a ++ b).render theme).lines = init ++ (last ++ first) :: rest) ∧
      ∀ parts : List Text, parts ≠ [] →
        ((joined (some paragraphSeparator.toString) parts).render theme).Stacks
          (parts.map fun part => part.render theme) := by
  refine ⟨lines_render_append, ?_⟩
  intro parts hne
  refine Screen.stacks_of_lines ?_ (by simpa using hne) ?_
  · rw [lines_render_joined hne, List.flatMap_map]
  · intro s hs
    obtain ⟨part, -, rfl⟩ := List.mem_map.1 hs
    exact part.lines_render_ne_nil

/-- A text without a run, a text that ends its line, one that starts with a line break behind an
attachment, and an empty one. -/
def poster : List Text :=
  [⟨[]⟩, plain "one\n", ⟨[{ Run.ofAttachment { name := "map" } {} with text := "\ntwo" }]⟩,
    plain ""]

/-- The four texts have six lines. -/
theorem poster_isCompositional :
    poster ≠ [] ∧ ((joined (some paragraphSeparator.toString) poster).render {}).height = 6 ∧
      ((joined (some paragraphSeparator.toString) poster).render {}).Stacks
        (poster.map fun part => part.render {}) := by
  have hne : poster ≠ [] := by decide
  exact ⟨hne, by decide, (render_isCompositional {}).2 poster hne⟩

end Text

end StyledText
