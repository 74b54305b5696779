import StyledText.Proofs.Terminal.Marks
import StyledText.Proofs.Text.Content

/-!
# Drawing coalesced texts

Coalescing moves the borders of runs, and drawing goes run by run. Still both texts are drawn alike.

* A run that shows nothing leaves no marks, and one that is taken in leaves them in the same style.
  So coalescing keeps the marks (`marks_coalesced`), and with them the lines.
* The spans of a line may be others. If each is as wide as its characters together
  (`Screen.MeasuredBy`), the width is that of the characters (`Screen.widthBy_eq_of_drawn_eq`).
* `coalesced_isDrawnAlike` is the result.
-/

namespace StyledText

open Terminal

/-! ## Marks -/

/-- Attributes that agree give one style. -/
theorem Terminal.Theme.styleFor_eq_of_alike (theme : Theme) {a b : Attributes} (h : a.alike b) :
    theme.styleFor a = theme.styleFor b := by
  simp only [styleFor, Attributes.traits_eq_of_alike h, Attributes.link?_eq_of_alike h,
    Attributes.color?_eq_of_alike h]

namespace Text

variable {theme : Theme}

/-- An invisible run leaves no mark. -/
theorem marks_of_isInvisible {r : Run} (h : isInvisible r) : r.marks theme = [] := by
  obtain ⟨hempty, hnone⟩ := isInvisible_iff.1 h
  simp [Run.marks, hnone, Run.isEmpty_iff.1 hempty]

/-- What a run absorbs leaves the same marks in it. -/
theorem marks_of_absorbs {current r : Run} (h : absorbs current r) :
    Run.marks theme { current with text := current.text ++ r.text } =
      current.marks theme ++ r.marks theme := by
  obtain ⟨halike, hnone⟩ := absorbs_iff.1 h
  simp [Run.marks, hnone, attachment?_of_absorbs h, ← theme.styleFor_eq_of_alike halike, Run.chars]

/-- Coalescing keeps the marks. -/
theorem marks_coalesced (t : Text) : t.coalesced.marks theme = t.marks theme :=
  flatMap_coalesced (fun _ => marks_of_isInvisible) (fun _ _ => marks_of_absorbs) t

def markedLines (theme : Theme) (t : Text) : List (List Mark) :=
  (t.marks theme).splitOnP Mark.endsLine

end Text

/-! ## Widths -/

namespace Terminal.Screen

/-- Each span is as wide as its characters together. -/
def MeasuredBy (s : Screen) (measure : String → Nat) (cells : Char → Nat) : Prop :=
  ∀ line ∈ s.lines, ∀ span ∈ line, measure span.text = (span.text.toList.map cells).sum

variable {s s' : Screen} {measure : String → Nat} {cells : Char → Nat}

/-- A line is as wide as the characters it is drawn with, whatever their styles. -/
theorem lineWidth_eq_sum {line : List Span}
    (h : ∀ span ∈ line, measure span.text = (span.text.toList.map cells).sum) :
    lineWidth measure line = ((line.flatMap Span.drawn).map fun e => cells e.1).sum := by
  induction line with
  | nil => rfl
  | cons span rest ih =>
    rw [List.forall_mem_cons] at h
    have hspan : (span.drawn.map fun e => cells e.1) = span.text.toList.map cells := by
      simp [Span.drawn]
    rw [lineWidth, h.1, ih h.2, List.flatMap_cons, List.map_append, List.sum_append, hspan]

/-- Lines that are drawn with the same characters are equally wide, whatever spans they have. -/
theorem widthBy_eq_of_drawn_eq
    (h : s.lines.map (·.flatMap Span.drawn) = s'.lines.map (·.flatMap Span.drawn))
    (hs : s.MeasuredBy measure cells) (hs' : s'.MeasuredBy measure cells) :
    s.widthBy measure = s'.widthBy measure := by
  have hwidths : ∀ {s : Screen}, s.MeasuredBy measure cells → s.lines.map (lineWidth measure) =
      (s.lines.map (·.flatMap Span.drawn)).map fun row => (row.map fun e => cells e.1).sum := by
    intro s hs
    rw [List.map_map]
    exact List.map_congr_left fun line hline => lineWidth_eq_sum (hs line hline)
  rw [widthBy, widthBy, hwidths hs, hwidths hs', h]

end Terminal.Screen

namespace Text

/-- A text and what it is coalesced to are drawn alike. Line by line they show the same marks, which
are characters in their styles and the stand-ins of attachments, and so they are equally high. They
are equally wide too, for each measure that makes the spans of both as wide as their characters
together. -/
theorem coalesced_isDrawnAlike (t : Text) (theme : Theme) :
    t.coalesced.markedLines theme = t.markedLines theme ∧
    (t.coalesced.render theme).lines.map (·.flatMap Span.drawn) =
      (t.markedLines theme).map (·.flatMap (Mark.drawn theme)) ∧
    (t.render theme).lines.map (·.flatMap Span.drawn) =
      (t.markedLines theme).map (·.flatMap (Mark.drawn theme)) ∧
    (t.coalesced.render theme).height = (t.render theme).height ∧
    ∀ (measure : String → Nat) (cells : Char → Nat),
      (t.coalesced.render theme).MeasuredBy measure cells →
      (t.render theme).MeasuredBy measure cells →
      (t.coalesced.render theme).widthBy measure = (t.render theme).widthBy measure := by
  have hmarked : t.coalesced.markedLines theme = t.markedLines theme := by
    rw [markedLines, marks_coalesced, markedLines]
  have hcoalesced := t.coalesced.map_drawn_lines_render theme
  have hdrawn := t.map_drawn_lines_render theme
  rw [← markedLines] at hcoalesced hdrawn
  rw [hmarked] at hcoalesced
  have hsame := hcoalesced.trans hdrawn.symm
  have hheight : (t.coalesced.render theme).height = (t.render theme).height := by
    rw [Screen.height, Screen.height, length_lines_render, length_lines_render, chars_coalesced]
  exact ⟨hmarked, hcoalesced, hdrawn, hheight, fun _ _ => Screen.widthBy_eq_of_drawn_eq hsame⟩

/-- A word in two runs of one colour with an empty run between them, and an attachment with text of
its own on the next line. -/
def ticket : Text :=
  let red : Attributes := .ofList [(.foregroundColor, .color .red)]
  ⟨[{ text := "Se", attributes := red }, {}, { text := "at\n", attributes := red },
    { Run.ofAttachment { name := "map" } {} with text := "\t字" }, { text := "4" }]⟩

/-- The cells of its characters: the ideograph is wide. -/
def ticketCells (c : Char) : Nat := if c = '字' then 2 else 1

def ticketMeasure (text : String) : Nat := (text.toList.map ticketCells).sum

/-- Its spans are joined, and it is as wide as before. -/
theorem ticket_coalesced_isDrawnAlike :
    ticket.coalesced.runs.length = 3 ∧
    (ticket.render {}).lines.map List.length = [2, 3] ∧
    (ticket.coalesced.render {}).lines.map List.length = [1, 3] ∧
    (ticket.coalesced.render {}).MeasuredBy ticketMeasure ticketCells ∧
    (ticket.render {}).MeasuredBy ticketMeasure ticketCells ∧
    (ticket.coalesced.render {}).widthBy ticketMeasure = (ticket.render {}).widthBy ticketMeasure ∧
    (ticket.render {}).widthBy ticketMeasure = 12 := by
  have hcoalesced : (ticket.coalesced.render {}).MeasuredBy ticketMeasure ticketCells :=
    fun _ _ _ _ => rfl
  have hticket : (ticket.render {}).MeasuredBy ticketMeasure ticketCells := fun _ _ _ _ => rfl
  obtain ⟨-, -, -, -, hwidth⟩ := coalesced_isDrawnAlike ticket {}
  exact ⟨by decide, by decide, by decide, hcoalesced, hticket, hwidth _ _ hcoalesced hticket,
    by decide⟩

end Text

end StyledText
