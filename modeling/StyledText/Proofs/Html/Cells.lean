import StyledText.Markdown.Html.PlainText
import StyledText.Proofs.Html.Tour

/-!
# Cells

On the writer's tour, two things count for the blocks of a text: the glyphs it comes to, and the
ends of nodes that end a block. `Outline.cells` lists them, and `Cell.parts` cuts the list.

* `cells_inOrder`: an end stands where the node ends.
* `shares_iff`: two glyphs share a part iff no block ends between them.
-/

namespace StyledText.Markdown

open Chars (ink)

/-! ## Cells -/

/-- What counts for the blocks of a text. -/
inductive Cell where
  | glyph (g : Glyph)
  | blockEnd (place : List Nat)
deriving DecidableEq, Repr

namespace Cell

def effect : Cell → Html.Token.Effect
  | glyph g => .shows g.char
  | blockEnd _ => .blockEnd

def glyph? : Cell → Option Glyph
  | glyph g => some g
  | blockEnd _ => none

/-- Whether one cell may come before another. -/
def InOrder : Cell → Cell → Prop
  | blockEnd p, glyph g => EndsBefore p g.place
  | glyph g, blockEnd p => ¬ EndsBefore p g.place
  | _, _ => True

/-- The parts between the ends of blocks. -/
def parts : List Cell → List (List Glyph)
  | [] => [[]]
  | glyph g :: cells => (parts cells).modifyHead (g :: ·)
  | blockEnd _ :: cells => [] :: parts cells

variable {cells : List Cell} {g g' : Glyph} {first : List Glyph} {rest : List (List Glyph)}

/-- The glyphs among cells are those that have one. -/
theorem mem_filterMap_glyph? : g ∈ cells.filterMap glyph? ↔ .glyph g ∈ cells := by
  rw [List.mem_filterMap]
  constructor
  · rintro ⟨cell, hcell, hglyph⟩
    cases cell with
    | glyph d =>
      cases hglyph
      exact hcell
    | blockEnd p => cases hglyph
  · intro hmem
    exact ⟨_, hmem, rfl⟩

/-- There is always a first part, be it empty. -/
theorem exists_parts_eq (cells : List Cell) : ∃ first rest, parts cells = first :: rest := by
  induction cells with
  | nil => exact ⟨[], [], rfl⟩
  | cons cell cells ih =>
    cases cell with
    | glyph g =>
      obtain ⟨first, rest, hparts⟩ := ih
      exact ⟨g :: first, rest, by rw [parts, hparts, List.modifyHead_cons]⟩
    | blockEnd p => exact ⟨[], parts cells, rfl⟩

/-- The first part goes on as long as no block has ended. -/
theorem mem_first_iff (h : cells.Pairwise InOrder) (hparts : parts cells = first :: rest) :
    g ∈ first ↔ .glyph g ∈ cells ∧ ∀ p, .blockEnd p ∈ cells → ¬ EndsBefore p g.place := by
  -- In order means that all behind the end of a block stands behind it, so the first end decides.
  induction cells generalizing first with
  | nil =>
    cases hparts
    simp
  | cons cell cells ih =>
    obtain ⟨hcell, hcells⟩ := List.pairwise_cons.1 h
    cases cell with
    | glyph d =>
      obtain ⟨first, rest, hrest⟩ := exists_parts_eq cells
      rw [parts, hrest, List.modifyHead_cons] at hparts
      obtain ⟨rfl, rfl⟩ := List.cons.inj hparts
      have hd : ∀ p, .blockEnd p ∈ cells → ¬ EndsBefore p d.place := fun p hp => hcell _ hp
      rw [List.mem_cons, ih hcells hrest]
      simp only [List.mem_cons, glyph.injEq, reduceCtorEq, false_or]
      constructor
      · rintro (rfl | ⟨hmem, hends⟩)
        · exact ⟨.inl rfl, hd⟩
        · exact ⟨.inr hmem, hends⟩
      · rintro ⟨rfl | hmem, hends⟩
        · exact .inl rfl
        · exact .inr ⟨hmem, hends⟩
    | blockEnd p =>
      obtain ⟨rfl, rfl⟩ := List.cons.inj hparts
      refine iff_of_false List.not_mem_nil ?_
      rintro ⟨hmem, hends⟩
      rcases List.mem_cons.1 hmem with heq | hmem
      · cases heq
      · exact hends p List.mem_cons_self (hcell _ hmem)

/-- Without the ends, the parts are the glyphs. -/
theorem flatten_parts (cells : List Cell) : (parts cells).flatten = cells.filterMap glyph? := by
  induction cells with
  | nil => rfl
  | cons cell cells ih =>
    cases cell with
    | glyph g =>
      obtain ⟨first, rest, hparts⟩ := exists_parts_eq cells
      rw [hparts] at ih
      simpa [parts, hparts, glyph?] using ih
    | blockEnd p => exact ih

/-- What is in a part is among the cells. -/
theorem mem_of_mem_parts {part : List Glyph} (hpart : part ∈ parts cells) (hg : g ∈ part) :
    .glyph g ∈ cells := by
  have hmem : g ∈ (parts cells).flatten := List.mem_flatten.2 ⟨part, hpart, hg⟩
  rwa [flatten_parts, mem_filterMap_glyph?] at hmem

/-- Before the glyphs of a part, the same blocks have ended. -/
theorem endsBefore_iff_of_mem_parts (h : cells.Pairwise InOrder) {part : List Glyph}
    (hpart : part ∈ parts cells) (hg : g ∈ part) (hg' : g' ∈ part) (p : List Nat)
    (hp : .blockEnd p ∈ cells) : EndsBefore p g.place ↔ EndsBefore p g'.place := by
  -- The end `p` is in front of both glyphs or behind both of them, according to the part.
  induction cells generalizing part with
  | nil => simp at hp
  | cons cell cells ih =>
    obtain ⟨hcell, hcells⟩ := List.pairwise_cons.1 h
    cases cell with
    | glyph d =>
      obtain ⟨first, rest, hparts⟩ := exists_parts_eq (glyph d :: cells)
      rw [hparts] at hpart
      rcases List.mem_cons.1 hpart with rfl | hrest
      · exact iff_of_false (((mem_first_iff h hparts).1 hg).2 p hp)
          (((mem_first_iff h hparts).1 hg').2 p hp)
      · have hp' : .blockEnd p ∈ cells := by simpa using hp
        obtain ⟨first', rest', hparts'⟩ := exists_parts_eq cells
        rw [parts, hparts', List.modifyHead_cons] at hparts
        obtain ⟨-, rfl⟩ := List.cons.inj hparts
        exact ih hcells (hparts' ▸ List.mem_cons_of_mem _ hrest) hg hg' hp'
    | blockEnd q =>
      rcases List.mem_cons.1 hpart with rfl | hrest
      · cases hg
      · rcases List.mem_cons.1 hp with heq | hp
        · obtain rfl := blockEnd.inj heq
          exact iff_of_true (hcell _ (mem_of_mem_parts hrest hg))
            (hcell _ (mem_of_mem_parts hrest hg'))
        · exact ih hcells hrest hg hg' hp

/-- Glyphs share a part iff the same blocks have ended before them. -/
theorem shares_iff (h : cells.Pairwise InOrder) (hg : .glyph g ∈ cells) (hg' : .glyph g' ∈ cells) :
    (∃ part ∈ parts cells, g ∈ part ∧ g' ∈ part) ↔
      ∀ p, .blockEnd p ∈ cells → (EndsBefore p g.place ↔ EndsBefore p g'.place) := by
  constructor
  · rintro ⟨part, hpart, hmem, hmem'⟩
    exact endsBefore_iff_of_mem_parts h hpart hmem hmem'
  · intro hsame
    induction cells with
    | nil => simp at hg
    | cons cell cells ih =>
      obtain ⟨hcell, hcells⟩ := List.pairwise_cons.1 h
      obtain ⟨first, rest, hparts⟩ := exists_parts_eq (cell :: cells)
      by_cases hnone : ∀ p, .blockEnd p ∈ cell :: cells → ¬ EndsBefore p g.place
      · -- No block has ended yet, so both are in the first part.
        have hnone' : ∀ p, .blockEnd p ∈ cell :: cells → ¬ EndsBefore p g'.place :=
          fun p hp hends => hnone p hp ((hsame p hp).2 hends)
        exact ⟨first, hparts ▸ List.mem_cons_self, (mem_first_iff h hparts).2 ⟨hg, hnone⟩,
          (mem_first_iff h hparts).2 ⟨hg', hnone'⟩⟩
      · push Not at hnone
        obtain ⟨p, hp, hends⟩ := hnone
        -- So neither is the first cell, as no block has ended before that.
        have hbehind : ∀ d, .glyph d ∈ cell :: cells → EndsBefore p d.place → .glyph d ∈ cells := by
          rintro d hd hendsd
          rcases List.mem_cons.1 hd with rfl | hd
          · have hnot : ¬ EndsBefore p d.place := hcell (.blockEnd p) (by simpa using hp)
            exact absurd hendsd hnot
          · exact hd
        obtain ⟨part, hpart, hmem, hmem'⟩ := ih hcells (hbehind g hg hends)
          (hbehind g' hg' ((hsame p hp).1 hends))
          fun q hq => hsame q (List.mem_cons_of_mem _ hq)
        cases cell with
        | glyph d =>
          obtain ⟨first', rest', hparts'⟩ := exists_parts_eq cells
          rw [hparts'] at hpart
          rw [parts, hparts', List.modifyHead_cons]
          rcases List.mem_cons.1 hpart with rfl | hpart
          · exact ⟨d :: part, List.mem_cons_self, List.mem_cons_of_mem d hmem,
              List.mem_cons_of_mem d hmem'⟩
          · exact ⟨part, List.mem_cons_of_mem _ hpart, hmem, hmem'⟩
        | blockEnd q => exact ⟨part, List.mem_cons_of_mem _ hpart, hmem, hmem'⟩

end Cell

/-! ## The cells of the tour -/

namespace TourStep

/-- The cells of a step: the ink of what is entered, and the block that is ended on leaving. -/
def cells : TourStep → List Cell
  | enter n => n.glyphs.map .glyph
  | leave n => if n.endsBlock then [.blockEnd n.place] else []

@[simp] theorem cells_enter (n : Written) : (enter n).cells = n.glyphs.map .glyph := rfl

@[simp] theorem cells_leave (n : Written) :
    (leave n).cells = if n.endsBlock then [.blockEnd n.place] else [] := rfl

def effects (step : TourStep) : List Html.Token.Effect := step.cells.map Cell.effect

/-- At the beginning of a node one sees its own text. -/
theorem effects_enter (n : Written) :
    (enter n).effects = (ink n.kind.ownText.toList).map .shows := by
  simp [effects, Written.glyphs, Cell.effect, Function.comp_def]

/-- At the end of a node one sees the end of a block, if the node ends one. -/
theorem effects_leave (n : Written) :
    (leave n).effects = if n.endsBlock then [.blockEnd] else [] := by
  rw [effects, cells_leave]
  split <;> rfl

/-- What is shown does not depend on the place. -/
theorem effects_under (i : Nat) (step : TourStep) : (step.under i).effects = step.effects := by
  cases step <;> simp only [under, effects_enter, effects_leave] <;> rfl

/-- The glyphs of a step are those of the node it enters. -/
theorem glyph_mem_cells_iff {step : TourStep} {g : Glyph} :
    .glyph g ∈ step.cells ↔ ∃ n, step = enter n ∧ g ∈ n.glyphs := by
  cases step with
  | enter n => simp
  | leave n => rw [cells_leave]; split <;> simp

/-- A step has the end of a block if it leaves one. -/
theorem blockEnd_mem_cells_iff {step : TourStep} {p : List Nat} :
    .blockEnd p ∈ step.cells ↔ ∃ n, step = leave n ∧ n.endsBlock ∧ n.place = p := by
  cases step with
  | enter n => simp
  | leave n =>
    rw [cells_leave]
    split
    · next hends =>
      simp only [List.mem_singleton, Cell.blockEnd.injEq, leave.injEq, exists_eq_left', hends,
        true_and]
      exact eq_comm
    · next hends => simp [hends]

/-- The cells of steps that are in order are in order. -/
theorem InOrder.cells {a b : TourStep} (h : a.InOrder b) :
    ∀ x ∈ a.cells, ∀ y ∈ b.cells, x.InOrder y := by
  intro x hx y hy
  cases x with
  | glyph g =>
    cases y with
    | glyph g' => trivial
    | blockEnd p =>
      obtain ⟨m, rfl, hg⟩ := glyph_mem_cells_iff.1 hx
      obtain ⟨n, rfl, -, rfl⟩ := blockEnd_mem_cells_iff.1 hy
      rw [Cell.InOrder, Written.place_eq_of_mem_glyphs hg]
      exact h
  | blockEnd p =>
    cases y with
    | glyph g =>
      obtain ⟨m, rfl, -, rfl⟩ := blockEnd_mem_cells_iff.1 hx
      obtain ⟨n, rfl, hg⟩ := glyph_mem_cells_iff.1 hy
      rw [Cell.InOrder, Written.place_eq_of_mem_glyphs hg]
      exact h
    | blockEnd q => trivial

/-- A step has cells of one sort. -/
theorem pairwise_cells (step : TourStep) : step.cells.Pairwise Cell.InOrder := by
  cases step with
  | enter n => exact List.pairwise_map.2 (List.pairwise_of_forall fun _ _ => trivial)
  | leave n =>
    rw [cells_leave]
    split
    · exact List.pairwise_singleton _ _
    · exact .nil

end TourStep

namespace Outline

/-- The cells of the tour through a node. -/
def cells (o : Outline) : List Cell := (o.tour false).flatMap TourStep.cells

/-- The cells of a tree are in order. -/
theorem cells_inOrder (o : Outline) : o.cells.Pairwise Cell.InOrder := by
  rw [cells, List.pairwise_flatMap]
  exact ⟨fun step _ => step.pairwise_cells, (tour_inOrder false o).imp TourStep.InOrder.cells⟩

/-- The cells have the glyphs of the tree. -/
theorem glyph_mem_cells_iff {o : Outline} {g : Glyph} : .glyph g ∈ o.cells ↔ g ∈ o.glyphs := by
  simp only [cells, glyphs, List.mem_flatMap, TourStep.glyph_mem_cells_iff, mem_written_iff]
  grind

/-- The cells have the ends of the blocks that are written. -/
theorem blockEnd_mem_cells_iff {o : Outline} {p : List Nat} :
    .blockEnd p ∈ o.cells ↔ ∃ n ∈ o.written, n.endsBlock ∧ n.place = p := by
  simp only [cells, List.mem_flatMap, TourStep.blockEnd_mem_cells_iff, mem_written_iff,
    ← leave_mem_tour_iff]
  grind

/-- Without the ends, the cells are the glyphs. -/
theorem filterMap_cells (o : Outline) : o.cells.filterMap Cell.glyph? = o.glyphs := by
  have hstep : ∀ step : TourStep, step.cells.filterMap Cell.glyph? =
      (step.entered?.toList).flatMap Written.glyphs := by
    intro step
    cases step with
    | enter n => simp [TourStep.entered?, Cell.glyph?, Function.comp_def]
    | leave n => rw [TourStep.cells_leave]; split <;> rfl
  rw [cells, glyphs, written, List.filterMap_flatMap]
  simp only [hstep]
  induction o.tour false with
  | nil => rfl
  | cons step steps ih =>
    rw [List.flatMap_cons, ih, List.filterMap_cons]
    cases step.entered? <;> simp

end Outline

end StyledText.Markdown
