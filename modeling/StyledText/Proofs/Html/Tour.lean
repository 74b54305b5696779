import StyledText.Proofs.Chars.Ink
import StyledText.Proofs.Html.Pieces

/-!
# The writer's tour

The writer of HTML enters a node, goes through what is below it, and leaves it again. `Outline.tour`
lists these steps. The *place* of a node are the positions among siblings on the way from the top.

* `EndsBefore`: a node is left before another one is entered.
* `tour_inOrder`: of a node that is entered, the tour knows which ones have been left.
* `Outline.written`: the nodes the writer comes to, and `Outline.glyphs` the ink it finds there.
-/

namespace StyledText.Markdown

/-! ## Places -/

/-- Whether the node at one place ends before the node at the other begins. So neither holds the
other, and where they part, the first goes first. -/
def EndsBefore : List Nat → List Nat → Prop
  | i :: p, j :: q => i < j ∨ i = j ∧ EndsBefore p q
  | _, _ => False

section Places

variable {p q : List Nat} {i j : Nat}

/-- Below the same node it is the rest of the way that counts. -/
@[simp] theorem endsBefore_cons : EndsBefore (i :: p) (j :: q) ↔ i < j ∨ i = j ∧ EndsBefore p q :=
  Iff.rfl

@[simp] theorem not_endsBefore_nil_left : ¬ EndsBefore [] q := id

@[simp] theorem not_endsBefore_nil_right : ¬ EndsBefore p [] := by
  cases p <;> exact id

instance decidableEndsBefore : ∀ p q, Decidable (EndsBefore p q)
  | i :: p, j :: q =>
    have := decidableEndsBefore p q
    decidable_of_iff (i < j ∨ i = j ∧ EndsBefore p q) Iff.rfl
  | [], _ => isFalse not_endsBefore_nil_left
  | _ :: _, [] => isFalse not_endsBefore_nil_right

/-- A node does not end before what it holds. -/
theorem not_endsBefore_of_prefix (h : p <+: q) : ¬ EndsBefore p q := by
  induction p generalizing q with
  | nil => exact not_endsBefore_nil_left
  | cons i p ih =>
    cases q with
    | nil => exact not_endsBefore_nil_right
    | cons j q =>
      obtain ⟨rfl, hbegins⟩ := List.cons_prefix_cons.1 h
      rintro (hlt | ⟨-, hends⟩)
      · exact Nat.lt_irrefl i hlt
      · exact ih hbegins hends

/-- What a node holds does not end before the node begins. -/
theorem not_endsBefore_of_prefix_right (h : q <+: p) : ¬ EndsBefore p q := by
  induction q generalizing p with
  | nil => exact not_endsBefore_nil_right
  | cons j q ih =>
    obtain ⟨p, rfl, hbegins⟩ := List.cons_prefix_iff.1 h
    rintro (hlt | ⟨-, hends⟩)
    · exact Nat.lt_irrefl j hlt
    · exact ih hbegins hends

/-- What ends before a node ends before all that the node holds. -/
theorem EndsBefore.of_prefix {r : List Nat} (h : EndsBefore p q) (hqr : q <+: r) :
    EndsBefore p r := by
  induction p generalizing q r with
  | nil => exact absurd h not_endsBefore_nil_left
  | cons i p ih =>
    cases q with
    | nil => exact absurd h not_endsBefore_nil_right
    | cons j q =>
      obtain ⟨r, rfl, hbegins⟩ := List.cons_prefix_iff.1 hqr
      exact h.imp id fun ⟨heq, hends⟩ => ⟨heq, ih hends hbegins⟩

/-- What a node holds has ended where the node has. -/
theorem EndsBefore.of_prefix_left {r : List Nat} (h : EndsBefore p q) (hpr : p <+: r) :
    EndsBefore r q := by
  induction p generalizing q r with
  | nil => exact absurd h not_endsBefore_nil_left
  | cons i p ih =>
    obtain ⟨r, rfl, hbegins⟩ := List.cons_prefix_iff.1 hpr
    cases q with
    | nil => exact absurd h not_endsBefore_nil_right
    | cons j q => exact h.imp id fun ⟨heq, hends⟩ => ⟨heq, ih hends hbegins⟩

/-- The place of what ends first is the smaller one. -/
theorem EndsBefore.lt (h : EndsBefore p q) : p < q := by
  induction p generalizing q with
  | nil => exact absurd h not_endsBefore_nil_left
  | cons i p ih =>
    cases q with
    | nil => exact absurd h not_endsBefore_nil_right
    | cons j q => exact List.cons_lt_cons_iff.2 (h.imp id fun ⟨heq, hends⟩ => ⟨heq, ih hends⟩)

/-- What ends before a child and not before its parent is held by an earlier child. -/
theorem EndsBefore.exists_sibling (h : EndsBefore p (q ++ [j])) (hparent : ¬ EndsBefore p q) :
    ∃ i, i < j ∧ q ++ [i] <+: p := by
  induction q generalizing p with
  | nil =>
    cases p with
    | nil => exact absurd h not_endsBefore_nil_left
    | cons i p =>
      rcases h with hlt | ⟨-, hends⟩
      · exact ⟨i, hlt, List.prefix_append [i] p⟩
      · exact absurd hends not_endsBefore_nil_right
  | cons k q ih =>
    cases p with
    | nil => exact absurd h not_endsBefore_nil_left
    | cons i p =>
      rw [endsBefore_cons, not_or, not_and] at hparent
      rcases h with hlt | ⟨rfl, hends⟩
      · exact absurd hlt hparent.1
      · obtain ⟨l, hl, hbegins⟩ := ih hends (hparent.2 rfl)
        exact ⟨l, hl, List.cons_prefix_cons.2 ⟨rfl, hbegins⟩⟩

/-- Of two nodes, one holds the other, or one ends before the other. -/
theorem endsBefore_or_endsBefore (hpq : ¬ p <+: q) (hqp : ¬ q <+: p) :
    EndsBefore p q ∨ EndsBefore q p := by
  induction p generalizing q with
  | nil => exact absurd List.nil_prefix hpq
  | cons i p ih =>
    cases q with
    | nil => exact absurd List.nil_prefix hqp
    | cons j q =>
      rcases Nat.lt_trichotomy i j with hlt | rfl | hlt
      · exact .inl (.inl hlt)
      · rw [List.cons_prefix_cons, and_iff_right rfl] at hpq hqp
        exact (ih hpq hqp).imp (fun h => .inr ⟨rfl, h⟩) fun h => .inr ⟨rfl, h⟩
      · exact .inr (.inl hlt)

end Places

/-! ## Nodes that are written -/

namespace Kind

/-- Whether the writer goes on to the children. -/
def goesOn : Kind → Bool
  | codeBlock .. | htmlBlock _ | thematicBreak | text _ | code _ | inlineHtml _ | image .. |
    softBreak | hardBreak => false
  | _ => true

/-- Whether paragraphs right below a node have no tags, where `tight` is what holds beside it. -/
def tightBelow (tight : Bool) : Kind → Bool
  | document | unsupported _ | item => tight
  | list _ _ tight => tight
  | _ => false

/-- The text that is written of the node itself. -/
def ownText : Kind → String
  | text s | code s | codeBlock _ s => s
  | _ => ""

end Kind

/-- A node the writer comes to. -/
structure Written where
  place : List Nat
  /-- Whether a paragraph has no tags there. -/
  tight : Bool
  kind : Kind
deriving DecidableEq, Repr

/-- A character with ink, and the place of the node it comes from. -/
structure Glyph where
  place : List Nat
  char : Char
deriving DecidableEq, Repr

namespace Written

/-- Whether the tags of a node end a block. -/
def endsBlock (n : Written) : Bool :=
  match n.kind with
  | .blockQuote | .codeBlock .. | .list .. | .item | .thematicBreak => true
  | .paragraph => !n.tight
  | .heading level => 1 ≤ level && level ≤ 6
  | _ => false

/-- Whether a node is a block of text. -/
def isLeafBlock (n : Written) : Bool :=
  match n.kind with
  | .paragraph | .heading _ | .codeBlock .. => true
  | _ => false

/-- The ink of a node itself. -/
def glyphs (n : Written) : List Glyph := (Chars.ink n.kind.ownText.toList).map (Glyph.mk n.place)

/-- The node as it is seen from one level up. -/
def under (i : Nat) (n : Written) : Written := { n with place := i :: n.place }

/-- The glyphs of a node have its place. -/
theorem place_eq_of_mem_glyphs {n : Written} {g : Glyph} (h : g ∈ n.glyphs) :
    g.place = n.place := by
  obtain ⟨c, -, rfl⟩ := List.mem_map.1 h
  rfl

end Written

inductive TourStep where
  | enter (n : Written)
  | leave (n : Written)
deriving DecidableEq, Repr

namespace TourStep

def entered? : TourStep → Option Written
  | enter n => some n
  | leave _ => none

/-- The step as it is seen from one level up. -/
def under (i : Nat) : TourStep → TourStep
  | enter n => enter (n.under i)
  | leave n => leave (n.under i)

/-- Whether one step may come before another: what is left by then ends before what is entered. -/
def InOrder : TourStep → TourStep → Prop
  | leave m, enter n => EndsBefore m.place n.place
  | enter m, leave n => ¬ EndsBefore n.place m.place
  | _, _ => True

/-- Steps stay in order below a node. -/
theorem inOrder_under {a b : TourStep} (i : Nat) (h : a.InOrder b) :
    (a.under i).InOrder (b.under i) := by
  cases a <;> cases b <;> simp_all [InOrder, under, Written.under]

/-- Steps below an earlier sibling come first. -/
theorem inOrder_of_lt {i j : Nat} (h : i < j) (a b : TourStep) :
    (a.under i).InOrder (b.under j) := by
  cases a <;> cases b <;> simp [InOrder, under, Written.under] <;> omega

end TourStep

namespace Outline

open TourStep

mutual

/-- The steps through a node. -/
def tour (tight : Bool) : Outline → List TourStep
  | node kind children =>
    let top : Written := ⟨[], tight, kind⟩
    let below := if kind.goesOn then tourAll (kind.tightBelow tight) 0 children else []
    .enter top :: (below ++ [.leave top])

/-- The steps through siblings, the first of which is number `i`. -/
def tourAll (tight : Bool) (i : Nat) : List Outline → List TourStep
  | [] => []
  | o :: rest => (tour tight o).map (·.under i) ++ tourAll tight (i + 1) rest

end

/-- The nodes the writer comes to, in document order. -/
def written (o : Outline) : List Written := (o.tour false).filterMap TourStep.entered?

/-- The ink of what is written, in document order. -/
def glyphs (o : Outline) : List Glyph := o.written.flatMap Written.glyphs

/-- What is written is what the tour enters. -/
theorem mem_written_iff {o : Outline} {n : Written} : n ∈ o.written ↔ .enter n ∈ o.tour false := by
  rw [written, List.mem_filterMap]
  constructor
  · rintro ⟨step, hstep, hentered⟩
    cases step with
    | enter m =>
      cases hentered
      exact hstep
    | leave m => cases hentered
  · intro hmem
    exact ⟨_, hmem, rfl⟩

/-- A step among siblings is below one of them. -/
theorem mem_tourAll {tight : Bool} {step : TourStep} {i : Nat} {os : List Outline}
    (h : step ∈ tourAll tight i os) : ∃ j below, i ≤ j ∧ step = TourStep.under j below := by
  induction os generalizing i with
  | nil => simp [tourAll] at h
  | cons o rest ih =>
    rw [tourAll, List.mem_append, List.mem_map] at h
    rcases h with ⟨below, -, rfl⟩ | h
    · exact ⟨i, below, Nat.le_refl i, rfl⟩
    · obtain ⟨j, below, hle, hstep⟩ := ih h
      exact ⟨j, below, Nat.le_of_succ_le hle, hstep⟩

mutual

/-- Every step comes after those that may be before it. -/
theorem tour_inOrder (tight : Bool) : ∀ o : Outline, (tour tight o).Pairwise InOrder
  | .node kind children => by
    -- The top is entered first and left last, and it holds whatever is in between.
    have hbelow : (if kind.goesOn then tourAll (kind.tightBelow tight) 0 children
        else []).Pairwise InOrder := by
      split
      · exact tourAll_inOrder _ 0 children
      · exact .nil
    rw [tour, List.pairwise_cons, List.pairwise_append]
    refine ⟨?_, hbelow, List.pairwise_singleton _ _, ?_⟩
    · rintro (n | n) -
      · trivial
      · exact not_endsBefore_nil_right
    · rintro (n | n) - step hstep <;> rw [List.mem_singleton.1 hstep]
      · exact not_endsBefore_nil_left
      · trivial

/-- The tour of siblings is in order. -/
theorem tourAll_inOrder (tight : Bool) : ∀ (i : Nat) (os : List Outline),
    (tourAll tight i os).Pairwise InOrder
  | i, [] => .nil
  | i, o :: rest => by
    rw [tourAll, List.pairwise_append]
    refine ⟨?_, tourAll_inOrder tight (i + 1) rest, ?_⟩
    · exact (tour_inOrder tight o).map _ fun _ _ => inOrder_under i
    · intro a ha b hb
      obtain ⟨a, -, rfl⟩ := List.mem_map.1 ha
      obtain ⟨j, b, hj, rfl⟩ := mem_tourAll hb
      exact inOrder_of_lt hj a b

end

mutual

/-- What is entered is left, and the other way round. -/
theorem leave_mem_tour_iff (tight : Bool) : ∀ (o : Outline) (n : Written),
    .leave n ∈ tour tight o ↔ .enter n ∈ tour tight o
  | .node kind children, n => by
    have hbelow := leave_mem_tourAll_iff (kind.tightBelow tight) 0 children n
    cases hgoes : kind.goesOn <;> simp [tour, hgoes, hbelow, or_comm]

/-- Among siblings, the tour leaves what it enters. -/
theorem leave_mem_tourAll_iff (tight : Bool) : ∀ (i : Nat) (os : List Outline) (n : Written),
    .leave n ∈ tourAll tight i os ↔ .enter n ∈ tourAll tight i os
  | i, [], n => by simp [tourAll]
  | i, o :: rest, n => by
    rw [tourAll, List.mem_append, List.mem_append, leave_mem_tourAll_iff tight (i + 1) rest]
    apply or_congr_left
    rw [List.mem_map, List.mem_map]
    constructor
    · rintro ⟨m | m, hm, hstep⟩
      · cases hstep
      · cases hstep
        exact ⟨.enter m, (leave_mem_tour_iff tight o m).1 hm, rfl⟩
    · rintro ⟨m | m, hm, hstep⟩
      · cases hstep
        exact ⟨.leave m, (leave_mem_tour_iff tight o m).2 hm, rfl⟩
      · cases hstep

end

mutual

/-- The nodes that are entered are nodes of the outline. -/
theorem kind_mem_kinds_of_enter (tight : Bool) : ∀ (o : Outline) (n : Written),
    .enter n ∈ tour tight o → n.kind ∈ o.kinds
  | .node kind children, n, h => by
    rw [tour, List.mem_cons, List.mem_append] at h
    rw [kinds]
    rcases h with htop | hbelow | hleave
    · cases htop
      exact List.mem_cons_self
    · split at hbelow
      · exact List.mem_cons_of_mem kind (kind_mem_kindsAll_of_enter _ 0 children n hbelow)
      · cases hbelow
    · cases List.mem_singleton.1 hleave

/-- Among siblings, the tour enters nodes of the tree. -/
theorem kind_mem_kindsAll_of_enter (tight : Bool) : ∀ (i : Nat) (os : List Outline) (n : Written),
    .enter n ∈ tourAll tight i os → n.kind ∈ kindsAll os
  | i, [], n, h => by simp [tourAll] at h
  | i, o :: rest, n, h => by
    rw [tourAll, List.mem_append, List.mem_map] at h
    rw [kindsAll, List.mem_append]
    rcases h with ⟨m | m, hm, hstep⟩ | h
    · cases hstep
      exact .inl (kind_mem_kinds_of_enter tight o m hm)
    · cases hstep
    · exact .inr (kind_mem_kindsAll_of_enter tight (i + 1) rest n h)

end

/-- What is written is in the tree. -/
theorem kind_mem_kinds {o : Outline} {n : Written} (h : n ∈ o.written) : n.kind ∈ o.kinds :=
  kind_mem_kinds_of_enter false o n (mem_written_iff.1 h)

end Outline

end StyledText.Markdown
