import StyledText.Markdown.List.Numeral
import StyledText.Markdown.Tree.Outline

/-!
# List markers

The marker of an item depends on its number and on the *tier* of its list: how many lists of the
same kind hold the item. How far it is indented depends on the *nesting* of its list: how many
lists of either kind hold the item.
-/

namespace StyledText.Markdown

/-- How markers are chosen. -/
inductive MarkerStyle where
  /-- A form of its own for each of the first three tiers. -/
  | tiered
  /-- One form for all tiers. -/
  | plain
deriving DecidableEq, Repr, Inhabited

/-- The marker of the item with the given number, in a list at the given tier. -/
def ListKind.marker (kind : ListKind) (tier number : Nat) (style : MarkerStyle) : String :=
  match style, kind with
  | .plain, .bullet => "•"
  | .plain, .ordered => toString number ++ "."
  | .tiered, .bullet => if tier ≤ 1 then "•" else if tier = 2 then "◦" else "▪"
  | .tiered, .ordered =>
    (if tier ≤ 1 then toString number
      else if tier = 2 then Numeral.alphabetic number
      else Numeral.roman number) ++ "."

namespace Tree

/-- How many of a node and those that hold it are lists. -/
def nestingLevel (t : Tree) (id : NodeId) : Nat :=
  (t.ancestors id).countP fun a => (t.kind a).list?.isSome

/-- How many of a list and those that hold it are lists of its kind. Zero for what is no list. -/
def markerTier (t : Tree) (id : NodeId) : Nat :=
  match (t.kind id).list? with
  | some kind => (t.ancestors id).countP fun a => (t.kind a).list? = some kind
  | none => 0

end Tree

end StyledText.Markdown
