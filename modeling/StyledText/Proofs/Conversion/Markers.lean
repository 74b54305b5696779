import Mathlib.Data.List.Nodup
import StyledText.Proofs.Conversion.Leads
import StyledText.Proofs.Numeral.Letters
import StyledText.Proofs.Numeral.Roman

/-!
# Markers tell items apart

The items of an ordered list have markers of their own, however deep the list lies.

* `ListKind.marker_injective`: in each form, zero included, no two numbers are written alike.
* `Conversion.itemNumber_inj`: no two items have one number, as long as the numbers do not run into
  the greatest one.
* `toText_tells_items_apart`: so each item of the list shows a marker that no other item shows.
-/

namespace StyledText.Markdown

/-! ## Forms of numbers -/

theorem Numeral.toString_injective : Function.Injective fun n : Nat => toString n := by
  intro m n heq
  have hdigits : Nat.toDigits 10 m = Nat.toDigits 10 n := by
    have hlists := congrArg String.toList heq
    simpa only [Nat.toString_eq_ofList_toDigits, String.toList_ofList] using hlists
  rw [← Nat.ofDigitChars_toDigits (b := 10) (n := m) (by decide) (by decide), hdigits,
    Nat.ofDigitChars_toDigits (by decide) (by decide)]

/-- Different numbers have different markers. -/
theorem ListKind.marker_injective (tier : Nat) (style : MarkerStyle) :
    Function.Injective fun number => ListKind.ordered.marker tier number style := by
  intro m n heq
  cases style with
  | plain => exact Numeral.toString_injective ((String.append_left_inj ".").1 heq)
  | tiered =>
    have heq := (String.append_left_inj ".").1 heq
    split at heq
    · exact Numeral.toString_injective heq
    · split at heq
      · exact Numeral.alphabetic_injective heq
      · exact Numeral.roman_injective heq

namespace Conversion

variable {c : Conversion} {t : Tree} {list : NodeId}

/-- Items have different numbers until the greatest one is reached. -/
theorem itemNumber_inj {start i j : Nat} (hi : c.options.respectsListStart → start + i ≤ maxNumber)
    (hj : c.options.respectsListStart → start + j ≤ maxNumber)
    (h : c.itemNumber start i = c.itemNumber start j) : i = j := by
  unfold itemNumber at h
  split at h
  · next hrespects =>
    rw [Nat.min_eq_left (hi hrespects), Nat.min_eq_left (hj hrespects)] at h
    exact Nat.add_left_cancel h
  · exact Nat.succ.inj h

/-! ## The markers of a list -/

/-- The marker of the item at a position of a list. -/
def markerAt (c : Conversion) (t : Tree) (list : NodeId) (position : Nat) : String :=
  match t.kind list with
  | .list kind start _ =>
    kind.marker (t.markerTier list) (c.itemNumber start position) c.options.markers
  | _ => ""

/-- The markers of the items of a list, in their order. -/
def markersOf (c : Conversion) (t : Tree) (list : NodeId) : List String :=
  (List.range (t.children list).length).map (c.markerAt t list)

/-- The marker at a position is that of the item there. -/
theorem getElem?_markersOf {position : Nat} {item : NodeId}
    (hitem : (t.children list)[position]? = some item) :
    (c.markersOf t list)[position]? = some (c.markerAt t list position) := by
  obtain ⟨hlt, -⟩ := List.getElem?_eq_some_iff.1 hitem
  rw [markersOf, List.getElem?_map, List.getElem?_range hlt, Option.map_some]

/-- The lead of an item is an indentation with its marker. -/
theorem leadText_eq_markerAt {kind : ListKind} {start : Nat} {tight : Bool} {item : NodeId}
    (hlist : t.kind list = .list kind start tight) (hparent : t.parent? item = some list)
    (position : Nat) : c.leadText t item position =
      String.join (List.replicate (t.nestingLevel list) c.options.indent) ++
        c.markerAt t list position ++ " " := by
  simp only [leadText, markerAt, hparent, hlist]

/-- Different numbers have different markers, so the items of an ordered list have. -/
theorem nodup_markersOf {start : Nat} {tight : Bool}
    (hlist : t.kind list = .list .ordered start tight)
    (hcounted : c.options.respectsListStart → start + (t.children list).length ≤ maxNumber + 1) :
    (c.markersOf t list).Nodup := by
  -- all numbers stay below the greatest one
  have hnumber : ∀ i < (t.children list).length,
      c.options.respectsListStart → start + i ≤ maxNumber := by
    intro i hi hrespects
    have hle := hcounted hrespects
    omega
  refine List.Nodup.map_on ?_ List.nodup_range
  intro i hi j hj heq
  rw [List.mem_range] at hi hj
  simp only [markerAt, hlist] at heq
  exact itemNumber_inj (hnumber i hi) (hnumber j hj) (ListKind.marker_injective _ _ heq)

end Conversion

namespace Tree

variable {t : Tree} {v : Visit}

/-- The walk comes to an item from its list, at its place among the items. -/
theorem Reaches.getElem?_children (h : t.Linked) {id list : NodeId}
    (hreach : t.Reaches (t.visitTop id) v) (hitem : v.role = .item)
    (hparent : t.parent? v.node = some list) : (t.children list)[v.position]? = some v.node := by
  cases hreach with
  | refl => cases hitem
  | tail _ hstep =>
    obtain ⟨role, i, item, -, hget, rfl⟩ := mem_nexts_iff.1 hstep
    have hmem := h.mem_children_iff.1 (List.mem_of_getElem? hget)
    rcases Option.some.inj (hmem.symm.trans hparent) with rfl
    rw [position_visitChild]
    exact hget

/-- No two items of an ordered list show the same marker. The list has as many different markers as
it has items, and in every text each item that the walk comes to begins with the marker at its
position. -/
theorem toText_tells_items_apart (h : t.Built) {list : NodeId} {start : Nat} {tight : Bool}
    (hlist : t.kind list = .list .ordered start tight) (options : ConversionOptions)
    (hcounted : options.respectsListStart →
      start + (t.children list).length ≤ Conversion.maxNumber + 1) (attachments : Attachments) :
    (Conversion.markersOf { options, attachments } t list).Nodup ∧
      ∀ (id : NodeId) (inherited : Attributes) (text : Text) (v : Visit),
        t.toText id inherited attachments options = .ok text →
        t.Reaches (t.visitTop id) v → v.role = .item → t.parent? v.node = some list →
        (t.children list)[v.position]? = some v.node ∧
        ∃ marker,
          (Conversion.markersOf { options, attachments } t list)[v.position]? = some marker ∧
          Conversion.HasLead { options, attachments } t id inherited text v
            (String.join (List.replicate (t.nestingLevel list) options.indent) ++
              marker ++ " ") := by
  refine ⟨Conversion.nodup_markersOf hlist hcounted, ?_⟩
  intro id inherited text v htext hreach hitem hparent
  have hget := hreach.getElem?_children h.linked hitem hparent
  have hlead := Conversion.hasLead_of_reaches (c := { options, attachments }) h.linked
    ((toText_eq_ok_iff h.linked).1 htext) hreach hitem
  rw [Conversion.leadText_eq_markerAt hlist hparent] at hlead
  exact ⟨hget, _, Conversion.getElem?_markersOf hget, hlead⟩

/-- Steps that are counted from zero, two lists deep in an item. -/
def recipe : Tree :=
  ((((((((ofRoot .document).push 0 (.list .ordered 7 true)).push 1 .item).push 2
    (.list .ordered 1 true)).push 3 .item).push 4 (.list .ordered 0 true)).push 5 .item).push 5
    .item).push 5 .item

/-- They show a zero and two Roman numerals. The last one is in the text of the item around them. -/
theorem recipe_tells_items_apart : recipe.Built ∧ recipe.kind 5 = .list .ordered 0 true ∧
    0 + (recipe.children 5).length ≤ Conversion.maxNumber + 1 ∧
    Conversion.markersOf { options := { respectsListStart := true }, attachments := {} } recipe 5 =
      ["0.", "i.", "ii."] ∧ ["0.", "i.", "ii."].Nodup ∧
    ∃ text v, recipe.toText 4 {} {} { respectsListStart := true } = .ok text ∧
      recipe.Reaches (recipe.visitTop 4) v ∧ v.node = 8 ∧ v.role = .item ∧
      recipe.parent? v.node = some 5 ∧
      Conversion.HasLead { options := { respectsListStart := true }, attachments := {} } recipe 4 {}
        text v "\t\t\tii. " := by
  have hbuilt : recipe.Built := by
    unfold recipe
    repeat refine .push _ ?_ (by simp)
    exact .ofRoot _
  have hlist : recipe.kind 5 = .list .ordered 0 true := rfl
  have hcounted : 0 + (recipe.children 5).length ≤ Conversion.maxNumber + 1 := by decide
  have hmarkers : Conversion.markersOf
      { options := { respectsListStart := true }, attachments := {} } recipe 5 =
        ["0.", "i.", "ii."] := by
    have hthree : List.range (recipe.children 5).length = [0, 1, 2] := rfl
    simp only [Conversion.markersOf, hthree, List.map_cons, List.map_nil, Conversion.markerAt,
      hlist, ListKind.marker, Numeral.roman_eq]
    decide
  obtain ⟨text, htext⟩ : ∃ text, recipe.toText 4 {} {} { respectsListStart := true } = .ok text :=
    ⟨_, rfl⟩
  have hinner : recipe.visitChild (recipe.visitTop 4) .block (5, 0) ∈
      recipe.nexts (recipe.visitTop 4) := mem_nexts_iff.2 ⟨.block, 0, 5, rfl, rfl, rfl⟩
  have hstep : recipe.visitChild (recipe.visitChild (recipe.visitTop 4) .block (5, 0)) .item
      (8, 2) ∈ recipe.nexts (recipe.visitChild (recipe.visitTop 4) .block (5, 0)) :=
    mem_nexts_iff.2 ⟨.item, 2, 8, rfl, rfl, rfl⟩
  have hreach : recipe.Reaches (recipe.visitTop 4) _ := .tail (.single hinner) hstep
  obtain ⟨hnodup, hshown⟩ := toText_tells_items_apart hbuilt hlist { respectsListStart := true }
    (fun _ => hcounted) {}
  obtain ⟨-, marker, hmarker, hlead⟩ := hshown 4 {} text _ htext hreach rfl rfl
  rw [hmarkers] at hnodup hmarker
  rcases Option.some.inj hmarker with rfl
  exact ⟨hbuilt, hlist, hcounted, hmarkers, hnodup, text, _, htext, hreach, rfl, rfl, rfl, hlead⟩

end Tree

end StyledText.Markdown
