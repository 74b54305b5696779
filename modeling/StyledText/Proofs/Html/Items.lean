import Mathlib.Data.List.Forall2
import StyledText.Proofs.Html.Pieces
import StyledText.Proofs.Tree.Built

/-!
# The HTML of lists

What a node adds does not depend on what is written already (`Outline.write_append`). So the HTML of
a list can be read off part by part, down to the paragraphs right inside its items: they have tags
if and only if the list is loose (`Tree.Linked.writesList`).
-/

namespace StyledText.Markdown

namespace Outline

/-- What is written is added to what is there, which does not change it. -/
theorem write_append (tight : Bool) (o : Outline) (out : String) :
    o.write tight out = out ++ o.write tight "" := by
  rw [write_eq, write_eq tight o "", String.empty_append]

/-- Siblings are written one after the other. -/
theorem writeAll_eq_join (tight : Bool) (os : List Outline) (out : String) :
    writeAll tight os out = out ++ String.join (os.map fun o => o.write tight "") := by
  induction os generalizing out with
  | nil => simp [writeAll]
  | cons o rest ih =>
    rw [writeAll, ih, write_append, List.map_cons, String.join_cons, String.append_assoc]

/-- A child of an item as it is written, behind the end of a line or not. -/
def IsSegment (tight : Bool) (o : Outline) (segment : String) : Prop :=
  ∃ lead, (lead = "" ∨ lead = "\n") ∧ segment = lead ++ o.write tight ""

/-- What an item writes are the segments of its children: each is what the child writes alone, maybe
after a line end. -/
theorem exists_segments (tight first : Bool) (os : List Outline) (out : String) :
    ∃ segments, writeItem tight first os out = out ++ String.join segments ∧
      List.Forall₂ (IsSegment tight) os segments := by
  -- Whether there is a line end before a child depends on what is written before it, so the
  -- induction is for every output.
  induction os generalizing first out with
  | nil => exact ⟨[], by simp [writeItem], .nil⟩
  | cons o rest ih =>
    obtain ⟨lead, hlead, hout⟩ : ∃ lead, (lead = "" ∨ lead = "\n") ∧
        (if first && tight && o.kind = .paragraph || endsLine out then out else out ++ "\n") =
          out ++ lead := by
      split
      · exact ⟨"", .inl rfl, String.append_empty.symm⟩
      · exact ⟨"\n", .inr rfl, rfl⟩
    obtain ⟨segments, hwrite, hsegments⟩ := ih false (o.write tight (out ++ lead))
    refine ⟨(lead ++ o.write tight "") :: segments, ?_, .cons ⟨lead, hlead, rfl⟩ hsegments⟩
    rw [writeItem, hout, hwrite, write_append, String.join_cons]
    simp only [String.append_assoc]

end Outline

namespace Tree

/-- What is written inside a paragraph. -/
def content (t : Tree) (id : NodeId) : String :=
  String.join ((t.children id).map fun c => (t.outline c).toHtml)

/-- The HTML of a list, from its tags to the paragraphs right inside its items. -/
structure WritesList (t : Tree) (id : NodeId) (kind : ListKind) (start : Nat) (tight : Bool) :
    Prop where
  /-- Between the tags of the list stand its items. -/
  list : (t.outline id).toHtml = Outline.listTag kind start ++
    String.join ((t.children id).map fun item => (t.outline item).write tight "") ++
      Outline.listEndTag kind
  /-- Between the tags of an item stand its children, some on a line of their own. -/
  item : ∀ item ∈ t.children id, t.kind item = .item → ∃ segments,
    (t.outline item).write tight "" = "<li>" ++ String.join segments ++ "</li>\n" ∧
      List.Forall₂ (fun c => (t.outline c).IsSegment tight) (t.children item) segments
  /-- A paragraph has tags if and only if the list is loose, and else only its content is there. -/
  paragraph : ∀ item ∈ t.children id, t.kind item = .item →
    ∀ c ∈ t.children item, t.kind c = .paragraph →
      ((t.outline c).write tight "" = "<p>" ++ t.content c ++ "</p>\n" ↔ tight = false) ∧
      ((t.outline c).write tight "" = t.content c ↔ tight = true)

variable {t : Tree} {id : NodeId}

/-- A paragraph has tags around its content where the list is not tight. -/
theorem Linked.write_paragraph (h : t.Linked) (hkind : t.kind id = .paragraph) (tight : Bool) :
    (t.outline id).write tight "" =
      if tight then t.content id else "<p>" ++ t.content id ++ "</p>\n" := by
  rw [h.outline_eq, hkind, Outline.write, Outline.writeAll_eq_join, Outline.writeAll_eq_join,
    List.map_map, String.empty_append, String.empty_append]
  rfl

/-- Tags make a difference. -/
theorem tags_ne (content : String) : "<p>" ++ content ++ "</p>\n" ≠ content := by
  intro heq
  have htag : "<p>".length = 3 := rfl
  have hlength := congrArg String.length heq
  rw [String.length_append, String.length_append, htag] at hlength
  omega

/-- A list writes its items, and their paragraphs as it is tight or not. -/
theorem Linked.writesList (h : t.Linked) {kind : ListKind} {start : Nat} {tight : Bool}
    (hkind : t.kind id = .list kind start tight) : t.WritesList id kind start tight := by
  refine ⟨?_, ?_, ?_⟩
  · rw [h.outline_eq, hkind, Outline.toHtml, Outline.write, Outline.writeAll_eq_join, List.map_map,
      String.empty_append]
    rfl
  · intro item _ hitem
    obtain ⟨segments, hwrite, hsegments⟩ :=
      Outline.exists_segments tight true ((t.children item).map t.outline) "<li>"
    refine ⟨segments, ?_, List.forall₂_map_left_iff.1 hsegments⟩
    rw [h.outline_eq, hitem, Outline.write, String.empty_append, hwrite]
  · intro _ _ _ c _ hc
    have htags := tags_ne (t.content c)
    rw [h.write_paragraph hc]
    cases tight with
    | false => simpa using htags
    | true => simpa using htags.symm

end Tree

end StyledText.Markdown
