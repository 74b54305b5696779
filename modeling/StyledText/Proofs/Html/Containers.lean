import StyledText.Proofs.Html.Items

/-!
# The HTML of containers

A node is written behind whatever is there already, and adds what it adds to nothing. This is not
plain to see of items, which look at the end of what is written; but they look no further back than
their own tag (`Outline.write_append`). So the HTML of a container is its tags around the HTML of
its children, each taken for itself (`Outline.toHtml_of_containerTags?`).

`Tree.toHtml_isCompositional` is the result for trees.
-/

namespace StyledText.Markdown

open Html

/-- The tags around what a container holds, for containers that write one child right after the
other. Items and lists are left out: they lay their children out. -/
def Kind.containerTags? : Kind → Option (String × String)
  | .document | .unsupported _ => some ("", "")
  | .blockQuote => some ("<blockquote>\n", "</blockquote>\n")
  | .paragraph => some ("<p>", "</p>\n")
  | .heading level => some ("<h" ++ toString level ++ ">", "</h" ++ toString level ++ ">\n")
  | .emphasis => some ("<em>", "</em>")
  | .strong => some ("<strong>", "</strong>")
  | .link destination title =>
    some ("<a href=\"" ++ escape destination ++ "\"" ++ Outline.titleAttribute title ++ ">", "</a>")
  | _ => none

/-- A container puts its tags around what its children write. -/
theorem Outline.toHtml_of_containerTags? {kind : Kind} {opening closing : String}
    (h : kind.containerTags? = some (opening, closing)) (children : List Outline) :
    (node kind children).toHtml = opening ++ String.join (children.map toHtml) ++ closing := by
  have hall : ∀ out, writeAll false children out = out ++ String.join (children.map toHtml) :=
    writeAll_eq_join false children
  cases kind with
  | codeBlock | htmlBlock | list | item | thematicBreak | text | code | inlineHtml | image
  | softBreak | hardBreak => cases h
  | document | unsupported =>
    cases h
    rw [toHtml, write, hall, String.append_empty]
  | blockQuote | paragraph | heading | emphasis | strong | link =>
    cases h
    simp only [toHtml, write, hall, Bool.false_eq_true, if_false, String.empty_append,
      String.append_assoc]

namespace Tree

variable {t : Tree}

/-- How the HTML of nodes is put together. -/
structure IsCompositional (t : Tree) : Prop where
  /-- Writing a node only adds to what is written, and always adds the same. -/
  write : ∀ id tight out,
    (t.outline id).write tight out = out ++ (t.outline id).write tight ""
  /-- The HTML of a container is its tags around the HTML of its children, one after the other. -/
  container : ∀ id opening closing, (t.kind id).containerTags? = some (opening, closing) →
    (t.outline id).toHtml =
      opening ++ String.join ((t.children id).map fun c => (t.outline c).toHtml) ++ closing

/-- What is written of a node depends on nothing that is written before, so the HTML of a container
is put together from that of its children. -/
theorem toHtml_isCompositional (h : t.Built) : t.IsCompositional := by
  refine ⟨fun id tight out => Outline.write_append tight (t.outline id) out, ?_⟩
  intro id opening closing htags
  rw [h.linked.outline_eq, Outline.toHtml_of_containerTags? htags, List.map_map]
  rfl

/-- A quote of a paragraph and of a tight list, whose item holds an empty paragraph and a rule. -/
def clipping : Tree :=
  ((((((((ofRoot .document).push 0 .blockQuote).push 1 .paragraph).push 2 (.text "a<b")).push 1
    (.list .bullet 1 true)).push 4 .item).push 5 .paragraph).push 5 .thematicBreak).push 4 .item

/-- Written behind something else, the quote adds the same as by itself: the HTML of the paragraph
and of the list between its tags. -/
theorem clipping_isCompositional : clipping.Built ∧ clipping.IsCompositional ∧
    (clipping.kind 1).containerTags? = some ("<blockquote>\n", "</blockquote>\n") ∧
    (clipping.outline 2).toHtml = "<p>a&lt;b</p>\n" ∧
    (clipping.outline 4).toHtml = "<ul>\n<li>\n<hr />\n</li>\n<li></li>\n</ul>\n" ∧
    (clipping.outline 1).write false "x" = "x<blockquote>\n" ++ "<p>a&lt;b</p>\n" ++
      "<ul>\n<li>\n<hr />\n</li>\n<li></li>\n</ul>\n" ++ "</blockquote>\n" := by
  have hbuilt : clipping.Built := by
    unfold clipping
    repeat refine .push _ ?_ (by simp)
    exact .ofRoot _
  exact ⟨hbuilt, toHtml_isCompositional hbuilt, rfl, by decide, by decide, by decide⟩

end Tree

end StyledText.Markdown
