import StyledText.Proofs.Conversion.DocumentOrder
import StyledText.Proofs.Html.Tour

/-!
# Blocks of a conversion

Paragraph separators cut a text into blocks. The conversion sets the children of documents,
quotations, lists and items apart, so what lies below different ones is never in one block
(`toText_keeps_blocks_apart`). Unlike the writer of HTML it does not ask whether a list is tight.

That takes a way to both nodes on which all nodes set their children apart (`ReachesBlock`).
Paragraphs that an emphasis holds follow each other without a break.
-/

namespace StyledText

/-- A text is cut into blocks somewhere between two rows of its runs: each of its blocks is one of
what stands in front of the cut or one of what stands behind it. -/
def Text.CutsBetween (text : Text) (row row' : List Run) : Prop :=
  ∃ front back : Text, row <:+: front.runs ∧ row' <:+: back.runs ∧
    text.runs = front.runs ++ { text := paragraphSeparator.toString } :: back.runs ∧
    text.string.toList.splitOn paragraphSeparator =
      front.string.toList.splitOn paragraphSeparator ++
        back.string.toList.splitOn paragraphSeparator

/-- A run that is a separator cuts the text. -/
theorem Text.splitOn_string {text front back : Text}
    (h : text.runs = front.runs ++ { text := paragraphSeparator.toString } :: back.runs) :
    text.string.toList.splitOn paragraphSeparator =
      front.string.toList.splitOn paragraphSeparator ++
        back.string.toList.splitOn paragraphSeparator := by
  have hchars : text.chars = front.chars ++ paragraphSeparator :: back.chars := by
    rw [Text.chars, h, List.flatMap_append, List.flatMap_cons]
    rfl
  simp only [Text.string, String.toList_ofList, hchars, List.splitOn_eq_splitOnP]
  exact List.splitOnP_append_cons _ _ (by simp)

namespace Markdown

namespace Tree

variable {t : Tree} {v b : Visit} {s s' z : Stop}

/-- The walk comes from one visit to the other through nodes that set their children apart. -/
def ReachesBlock (t : Tree) : Visit → Visit → Prop :=
  Relation.ReflTransGen fun v w => w ∈ t.nexts v ∧ w.role ≠ .inline

/-- On such a way the walk comes to the block. -/
theorem ReachesBlock.reaches (h : t.ReachesBlock v b) : t.Reaches v b :=
  Relation.ReflTransGen.mono (fun _ _ hstep => hstep.1) _ _ h

/-! ## Cuts -/

/-- Something is set apart between a stop and a block behind it: the first node on the way to the
block before which the stop has ended. -/
theorem exists_separator_between (hb : t.ReachesBlock v b) (hs : t.Reaches v s.visit)
    (hends : EndsBefore s.visit.place b.place) :
    ∃ w : Visit, t.Reaches v w ∧ t.Shows w .separator ∧ s.Before ⟨w, .separator⟩ ∧
      w.place <+: b.place := by
  -- Either the stop has ended before the node above, or the node is a later sibling of what the
  -- stop is in, and a separator stands right before it.
  induction hb with
  | refl => exact absurd hends (not_endsBefore_of_prefix_right hs.prefix_place)
  | tail hreach hstep ih =>
    next w b =>
    obtain ⟨hnext, hrole⟩ := hstep
    obtain ⟨role, j, c, -, -, rfl⟩ := mem_nexts_iff.1 hnext
    by_cases hearlier : EndsBefore s.visit.place w.place
    · obtain ⟨u, hu, hshows, hbefore, hplace⟩ := ih hearlier
      exact ⟨u, hu, hshows, hbefore, hplace.trans (List.prefix_append _ _)⟩
    · obtain ⟨i, hij, -⟩ := hends.exists_sibling hearlier
      have hpos : 0 < (t.visitChild w role (c, j)).position := by
        rw [position_visitChild]
        exact Nat.zero_lt_of_lt hij
      exact ⟨_, (ReachesBlock.reaches hreach).tail hnext, ⟨hrole, hpos⟩, .inl hends.lt,
        List.prefix_rfl⟩

/-- What a block holds comes after the separators on the way to it. -/
theorem before_of_prefix {w : Visit} (hplace : w.place <+: s.visit.place)
    (hpart : s.part ≠ .separator) : Stop.Before ⟨w, .separator⟩ s := by
  obtain ⟨rest, hrest⟩ := hplace
  cases rest with
  | nil =>
    have hrank : 0 < s.part.rank := by
      cases hs : s.part <;> first | exact absurd hs hpart | decide
    exact .inr ⟨by rwa [List.append_nil] at hrest, hrank⟩
  | cons i rest =>
    have hlt : w.place ++ [] < w.place ++ i :: rest := List.append_left_lt (List.nil_lt_cons _ _)
    rw [List.append_nil, hrest] at hlt
    exact .inl hlt

/-- The stops behind a stop are those after it in document order. -/
theorem mem_of_before (h : t.Linked) {before after : List Stop}
    (hsplit : t.stopsFrom v = before ++ z :: after) (hs : s ∈ t.stopsFrom v)
    (hafter : z.Before s) : s ∈ after := by
  have hsorted := stopsFrom_sorted h v
  rw [hsplit] at hsorted hs
  obtain ⟨-, -, horder⟩ := List.pairwise_append.1 hsorted
  rcases List.mem_append.1 hs with hearlier | hlater
  · exact absurd hafter (horder s hearlier z List.mem_cons_self).asymm
  · rcases List.mem_cons.1 hlater with rfl | hlater
    · exact absurd hafter hafter.asymm
    · exact hlater

end Tree

/-! ## Rows -/

namespace Conversion

variable {c : Conversion} {t : Tree} {inherited : Attributes}

/-- The runs of a stop are in a row. -/
theorem exists_row_of_mem {stops : List Stop} {runs : List Run}
    (hruns : c.gather t inherited stops = .ok runs) {s : Stop} (hs : s ∈ stops) :
    ∃ row, c.runsAt t inherited s = .ok row ∧ row <:+: runs := by
  obtain ⟨before, after, rfl⟩ := List.append_of_mem hs
  obtain ⟨earlier, more, -, hmore, rfl⟩ := gather_append_eq_ok_iff.1 hruns
  obtain ⟨row, later, hrow, -, rfl⟩ := gather_cons_eq_ok_iff.1 hmore
  exact ⟨row, hrow, earlier, later, by rw [List.append_assoc]⟩

/-- The text is cut where a separator stands between two stops. -/
theorem cutsBetween_of_separator (h : t.Linked) {id : NodeId} {text : Text}
    (htext : c.gather t inherited (t.stopsFrom (t.visitTop id)) = .ok text.runs) {s s' : Stop}
    (hs : s ∈ t.stopsFrom (t.visitTop id)) (hs' : s' ∈ t.stopsFrom (t.visitTop id)) {w : Visit}
    (hw : ⟨w, .separator⟩ ∈ t.stopsFrom (t.visitTop id)) (hbefore : s.Before ⟨w, .separator⟩)
    (hafter : Stop.Before ⟨w, .separator⟩ s') :
    ∃ row row', c.runsAt t inherited s = .ok row ∧ c.runsAt t inherited s' = .ok row' ∧
      text.CutsBetween row row' := by
  obtain ⟨before, after, hsplit⟩ := List.append_of_mem hw
  have hfront := Tree.mem_of_stopsFrom_eq h hsplit hs hbefore
  have hback := Tree.mem_of_before h hsplit hs' hafter
  rw [hsplit] at htext
  obtain ⟨front, more, hgathered, hmore, hruns⟩ := gather_append_eq_ok_iff.1 htext
  obtain ⟨separator, back, hseparator, hgathered', rfl⟩ := gather_cons_eq_ok_iff.1 hmore
  rcases Except.ok.inj hseparator with rfl
  obtain ⟨row, hrow, hin⟩ := exists_row_of_mem hgathered hfront
  obtain ⟨row', hrow', hin'⟩ := exists_row_of_mem hgathered' hback
  exact ⟨row, row', hrow, hrow', ⟨front⟩, ⟨back⟩, hin, hin', hruns, Text.splitOn_string hruns⟩

end Conversion

namespace Tree

variable {t : Tree} {id : NodeId} {inherited : Attributes} {attachments : Attachments}
  {options : ConversionOptions} {text : Text}

/-- A block is cut off from whatever ends before it, as far as the nodes between them set their
children apart: those on the way to the block, from any node that holds both. -/
theorem toText_cuts_before_block (h : t.Built)
    (htext : t.toText id inherited attachments options = .ok text) {v b : Visit}
    (hv : t.Reaches (t.visitTop id) v) (hb : t.ReachesBlock v b) {s s' : Stop}
    (hs : t.Reaches v s.visit) (hshows : t.Shows s.visit s.part)
    (hends : EndsBefore s.visit.place b.place)
    (hs' : t.Reaches b s'.visit) (hshows' : t.Shows s'.visit s'.part)
    (hpart : s'.part ≠ .separator) :
    ∃ row row', Conversion.runsAt { options, attachments } t inherited s = .ok row ∧
      Conversion.runsAt { options, attachments } t inherited s' = .ok row' ∧
      text.CutsBetween row row' := by
  have hlinked := h.linked
  obtain ⟨w, hw, hseparator, hbefore, hplace⟩ := exists_separator_between hb hs hends
  have hafter : Stop.Before ⟨w, .separator⟩ s' :=
    before_of_prefix (hplace.trans hs'.prefix_place) hpart
  exact Conversion.cutsBetween_of_separator hlinked ((toText_eq_ok_iff hlinked).1 htext)
    ((mem_stopsFrom_iff hlinked).2 ⟨hv.trans hs, hshows⟩)
    ((mem_stopsFrom_iff hlinked).2 ⟨hv.trans (hb.reaches.trans hs'), hshows'⟩)
    ((mem_stopsFrom_iff hlinked).2 ⟨hv.trans hw, hseparator⟩) hbefore hafter

/-- Two blocks of which none holds the other are never in one block of the text, be the lists around
them tight or loose. What one of them shows stands in front of a cut, what the other shows behind
it. -/
theorem toText_keeps_blocks_apart (h : t.Built)
    (htext : t.toText id inherited attachments options = .ok text) {a b : Visit}
    (ha : t.ReachesBlock (t.visitTop id) a) (hb : t.ReachesBlock (t.visitTop id) b)
    (hab : ¬ a.place <+: b.place) (hba : ¬ b.place <+: a.place) {s s' : Stop}
    (hs : t.Reaches a s.visit) (hshows : t.Shows s.visit s.part) (hpart : s.part ≠ .separator)
    (hs' : t.Reaches b s'.visit) (hshows' : t.Shows s'.visit s'.part)
    (hpart' : s'.part ≠ .separator) :
    ∃ row row', Conversion.runsAt { options, attachments } t inherited s = .ok row ∧
      Conversion.runsAt { options, attachments } t inherited s' = .ok row' ∧
      (text.CutsBetween row row' ∨ text.CutsBetween row' row) := by
  rcases endsBefore_or_endsBefore hab hba with hends | hends
  · obtain ⟨row, row', hrow, hrow', hcut⟩ := toText_cuts_before_block h htext .refl hb
      (ha.reaches.trans hs) hshows (hends.of_prefix_left hs.prefix_place) hs' hshows' hpart'
    exact ⟨row, row', hrow, hrow', .inl hcut⟩
  · obtain ⟨row', row, hrow', hrow, hcut⟩ := toText_cuts_before_block h htext .refl ha
      (hb.reaches.trans hs') hshows' (hends.of_prefix_left hs'.prefix_place) hs hshows hpart
    exact ⟨row, row', hrow, hrow', .inr hcut⟩

/-- Paragraphs in an emphasis are not set apart. -/
example : (((((((ofRoot .emphasis).push 0 .paragraph).push 1 (.text "a")).push 0 .paragraph).push 3
    (.text "b")).toText root {} {} {}).map Text.string) = .ok "ab" := rfl

end Tree

end Markdown

end StyledText
