import StyledText.Proofs.Conversion.DocumentOrder

/-!
# How items of lists begin

An item begins with an indentation and a marker, and both depend on the lists around it. How many
these are can be counted from list to list: a list lies one deeper than the nearest list above it
(`NearestAbove`), wherever the conversion starts.

* `countP_of_nearestAbove` and `countP_of_none_above`: what is counted above a node.
* `liesDeep`: the level and the tier of a list, from those of the nearest list above.
* `hasLead_of_reaches`: a stop of a successful conversion splits its runs.
* `toText_leads_items`: the lead of each item of a list that the walk comes to as a list.
-/

namespace StyledText.Markdown

namespace Tree

variable {t : Tree} {id : NodeId}

/-! ## Lists above lists -/

/-- The nearest node above another one of which `P` holds. -/
inductive NearestAbove (t : Tree) (P : NodeId → Prop) : NodeId → NodeId → Prop
  | parent {id p : NodeId} : t.parent? id = some p → P p → NearestAbove t P id p
  | further {id p above : NodeId} : t.parent? id = some p → ¬ P p → NearestAbove t P p above →
    NearestAbove t P id above

/-- What is the nearest of its sort is of that sort. -/
theorem NearestAbove.holds {P : NodeId → Prop} {above : NodeId} (h : t.NearestAbove P id above) :
    P above := by
  induction h with
  | parent _ hP => exact hP
  | further _ _ _ ih => exact ih

theorem tail_ancestors (h : t.Linked) {p : NodeId} (hparent : t.parent? id = some p) :
    (t.ancestors id).tail = t.ancestors p := by
  rw [h.ancestors_of_parent? hparent, List.tail_cons]

theorem ancestors_eq_cons (h : t.Linked) (id : NodeId) :
    t.ancestors id = id :: (t.ancestors id).tail := by
  cases hparent : t.parent? id with
  | none => rw [ancestors_of_parent?_eq_none hparent, List.tail_cons]
  | some p => rw [h.ancestors_of_parent? hparent, List.tail_cons]

variable {P : NodeId → Prop} [DecidablePred P]

/-- Above a node there are as many as from the nearest one on. -/
theorem countP_of_nearestAbove (h : t.Linked) {above : NodeId}
    (habove : t.NearestAbove P id above) :
    (t.ancestors id).tail.countP P = (t.ancestors above).countP P := by
  induction habove with
  | parent hparent hP => rw [tail_ancestors h hparent]
  | @further id p above hparent hP _ ih =>
    rw [tail_ancestors h hparent, ancestors_eq_cons h p, List.countP_cons_of_neg (by simpa), ih]

/-- Without a nearest one there is none at all. -/
theorem countP_of_none_above (h : t.Linked) (hnone : ∀ above, ¬ t.NearestAbove P id above) :
    (t.ancestors id).tail.countP P = 0 := by
  induction id using h.induction_down with
  | top id hparent => rw [ancestors_of_parent?_eq_none hparent, List.tail_cons, List.countP_nil]
  | step c p hparent ih =>
    have hP : ¬ P p := fun hP => hnone p (.parent hparent hP)
    have habove : ∀ above, ¬ t.NearestAbove P p above :=
      fun above habove => hnone above (.further hparent hP habove)
    rw [tail_ancestors h hparent, ancestors_eq_cons h p, List.countP_cons_of_neg (by simpa),
      ih habove]

def IsList (t : Tree) (id : NodeId) : Prop := (t.kind id).list?.isSome

def IsListOfKind (t : Tree) (kind : ListKind) (id : NodeId) : Prop := (t.kind id).list? = some kind

instance (t : Tree) : DecidablePred t.IsList := fun _ => inferInstanceAs (Decidable (_ = _))

instance (t : Tree) (kind : ListKind) : DecidablePred (t.IsListOfKind kind) :=
  fun _ => inferInstanceAs (Decidable (_ = _))

/-- The level of a node counts the lists among the nodes from it to the root. -/
theorem nestingLevel_eq (t : Tree) (id : NodeId) :
    t.nestingLevel id = (t.ancestors id).countP t.IsList := by
  unfold nestingLevel
  exact List.countP_congr fun _ _ => decide_eq_true_iff.symm

theorem markerTier_eq {kind : ListKind} (hkind : t.IsListOfKind kind id) :
    t.markerTier id = (t.ancestors id).countP (t.IsListOfKind kind) := by
  unfold markerTier
  rw [show (t.kind id).list? = some kind from hkind]
  rfl

/-- Each list is of one of the two kinds. -/
theorem countP_isList (nodes : List NodeId) : nodes.countP t.IsList =
    nodes.countP (t.IsListOfKind .bullet) + nodes.countP (t.IsListOfKind .ordered) := by
  induction nodes with
  | nil => rfl
  | cons id rest ih =>
    rw [List.countP_cons, List.countP_cons, List.countP_cons, ih]
    cases hkind : (t.kind id).list? with
    | none => simp [IsList, IsListOfKind, hkind]
    | some kind => cases kind <;> simp [IsList, IsListOfKind, hkind] <;> omega

/-- How deep a list of the given kind lies. -/
structure LiesDeep (t : Tree) (list : NodeId) (kind : ListKind) : Prop where
  level : ∀ above, t.NearestAbove t.IsList list above →
    t.nestingLevel list = 1 + t.nestingLevel above
  first_level : (∀ above, ¬ t.NearestAbove t.IsList list above) → t.nestingLevel list = 1
  tier : ∀ above, t.NearestAbove (t.IsListOfKind kind) list above →
    t.markerTier list = 1 + t.markerTier above
  first_tier : (∀ above, ¬ t.NearestAbove (t.IsListOfKind kind) list above) → t.markerTier list = 1
  /-- The level counts the lists of both kinds. -/
  both_kinds : t.nestingLevel list = (t.ancestors list).countP (t.IsListOfKind .bullet) +
    (t.ancestors list).countP (t.IsListOfKind .ordered)

/-- Level and tier are counted from list to list, each from the nearest one above. -/
theorem liesDeep (h : t.Linked) {kind : ListKind} (hkind : t.IsListOfKind kind id) :
    t.LiesDeep id kind := by
  have hlist : t.IsList id := by
    rw [IsList, show (t.kind id).list? = some kind from hkind]
    rfl
  have hlevel : t.nestingLevel id = 1 + (t.ancestors id).tail.countP t.IsList := by
    rw [nestingLevel_eq, ancestors_eq_cons h id, List.countP_cons_of_pos (by simpa), Nat.add_comm]
    rfl
  have htier : t.markerTier id = 1 + (t.ancestors id).tail.countP (t.IsListOfKind kind) := by
    rw [markerTier_eq hkind, ancestors_eq_cons h id, List.countP_cons_of_pos (by simpa),
      Nat.add_comm]
    rfl
  refine ⟨?_, ?_, ?_, ?_, ?_⟩
  · intro above habove
    rw [hlevel, countP_of_nearestAbove h habove, nestingLevel_eq]
  · intro hnone
    rw [hlevel, countP_of_none_above h hnone]
  · intro above habove
    rw [htier, countP_of_nearestAbove h habove, markerTier_eq habove.holds]
  · intro hnone
    rw [htier, countP_of_none_above h hnone]
  · rw [nestingLevel_eq, countP_isList]

end Tree

/-! ## Leads in the text -/

namespace Conversion

variable {c : Conversion} {t : Tree} {id : NodeId} {inherited : Attributes} {v : Visit}

/-- In the text of a node, the item of a visit begins with a lead. It is a run by itself, and what
the walk meets before and after it is on its two sides. -/
def HasLead (c : Conversion) (t : Tree) (id : NodeId) (inherited : Attributes) (text : Text)
    (item : Visit) (lead : String) : Prop :=
  ∃ before after earlier later,
    t.stopsFrom (t.visitTop id) = before ++ ⟨item, .lead⟩ :: after ∧
    c.gather t inherited before = .ok earlier ∧ c.gather t inherited after = .ok later ∧
    text.runs = earlier ++
      { text := lead, attributes := item.attributes c.inheritance inherited } :: later

/-- The walk shows the lead of each item it comes to. -/
theorem hasLead_of_reaches (h : t.Linked) {text : Text}
    (htext : c.gather t inherited (t.stopsFrom (t.visitTop id)) = .ok text.runs)
    (hreach : t.Reaches (t.visitTop id) v) (hitem : v.role = .item) :
    c.HasLead t id inherited text v (c.leadText t v.node v.position) := by
  have hstop : (⟨v, .lead⟩ : Stop) ∈ t.stopsFrom (t.visitTop id) :=
    (Tree.mem_stopsFrom_iff h).2 ⟨hreach, hitem⟩
  -- the lead is a stop of the walk, so what is gathered splits there
  obtain ⟨before, after, hsplit⟩ := List.append_of_mem hstop
  rw [hsplit] at htext
  obtain ⟨earlier, more, hearlier, hmore, hruns⟩ := gather_append_eq_ok_iff.1 htext
  obtain ⟨row, later, hrow, hlater, rfl⟩ := gather_cons_eq_ok_iff.1 hmore
  rcases Except.ok.inj hrow with rfl
  exact ⟨before, after, earlier, later, hsplit, hearlier, hlater, hruns⟩

end Conversion

namespace Tree

variable {t : Tree}

/-- The lists around a list say how its items begin. Its level and its tier are counted from list to
list, and in every text of a node above it each item begins with the indentation repeated for the
level, the marker for the tier and a space. -/
theorem toText_leads_items (h : t.Built) {list : NodeId} {kind : ListKind} {start : Nat}
    {tight : Bool} (hlist : t.kind list = .list kind start tight) :
    t.LiesDeep list kind ∧
      ∀ (id : NodeId) (inherited : Attributes) (attachments : Attachments)
        (options : ConversionOptions) (text : Text) (v : Visit),
        t.toText id inherited attachments options = .ok text →
        t.Reaches (t.visitTop id) v → v.node = list → v.role ≠ .item →
        ∀ (i : Nat) (item : NodeId), (t.children list)[i]? = some item →
          Conversion.HasLead { options, attachments } t id inherited text
            (t.visitChild v .item (item, i))
            (String.join (List.replicate (t.nestingLevel list) options.indent) ++
              kind.marker (t.markerTier list)
                (if options.respectsListStart then min (start + i) Conversion.maxNumber else i + 1)
                options.markers ++ " ") := by
  have hkind : t.IsListOfKind kind list := by
    rw [IsListOfKind, hlist]
    rfl
  refine ⟨liesDeep h.linked hkind, ?_⟩
  intro id inherited attachments options text v htext hreach hnode hrole i item hitem
  have hwithin : t.within v = some .item := by
    rw [within, if_neg hrole, hnode, hlist]
  have hstep : t.visitChild v .item (item, i) ∈ t.nexts v :=
    mem_nexts_iff.2 ⟨.item, i, item, hwithin, hnode ▸ hitem, rfl⟩
  have hlead := Conversion.hasLead_of_reaches (c := { options, attachments }) h.linked
    ((toText_eq_ok_iff h.linked).1 htext) (.tail hreach hstep) rfl
  have hparent : t.parent? item = some list :=
    h.linked.mem_children_iff.1 (List.mem_of_getElem? hitem)
  rw [position_visitChild] at hlead
  simp only [Conversion.leadText, visitChild, hparent, hlist] at hlead
  exact hlead

/-- A list with a quotation in its item. There, an ordered list starts with the greatest number. -/
def ledger : Tree :=
  (((((((ofRoot .document).push 0 (.list .bullet 1 true)).push 1 .item).push 2 .blockQuote).push 3
    (.list .ordered Conversion.maxNumber true)).push 4 .item).push 4 .item).push 6 (.text "Total")

/-- Its second item, if the conversion starts with the quotation. -/
theorem ledger_leads_items : ledger.Built ∧
    ledger.kind 4 = .list .ordered Conversion.maxNumber true ∧ ledger.LiesDeep 4 .ordered ∧
    ∃ text, ledger.toText 3 {} {} { respectsListStart := true } = .ok text ∧
      Conversion.HasLead { options := { respectsListStart := true }, attachments := {} } ledger 3 {}
        text (ledger.visitChild (ledger.visitChild (ledger.visitTop 3) .block (4, 0)) .item (6, 1))
        "\t\t18446744073709551615. " := by
  have hbuilt : ledger.Built := by
    unfold ledger
    repeat refine .push _ ?_ (by simp)
    exact .ofRoot _
  have hlist : ledger.kind 4 = .list .ordered Conversion.maxNumber true := rfl
  obtain ⟨text, htext⟩ : ∃ text, ledger.toText 3 {} {} { respectsListStart := true } = .ok text :=
    ⟨_, rfl⟩
  have hstep : ledger.visitChild (ledger.visitTop 3) .block (4, 0) ∈
      ledger.nexts (ledger.visitTop 3) := mem_nexts_iff.2 ⟨.block, 0, 4, rfl, rfl, rfl⟩
  obtain ⟨hdeep, hlead⟩ := toText_leads_items hbuilt hlist
  exact ⟨hbuilt, hlist, hdeep, text, htext,
    hlead 3 {} {} _ text _ htext (.single hstep) rfl (by decide) 1 6 rfl⟩

/-- A list that stands right in another list. -/
def drawer : Tree :=
  ((((ofRoot .document).push 0 (.list .bullet 1 true)).push 1 (.list .bullet 1 true)).push 2
    .item).push 3 (.text "Pens")

/-- As an item, a list gives its own items no lead. -/
theorem drawer_omits_lead : drawer.Built ∧ drawer.kind 2 = .list .bullet 1 true ∧
    drawer.children 2 = [3] ∧ (∀ n < drawer.size, ¬ drawer.holdsHtml n) ∧
    (∃ v, drawer.Reaches (drawer.visitTop root) v ∧ v.node = 2) ∧
    drawer.nestingLevel 2 = 2 ∧ drawer.markerTier 2 = 2 ∧
    ∃ text, drawer.toText root {} {} {} = .ok text ∧
      text.runs.map Run.text = ["\t• ", "Pens"] ∧
      "\t" ++ "\t" ++ ListKind.bullet.marker 2 1 .tiered ++ " " ∉ text.runs.map Run.text := by
  have hbuilt : drawer.Built := by
    unfold drawer
    repeat refine .push _ ?_ (by simp)
    exact .ofRoot _
  have hlist : drawer.visitChild (drawer.visitTop root) .block (1, 0) ∈
      drawer.nexts (drawer.visitTop root) := mem_nexts_iff.2 ⟨.block, 0, 1, rfl, rfl, rfl⟩
  have hitem : drawer.visitChild (drawer.visitChild (drawer.visitTop root) .block (1, 0)) .item
      (2, 0) ∈ drawer.nexts (drawer.visitChild (drawer.visitTop root) .block (1, 0)) :=
    mem_nexts_iff.2 ⟨.item, 0, 2, rfl, rfl, rfl⟩
  have hreach : ∃ v, drawer.Reaches (drawer.visitTop root) v ∧ v.node = 2 :=
    ⟨_, .tail (.single hlist) hitem, rfl⟩
  exact ⟨hbuilt, rfl, rfl, by decide, hreach, by decide, by decide, _, rfl, rfl, by decide⟩

end Tree

end StyledText.Markdown
