import Mathlib.Data.List.Nodup
import StyledText.Proofs.Conversion.DocumentOrder

/-!
# Where a conversion fails

A conversion fails for two reasons, each at a node: an image without an attachment, and raw markup
that the renderer refuses (`Conversion.Fault`).

* `Reaches.eq_of_node_eq`, `Reaches.eq_of_place_eq`: the walk comes to each node and to each place
  at most once, so the first faulty visit is one node.
* `gather_eq_error_iff`: the stops of a walk fail as the first faulty visit does.
* `toText_fails_at_first_fault`: a conversion fails exactly where the walk meets a fault, and it
  reports the first one. Below an unstyled node, a leaf or a rendered block there is none, unless
  that node is itself an item of a list.
-/

namespace StyledText.Markdown

/-! ## The first failure in a row -/

section Row

variable {α β ε : Type} {f : α → Except ε β} {e : ε}

/-- A row fails at its first element or behind it. -/
theorem mapM_cons_eq_error_iff {x : α} {rest : List α} : (x :: rest).mapM f = .error e ↔
    f x = .error e ∨ (∃ y, f x = .ok y) ∧ rest.mapM f = .error e := by
  rw [List.mapM_cons]
  cases hx : f x with
  | error e' => simp [bind, Except.bind]
  | ok y => cases rest.mapM f <;> simp [bind, Except.bind, pure, Except.pure]

/-- A row of steps fails as its first failing step does. -/
theorem mapM_eq_error_iff {row : List α} : row.mapM f = .error e ↔
    ∃ before a after, row = before ++ a :: after ∧ f a = .error e ∧
      ∀ b ∈ before, ∃ y, f b = .ok y := by
  induction row with
  | nil => simp [pure, Except.pure]
  | cons x rest ih =>
    rw [mapM_cons_eq_error_iff, ih]
    -- induction on the row: the failing element is its head, or the head succeeds
    constructor
    · rintro (hx | ⟨hx, before, a, after, rfl, ha, hbefore⟩)
      · exact ⟨[], x, rest, rfl, hx, by simp⟩
      · exact ⟨x :: before, a, after, rfl, ha, by simpa using ⟨hx, hbefore⟩⟩
    · intro ⟨before, a, after, hsplit, ha, hbefore⟩
      cases before with
      | nil =>
        rcases List.cons.inj hsplit with ⟨rfl, -⟩
        exact .inl ha
      | cons b before =>
        rcases List.cons.inj hsplit with ⟨rfl, hrest⟩
        rw [List.forall_mem_cons] at hbefore
        exact .inr ⟨hbefore.1, before, a, after, hrest, ha, hbefore.2⟩

/-- A row in which a step fails does not succeed. -/
theorem exists_mapM_eq_error {row : List α} {a : α} (ha : a ∈ row) (hfails : f a = .error e) :
    ∃ e', row.mapM f = .error e' := by
  induction row with
  | nil => exact absurd ha List.not_mem_nil
  | cons x rest ih =>
    cases hx : f x with
    | error e' => exact ⟨e', mapM_cons_eq_error_iff.2 (.inl hx)⟩
    | ok y =>
      rcases List.mem_cons.1 ha with rfl | ha
      · rw [hfails] at hx
        cases hx
      · obtain ⟨e', hrest⟩ := ih ha
        exact ⟨e', mapM_cons_eq_error_iff.2 (.inr ⟨⟨y, hx⟩, hrest⟩)⟩

end Row

namespace Tree

variable {t : Tree} {id : NodeId} {v w : Visit}

/-! ## Visits of one walk -/

/-- The walk goes on to later nodes only. -/
theorem Reaches.le_node (h : t.Linked) (hreach : t.Reaches v w) : v.node ≤ w.node := by
  induction hreach with
  | refl => exact Nat.le_refl _
  | tail _ hstep ih =>
    exact Nat.le_trans ih (Nat.le_of_lt (h.lt_of_mem_children (node_mem_children hstep)))

/-- Visits of one walk are told apart by whatever tells the top from the rest, and siblings from
each other, and is the same for two visits only if it is for those they come from. -/
theorem Reaches.eq_of_key {κ : Type} (key : Visit → κ)
    (htop : ∀ {v w}, t.Reaches (t.visitTop id) v → w ∈ t.nexts v → key w ≠ key (t.visitTop id))
    (hup : ∀ {v w v' w'}, w ∈ t.nexts v → w' ∈ t.nexts v' → key w = key w' → key v = key v')
    (hsibling : ∀ {v w w'}, w ∈ t.nexts v → w' ∈ t.nexts v → key w = key w' → w = w')
    (hv : t.Reaches (t.visitTop id) v) (hw : t.Reaches (t.visitTop id) w)
    (hkey : key v = key w) : v = w := by
  -- both ways are taken from their last step; the keys go up together until one way is at the top
  induction hv generalizing w with
  | refl =>
    rcases Relation.ReflTransGen.cases_tail hw with rfl | ⟨u, hu, hstep⟩
    · rfl
    · exact absurd hkey.symm (htop hu hstep)
  | tail hu hstep ih =>
    rcases Relation.ReflTransGen.cases_tail hw with rfl | ⟨u', hu', hstep'⟩
    · exact absurd hkey (htop hu hstep)
    · have hsame := ih hu' (hup hstep hstep' hkey)
      rw [← hsame] at hstep'
      exact hsibling hstep hstep' hkey

/-- Siblings are visited in one role. -/
theorem eq_of_mem_nexts (hv : w ∈ t.nexts v) {w' : Visit} (hw : w' ∈ t.nexts v)
    (hplace : w.position = w'.position) : w = w' := by
  rcases mem_nexts_iff.1 hv with ⟨role, i, c, hrole, hc, rfl⟩
  rcases mem_nexts_iff.1 hw with ⟨role', i', c', hrole', hc', rfl⟩
  rcases Option.some.inj (hrole.symm.trans hrole') with rfl
  rw [position_visitChild, position_visitChild] at hplace
  subst hplace
  rw [Option.some.inj (hc.symm.trans hc')]

/-- The walk comes to a node at most once. -/
theorem Reaches.eq_of_node_eq (h : t.Linked) (hv : t.Reaches (t.visitTop id) v)
    (hw : t.Reaches (t.visitTop id) w) (hnode : v.node = w.node) : v = w := by
  refine eq_of_key Visit.node ?_ ?_ ?_ hv hw hnode
  · intro v w hreach hstep
    have hle : id ≤ v.node := hreach.le_node h
    have hlt := h.lt_of_mem_children (node_mem_children hstep)
    exact Nat.ne_of_gt (Nat.lt_of_le_of_lt hle hlt)
  · intro v w v' w' hstep hstep' hsame
    have hparent := h.mem_children_iff.1 (node_mem_children hstep)
    have hparent' := h.mem_children_iff.1 (node_mem_children hstep')
    rw [hsame, hparent'] at hparent
    exact (Option.some.inj hparent).symm
  · intro v w w' hstep hstep' hsame
    refine eq_of_mem_nexts hstep hstep' ?_
    rcases mem_nexts_iff.1 hstep with ⟨role, i, c, -, hc, rfl⟩
    rcases mem_nexts_iff.1 hstep' with ⟨role', i', c', -, hc', rfl⟩
    -- A node stands only once among the children.
    have hnodup : (t.children v.node).Nodup := (h.children_sorted v.node).imp Nat.ne_of_lt
    have hchild : c = c' := hsame
    subst hchild
    rw [position_visitChild, position_visitChild]
    obtain ⟨hi, hget⟩ := List.getElem?_eq_some_iff.1 hc
    obtain ⟨hi', hget'⟩ := List.getElem?_eq_some_iff.1 hc'
    exact (List.Nodup.getElem_inj_iff hnodup).1 (hget.trans hget'.symm)

/-- The walk comes to a place at most once. -/
theorem Reaches.eq_of_place_eq (hv : t.Reaches (t.visitTop id) v)
    (hw : t.Reaches (t.visitTop id) w) (hplace : v.place = w.place) : v = w := by
  refine eq_of_key Visit.place ?_ ?_ ?_ hv hw hplace
  · intro v w _ hstep
    rcases mem_nexts_iff.1 hstep with ⟨role, i, c, -, -, rfl⟩
    simp [visitChild, visitTop]
  · intro v w v' w' hstep hstep' hsame
    rcases mem_nexts_iff.1 hstep with ⟨role, i, c, -, -, rfl⟩
    rcases mem_nexts_iff.1 hstep' with ⟨role', i', c', -, -, rfl⟩
    exact (List.append_inj' hsame rfl).1
  · intro v w w' hstep hstep' hsame
    exact eq_of_mem_nexts hstep hstep' (by rw [Visit.position, hsame, Visit.position])

theorem Linked.lt_of_mem_tail_ancestors (h : t.Linked) {n a : NodeId}
    (ha : a ∈ (t.ancestors n).tail) : a < n := by
  cases hparent : t.parent? n with
  | none =>
    rw [ancestors_of_parent?_eq_none hparent] at ha
    exact absurd ha List.not_mem_nil
  | some p =>
    rw [h.ancestors_of_parent? hparent, List.tail_cons] at ha
    exact Nat.lt_of_le_of_lt (h.le_of_mem_ancestors ha) (h.parent_lt hparent)

/-- From a visited node that holds another one, the walk goes on. -/
theorem Reaches.nexts_ne_nil (h : t.Linked) (hv : t.Reaches (t.visitTop id) v)
    (hw : t.Reaches (t.visitTop id) w) (hholds : v.node ∈ (t.ancestors w.node).tail) :
    t.nexts v ≠ [] := by
  induction hw with
  | refl =>
    -- What holds the top has a smaller name, so it is not visited.
    have hlt : v.node < id := h.lt_of_mem_tail_ancestors hholds
    exact absurd (hv.le_node h) (Nat.not_le_of_lt hlt)
  | @tail u w hu hstep ih =>
    have hparent := h.mem_children_iff.1 (node_mem_children hstep)
    rw [h.ancestors_of_parent? hparent, List.tail_cons] at hholds
    by_cases hnode : v.node = u.node
    · rw [hv.eq_of_node_eq h hu hnode]
      exact List.ne_nil_of_mem hstep
    · refine ih ?_
      cases hgrand : t.parent? u.node with
      | none =>
        rw [ancestors_of_parent?_eq_none hgrand, List.mem_singleton] at hholds
        exact absurd hholds hnode
      | some p =>
        rw [h.ancestors_of_parent? hgrand] at hholds ⊢
        exact (List.mem_cons.1 hholds).resolve_left hnode

end Tree

/-! ## Faults -/

/-- Images without a destination do not count. -/
theorem Kind.destination?_eq_some_iff {kind : Kind} {destination : String} :
    kind.destination? = some destination ↔
      ∃ title alt, kind = .image destination title alt ∧ destination ≠ "" := by
  constructor
  · intro h
    unfold destination? at h
    split at h
    · next d title alt =>
      split at h
      · contradiction
      · next hnamed =>
        rcases Option.some.inj h with rfl
        exact ⟨title, alt, rfl, hnamed⟩
    · contradiction
  · rintro ⟨title, alt, rfl, hnamed⟩
    exact if_neg hnamed

namespace Conversion

/-- Why the conversion fails when the walk comes to a node. Of an item of a list, only what it holds
is converted, so it is never at fault itself. -/
inductive Fault (c : Conversion) (t : Tree) (inherited : Attributes) (v : Visit) :
    ConversionError → Prop
  /-- There is no attachment for the destination of an image. -/
  | image {destination title alt : String} (role : v.role ≠ .item)
      (kind : t.kind v.node = .image destination title alt) (named : destination ≠ "")
      (missing : c.attachments.get? destination = none) :
      Fault c t inherited v (.attachmentMissing destination)
  /-- The renderer refuses a block with raw markup right inside. -/
  | html {e : HtmlError} (role : v.role ≠ .item)
      (kind : t.kind v.node ∈ [.document, .blockQuote, .item]) (raw : t.holdsHtml v.node)
      (refused : c.options.html.render (t.outline v.node).toHtml
        (v.attributes c.inheritance inherited) = .error e) :
      Fault c t inherited v (.html e)

variable {c : Conversion} {t : Tree} {id : NodeId} {inherited : Attributes} {v : Visit}
  {e e' : ConversionError}

/-- A visit has one fault at most. -/
theorem Fault.unique (h : c.Fault t inherited v e) (h' : c.Fault t inherited v e') : e = e' := by
  -- a node is an image or holds raw markup, never both
  cases h with
  | image _ kind _ _ =>
    cases h' with
    | image _ kind' _ _ =>
      rw [kind] at kind'
      rw [(Kind.image.inj kind').1]
    | html _ kind' _ _ => simp [kind] at kind'
  | html _ kind _ refused =>
    cases h' with
    | image _ kind' _ _ => simp [kind'] at kind
    | html _ _ _ refused' =>
      rw [refused] at refused'
      rw [Except.error.inj refused']

/-- The faults of a visit are the failures of what it leaves in the text. -/
theorem fault_iff : c.Fault t inherited v e ↔
    ∃ part, t.Shows v part ∧ c.runsAt t inherited ⟨v, part⟩ = .error e := by
  constructor
  · intro h
    cases h with
    | image role kind named missing =>
      refine ⟨.image, ⟨role, by simp [kind, Kind.destination?, named]⟩, ?_⟩
      simp [runsAt, kind, Kind.destination?, named, missing]
    | html role kind raw refused =>
      refine ⟨.html, ⟨role, kind, raw⟩, ?_⟩
      simp [runsAt, refused]
  · rintro ⟨part, hshows, hfails⟩
    -- only images and raw markup are looked up, so nothing else can fail
    cases part with
    | separator | lead | leaf | blank => simp [runsAt] at hfails
    | image =>
      obtain ⟨hrole, hdestination⟩ := hshows
      obtain ⟨destination, hd⟩ := Option.isSome_iff_exists.1 hdestination
      obtain ⟨title, alt, hkind, hnamed⟩ := Kind.destination?_eq_some_iff.1 hd
      simp only [runsAt, hd, Option.getD_some] at hfails
      split at hfails
      · simp at hfails
      · next hmissing =>
        rcases Except.error.inj hfails with rfl
        exact .image hrole hkind hnamed hmissing
    | html =>
      obtain ⟨hrole, hkind, hraw⟩ := hshows
      simp only [runsAt] at hfails
      split at hfails
      · simp at hfails
      · next hrefused =>
        rcases Except.error.inj hfails with rfl
        exact .html hrole hkind hraw hrefused

/-- The visit is at fault, and all others that are come later in the walk. -/
structure FirstFault (c : Conversion) (t : Tree) (id : NodeId) (inherited : Attributes) (v : Visit)
    (e : ConversionError) : Prop where
  reached : t.Reaches (t.visitTop id) v
  fault : c.Fault t inherited v e
  first : ∀ w e', t.Reaches (t.visitTop id) w → c.Fault t inherited w e' →
    w = v ∨ v.place < w.place

/-- There is one first fault at most. -/
theorem FirstFault.unique {w : Visit} (h : c.FirstFault t id inherited v e)
    (h' : c.FirstFault t id inherited w e') : e = e' := by
  rcases h.first w e' h'.reached h'.fault with rfl | hlt
  · exact h.fault.unique h'.fault
  · rcases h'.first v e h.reached h.fault with rfl | hlt'
    · exact h.fault.unique h'.fault
    · exact absurd hlt' (List.lt_asymm hlt)

theorem gather_eq_error_iff_mapM {stops : List Stop} :
    c.gather t inherited stops = .error e ↔ stops.mapM (c.runsAt t inherited) = .error e := by
  unfold gather
  cases stops.mapM (c.runsAt t inherited) <;> simp [Functor.map, Except.map]

/-- The stops of a walk fail with its first fault. -/
theorem firstFault_of_gather (h : t.Linked)
    (hfails : c.gather t inherited (t.stopsFrom (t.visitTop id)) = .error e) :
    ∃ v, c.FirstFault t id inherited v e := by
  obtain ⟨before, s, after, hsplit, hs, hbefore⟩ :=
    mapM_eq_error_iff.1 (gather_eq_error_iff_mapM.1 hfails)
  have hmem : ∀ {s' : Stop}, s' ∈ t.stopsFrom (t.visitTop id) ↔
      t.Reaches (t.visitTop id) s'.visit ∧ t.Shows s'.visit s'.part := Tree.mem_stopsFrom_iff h
  have hsorted := Tree.stopsFrom_sorted h (t.visitTop id)
  rw [hsplit] at hmem hsorted
  obtain ⟨hreach, hshows⟩ := hmem.1 (List.mem_append_right before List.mem_cons_self)
  refine ⟨s.visit, hreach, fault_iff.2 ⟨s.part, hshows, hs⟩, ?_⟩
  intro w e' hw hfault
  obtain ⟨part, hpart, hfails'⟩ := fault_iff.1 hfault
  have hstop : (⟨w, part⟩ : Stop) ∈ before ++ s :: after := hmem.2 ⟨hw, hpart⟩
  rcases List.mem_append.1 hstop with hearlier | hlater
  · -- what comes before the first failing stop does not fail
    obtain ⟨runs, hruns⟩ := hbefore _ hearlier
    rw [hfails'] at hruns
    simp at hruns
  · rcases List.mem_cons.1 hlater with rfl | hlater
    · exact .inl rfl
    · have horder := (List.pairwise_cons.1 (List.pairwise_append.1 hsorted).2.1).1 _ hlater
      rcases horder with hlt | ⟨hplace, -⟩
      · exact .inr hlt
      · exact .inl (hreach.eq_of_place_eq hw hplace).symm

/-- If the walk meets a fault, its stops fail. -/
theorem exists_gather_eq_error (h : t.Linked) (hreach : t.Reaches (t.visitTop id) v)
    (hfault : c.Fault t inherited v e) :
    ∃ e', c.gather t inherited (t.stopsFrom (t.visitTop id)) = .error e' := by
  obtain ⟨part, hshows, hfails⟩ := fault_iff.1 hfault
  have hstop : (⟨v, part⟩ : Stop) ∈ t.stopsFrom (t.visitTop id) :=
    (Tree.mem_stopsFrom_iff h).2 ⟨hreach, hshows⟩
  obtain ⟨e', hrow⟩ := exists_mapM_eq_error hstop hfails
  exact ⟨e', gather_eq_error_iff_mapM.2 hrow⟩

/-- A walk fails with the error of its first fault. -/
theorem gather_eq_error_iff (h : t.Linked) :
    c.gather t inherited (t.stopsFrom (t.visitTop id)) = .error e ↔
      ∃ v, c.FirstFault t id inherited v e := by
  constructor
  · exact firstFault_of_gather h
  · intro ⟨v, hv⟩
    obtain ⟨e', hfails⟩ := exists_gather_eq_error h hv.reached hv.fault
    obtain ⟨w, hw⟩ := firstFault_of_gather h hfails
    rw [hfails, hv.unique hw]

end Conversion

namespace Tree

/-- The walk ends at a visit: it is no item of a list, and its node is unstyled, a leaf, or a block
with raw markup right inside. -/
def Ends (t : Tree) (v : Visit) : Prop :=
  v.role ≠ .item ∧
    match t.kind v.node with
    | .unsupported _ => True
    | .text _ | .code _ | .codeBlock .. | .htmlBlock _ | .inlineHtml _ | .image .. => True
    | .softBreak | .hardBreak | .thematicBreak => True
    | .document | .blockQuote | .item => t.holdsHtml v.node
    | _ => False

theorem Ends.nexts_eq_nil {t : Tree} {v : Visit} (h : t.Ends v) : t.nexts v = [] := by
  obtain ⟨hrole, hkind⟩ := h
  have hwithin : t.within v = none := by
    unfold within
    rw [if_neg hrole]
    split at hkind <;> simp_all
  rw [nexts, hwithin]

/-- So does a conversion. -/
theorem toText_eq_error_iff {t : Tree} (h : t.Linked) {id : NodeId} {inherited : Attributes}
    {attachments : Attachments} {options : ConversionOptions} {e : ConversionError} :
    t.toText id inherited attachments options = .error e ↔
      ∃ v, Conversion.FirstFault { options, attachments } t id inherited v e := by
  rw [toText_eq_gather h, ← Conversion.gather_eq_error_iff h]
  cases Conversion.gather _ t inherited (t.stopsFrom (t.visitTop id)) <;>
    simp [Functor.map, Except.map]

/-- How the conversion of a node fails, if it does. -/
structure FailsAtFaults (t : Tree) (id : NodeId) (inherited : Attributes)
    (attachments : Attachments) (options : ConversionOptions) : Prop where
  /-- It fails exactly if the walk meets a fault. -/
  fails_iff : (∃ e, t.toText id inherited attachments options = .error e) ↔
    ∃ v e, t.Reaches (t.visitTop id) v ∧
      Conversion.Fault { options, attachments } t inherited v e
  /-- It fails with the first one. -/
  error_iff : ∀ e, t.toText id inherited attachments options = .error e ↔
    ∃ v, Conversion.FirstFault { options, attachments } t id inherited v e
  /-- Nothing below a node where the walk ends is come to, so no fault is there. -/
  below : ∀ v, t.Reaches (t.visitTop id) v → t.Ends v →
    ∀ w, t.Reaches (t.visitTop id) w → v.node ∉ (t.ancestors w.node).tail

/-- A conversion fails exactly if the walk meets a fault, and then with the first one. -/
theorem toText_fails_at_first_fault (t : Tree) (h : t.Built) (id : NodeId) (inherited : Attributes)
    (attachments : Attachments) (options : ConversionOptions) :
    t.FailsAtFaults id inherited attachments options := by
  have hlinked := h.linked
  refine ⟨?_, fun _ => toText_eq_error_iff hlinked, ?_⟩
  · constructor
    · intro ⟨e, he⟩
      obtain ⟨v, hv⟩ := (toText_eq_error_iff hlinked).1 he
      exact ⟨v, e, hv.reached, hv.fault⟩
    · intro ⟨v, e, hreach, hfault⟩
      obtain ⟨e', he'⟩ := Conversion.exists_gather_eq_error hlinked hreach hfault
      exact ⟨e', (toText_eq_error_iff hlinked).2
        ((Conversion.gather_eq_error_iff hlinked).1 he')⟩
  · intro v hv hends w hw hholds
    exact hv.nexts_ne_nil hlinked hw hholds hends.nexts_eq_nil

/-- A document with an unstyled node, a list, and a quotation of raw markup. An image without an
attachment is in each of the first two. -/
def noticeBoard : Tree :=
  ((((((((ofRoot .document).push 0 (.unsupported "table")).push 1 (.image "plan.png" "" "")).push 0
    (.list .bullet 1 true)).push 3 .item).push 4 .paragraph).push 5
    (.image "map.png" "" "")).push 0 .blockQuote).push 7 (.htmlBlock "<hr>")

/-- The image in the list is the first fault, before the quotation that the renderer refuses. -/
theorem noticeBoard_fails_at_image :
    noticeBoard.Built ∧
      noticeBoard.FailsAtFaults 0 {} {} { html := .failing "offline" } ∧
      noticeBoard.toText 0 {} {} { html := .failing "offline" } =
        .error (.attachmentMissing "map.png") := by
  have hbuilt : noticeBoard.Built := by
    unfold noticeBoard
    repeat refine .push _ ?_ (by simp)
    exact .ofRoot _
  exact ⟨hbuilt, toText_fails_at_first_fault noticeBoard hbuilt 0 {} {} _, rfl⟩

/-- A list whose item is an unstyled node with an image in it. -/
def raft : Tree :=
  (((ofRoot .document).push 0 (.list .bullet 1 true)).push 1 (.unsupported "table")).push 2
    (.image "map.png" "" "")

/-- As an item of a list, an unstyled node is looked into: here every image stands below one and
there is no raw markup, and still the conversion fails. -/
theorem raft_fails_below_unstyled :
    raft.Built ∧
      (∀ n, (raft.kind n).isImage → ∃ a ∈ (raft.ancestors n).tail,
        raft.kind a = .unsupported "table") ∧
      (∀ n, ¬ raft.holdsHtml n) ∧
      raft.toText 0 {} {} {} = .error (.attachmentMissing "map.png") := by
  have hbuilt : raft.Built := by
    unfold raft
    repeat refine .push _ ?_ (by simp)
    exact .ofRoot _
  have hsmall : ∀ n < raft.size, (raft.kind n).isImage → ∃ a ∈ (raft.ancestors n).tail,
      raft.kind a = .unsupported "table" := by decide
  have hraw : ∀ n < raft.size, ¬ raft.holdsHtml n := by decide
  refine ⟨hbuilt, ?_, ?_, rfl⟩
  · intro n himage
    rcases Nat.lt_or_ge n raft.size with hlt | hge
    · exact hsmall n hlt himage
    · rw [kind, node_of_size_le hge] at himage
      cases himage
  · intro n
    rcases Nat.lt_or_ge n raft.size with hlt | hge
    · exact hraw n hlt
    · simp [holdsHtml, children, node_of_size_le hge]

end Tree

end StyledText.Markdown
