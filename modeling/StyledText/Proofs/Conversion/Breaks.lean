import Mathlib.Algebra.BigOperators.Group.Finset.Piecewise
import Mathlib.Data.List.Flatten
import StyledText.Proofs.Conversion.Fault
import StyledText.Proofs.Numeral.Letters
import StyledText.Proofs.Terminal.Lines

/-!
# Line breaks of a conversion

Where the lines of a converted text end is known from the tree, without converting it. A character
that ends a line is a separator between siblings, a break of its own, or part of a literal or of an
indentation; no marker has one.

* `Tree.reached` are the nodes that a conversion comes to (`mem_reached_iff`), each of them once
  (`sum_reached`).
* `countP_leadText` and `countP_runsAt` count in what a single stop leaves in the text, and
  `sum_stopsAt` in what a visit does.
* A separator belongs to the sibling behind it. `sum_setsApart` counts it for the parent instead.
* `toText_counts_breaks` is the result, for blocks and for lines as they are drawn.
-/

open Finset

namespace StyledText.Markdown

open Terminal

/-! ## Markers -/

section Markers

variable {ch : Char}

theorem isLineBreak_of_all {s : String} (h : s.toList.all (!isLineBreak ·)) (hch : ch ∈ s.toList) :
    isLineBreak ch = false := by
  simpa using List.all_eq_true.1 h ch hch

/-- No line ends at a letter or a digit. -/
theorem isLineBreak_eq_false_of_isAlphanum (h : ch.isAlphanum) : isLineBreak ch = false := by
  by_contra hbreak
  simp only [isLineBreak, Bool.not_eq_false, Bool.or_eq_true, decide_eq_true_eq] at hbreak
  rcases hbreak with (rfl | rfl) | rfl <;> exact absurd h (by decide)

theorem Numeral.isAlphanum_of_mem_letters {n : Nat} (h : ch ∈ letters n) : ch.isAlphanum := by
  have hall : ∀ digit < 26, (letter digit).isAlphanum := by decide
  obtain ⟨digit, hdigit, rfl⟩ := (isLetter_of_mem_letters h).exists_digit
  exact hall digit hdigit

/-- The letters of a numeral are those of its steps. -/
theorem Numeral.isAlphanum_of_mem_romanDigits {steps : List (Nat × List Char)} {n : Nat}
    (hsteps : ∀ step ∈ steps, step.2.all Char.isAlphanum) (h : ch ∈ romanDigits steps n) :
    ch.isAlphanum := by
  induction steps generalizing n with
  | nil => exact absurd h List.not_mem_nil
  | cons step smaller ih =>
    obtain ⟨value, digits⟩ := step
    rw [List.forall_mem_cons] at hsteps
    rw [romanDigits_cons, List.mem_append] at h
    rcases h with h | h
    · obtain ⟨copy, hcopy, hch⟩ := List.mem_flatten.1 h
      rw [List.eq_of_mem_replicate hcopy] at hch
      exact List.all_eq_true.1 hsteps.1 ch hch
    · exact ih hsteps.2 h

theorem Numeral.zero_isAlphanum : "0".toList.all Char.isAlphanum := by decide

theorem Numeral.isAlphanum_of_mem_alphabetic {n : Nat} (h : ch ∈ (alphabetic n).toList) :
    ch.isAlphanum := by
  unfold alphabetic at h
  split at h
  · exact List.all_eq_true.1 zero_isAlphanum ch h
  · exact isAlphanum_of_mem_letters (by simpa using h)

theorem Numeral.isAlphanum_of_mem_roman {n : Nat} (h : ch ∈ (roman n).toList) :
    ch.isAlphanum := by
  unfold roman at h
  split at h
  · exact List.all_eq_true.1 zero_isAlphanum ch h
  · have hsteps : ∀ step ∈ romanSteps, step.2.all Char.isAlphanum := by decide
    exact isAlphanum_of_mem_romanDigits hsteps (by simpa using h)

theorem isAlphanum_of_mem_toString {n : Nat} (h : ch ∈ (toString n).toList) : ch.isAlphanum := by
  rw [Nat.toString_eq_ofList_toDigits, String.toList_ofList] at h
  have hdigit := Nat.isDigit_of_mem_toDigits (by decide) (by decide) h
  simp [Char.isAlphanum, hdigit]

/-- No line ends in a marker. -/
theorem ListKind.isLineBreak_of_mem_marker {kind : ListKind} {tier number : Nat}
    {style : MarkerStyle} (h : ch ∈ (kind.marker tier number style).toList) :
    isLineBreak ch = false := by
  have hdot : ∀ {numeral : String}, (ch ∈ numeral.toList → ch.isAlphanum) →
      ch ∈ (numeral ++ ".").toList → isLineBreak ch = false := by
    intro numeral hnumeral hmem
    rw [String.toList_append, List.mem_append] at hmem
    rcases hmem with hmem | hmem
    · exact isLineBreak_eq_false_of_isAlphanum (hnumeral hmem)
    · exact isLineBreak_of_all (by decide) hmem
  -- a form for each style, kind and tier; the ordered ones are a numeral and a dot
  cases style with
  | plain =>
    cases kind with
    | bullet => exact isLineBreak_of_all (s := "•") (by decide) h
    | ordered => exact hdot isAlphanum_of_mem_toString h
  | tiered =>
    cases kind with
    | bullet =>
      simp only [marker] at h
      split_ifs at h <;> exact isLineBreak_of_all (by decide) h
    | ordered =>
      refine hdot ?_ h
      intro hmem
      split_ifs at hmem
      · exact isAlphanum_of_mem_toString hmem
      · exact Numeral.isAlphanum_of_mem_alphabetic hmem
      · exact Numeral.isAlphanum_of_mem_roman hmem

end Markers

namespace Tree

variable {t : Tree} {v w : Visit}

/-! ## What is reached -/

/-- The nodes that a conversion comes to. -/
def reached (t : Tree) (id : NodeId) : Finset NodeId :=
  ((t.visitsFrom (t.visitTop id)).map Visit.node).toFinset

/-- A node is reached when some visit comes to it. -/
theorem mem_reached_iff (h : t.Linked) {id n : NodeId} :
    n ∈ t.reached id ↔ ∃ v, t.Reaches (t.visitTop id) v ∧ v.node = n := by
  simp only [reached, List.mem_toFinset, List.mem_map, mem_visitsFrom_iff h]

/-- The walk comes once to each node it reaches. -/
theorem sum_reached (h : t.Linked) (id : NodeId) (f : NodeId → Nat) :
    ∑ n ∈ t.reached id, f n = ((t.visitsFrom (t.visitTop id)).map fun v => f v.node).sum := by
  have hvisits : (t.visitsFrom (t.visitTop id)).Nodup := by
    refine (visitsFrom_sorted h _).imp ?_
    rintro u w hlt rfl
    exact List.lt_irrefl _ hlt
  have hnodes : ((t.visitsFrom (t.visitTop id)).map Visit.node).Nodup := by
    refine hvisits.map_on ?_
    intro u hu w hw hnode
    rw [mem_visitsFrom_iff h] at hu hw
    exact hu.eq_of_node_eq h hw hnode
  rw [reached, List.sum_toFinset f hnodes, List.map_map]
  rfl

/-- Every visit but the first one is right below one other. -/
theorem visitsFrom_perm (h : t.Linked) (v : Visit) :
    (t.visitsFrom v).Perm (v :: (t.visitsFrom v).flatMap t.nexts) := by
  have hnode : ∀ id, ∀ v : Visit, v.node = id →
      (t.visitsFrom v).Perm (v :: (t.visitsFrom v).flatMap t.nexts) := by
    refine h.induction_up ?_
    intro id ih v hv
    rw [visitsFrom_eq h, List.perm_cons, List.flatMap_cons, List.flatMap_assoc]
    have hbelow : ((t.nexts v).flatMap t.visitsFrom).Perm
        ((t.nexts v).flatMap fun w => w :: (t.visitsFrom w).flatMap t.nexts) :=
      List.Perm.flatMap_left _ fun w hw => ih w.node (hv ▸ node_mem_children hw) w rfl
    -- both lists hold the same visits: below each child, the child and what is right below its
    -- visits
    have hapart := List.map_append_flatMap_perm (t.nexts v) (fun w => w)
      fun w => (t.visitsFrom w).flatMap t.nexts
    rw [List.map_id'] at hapart
    exact hbelow.trans hapart.symm
  exact hnode v.node v rfl

/-! ## Items of lists -/

/-- How often the indentation is repeated in front of an item of a list. Other nodes have none. -/
def indents (t : Tree) (id : NodeId) : Nat :=
  match t.parent? id with
  | some list => if (t.kind list).list?.isSome then t.nestingLevel list else 0
  | none => 0

/-- Where lists hold items only, what is visited as an item is one. -/
theorem Reaches.kind_of_item (hitems : t.ListsHoldItems) {id : NodeId}
    (hreach : t.Reaches (t.visitTop id) v) (hitem : v.role = .item) : t.kind v.node = .item := by
  cases hreach with
  | refl => cases hitem
  | tail _ hstep =>
    obtain ⟨role, i, c, hrole, hc, rfl⟩ := mem_nexts_iff.1 hstep
    have hkind := hitems.kind_eq hrole (List.mem_of_getElem? hc)
    rw [if_pos (show role = .item from hitem)] at hkind
    exact hkind.symm

/-- What is not come to as an item of a list has no list around it. -/
theorem Reaches.indents_eq_zero (h : t.Linked) (hitems : t.ListsHoldItems)
    (hreach : t.Reaches (t.visitTop root) v) (hitem : v.role ≠ .item) : t.indents v.node = 0 := by
  cases hreach with
  | refl => simp [indents, visitTop, h.parent?_root]
  | @tail u _ hu hstep =>
    obtain ⟨role, i, c, hrole, hc, rfl⟩ := mem_nexts_iff.1 hstep
    have hparent : t.parent? c = some u.node := h.mem_children_iff.1 (List.mem_of_getElem? hc)
    have hlist : (t.kind u.node).list? = none := by
      by_cases hu' : u.role = .item
      · rw [Reaches.kind_of_item hitems hu hu']
        rfl
      · -- From a list, the walk goes on to items.
        rw [within, if_neg hu'] at hrole
        split at hrole <;> simp_all [Kind.list?, visitChild]
    simp [indents, visitChild, hparent, hlist]

/-! ## Separators -/

/-- The separators that stand between the children of a node. -/
def separators (t : Tree) (id : NodeId) : Nat :=
  match t.kind id with
  | .document | .blockQuote | .item | .list .. => (t.children id).length - 1
  | _ => 0

/-- The separators before a visit: one or none. -/
def setsApart (v : Visit) : Nat := if v.role ≠ .inline ∧ 0 < v.position then 1 else 0

/-- Before each child but the first there is a separator, if they are set apart at all. -/
theorem sum_setsApart_nexts {role : Role} (hrole : t.within v = some role) :
    ((t.nexts v).map setsApart).sum =
      if role = .inline then 0 else (t.children v.node).length - 1 := by
  have hnexts : (t.nexts v).map setsApart = (t.children v.node).zipIdx.map fun e =>
      if role ≠ .inline ∧ 0 < e.2 then 1 else 0 := by
    simp only [nexts, hrole, List.map_map]
    refine List.map_congr_left fun e _ => ?_
    simp [setsApart, visitChild, Visit.position]
  rw [hnexts]
  split
  · next hinline => simp [hinline]
  · next hapart =>
    -- all children but the first are set apart
    cases t.children v.node with
    | nil => rfl
    | cons first rest =>
      have hrest : (rest.zipIdx 1).map (fun e => if role ≠ .inline ∧ 0 < e.2 then 1 else 0) =
          (rest.zipIdx 1).map fun _ => 1 := by
        refine List.map_congr_left fun e he => ?_
        have hpos := List.le_snd_of_mem_zipIdx he
        rw [if_pos ⟨hapart, by omega⟩]
      rw [List.zipIdx_cons, List.map_cons, hrest]
      simp

/-- The tree holds no raw markup in lines of its own. -/
def NoHtmlBlocks (t : Tree) : Prop := ∀ id, (t.kind id).isHtmlBlock = false

theorem noHtmlBlocks_iff : t.NoHtmlBlocks ↔ ∀ id < t.size, (t.kind id).isHtmlBlock = false := by
  constructor
  · exact fun h id _ => h id
  · intro h id
    rcases Nat.lt_or_ge id t.size with hlt | hge
    · exact h id hlt
    · rw [kind, node_of_size_le hge]
      rfl

instance (t : Tree) : Decidable t.NoHtmlBlocks := decidable_of_iff' _ noHtmlBlocks_iff

theorem NoHtmlBlocks.holdsHtml (hraw : t.NoHtmlBlocks) (id : NodeId) : t.holdsHtml id = false := by
  simpa [Tree.holdsHtml] using fun child _ => hraw child

/-- The separators right below a visit can be counted by the kind of its node. -/
theorem sum_setsApart_below (hitems : t.ListsHoldItems) (hraw : t.NoHtmlBlocks) {id : NodeId}
    (hreach : t.Reaches (t.visitTop id) v) :
    ((t.nexts v).map setsApart).sum = t.separators v.node := by
  -- an item of a list is walked as a block, whatever its kind
  by_cases hitem : v.role = .item
  · have hwithin : t.within v = some .block := by rw [within, if_pos hitem]
    rw [sum_setsApart_nexts hwithin, separators, hreach.kind_of_item hitems hitem]
    rfl
  · rw [separators]
    cases hkind : t.kind v.node with
    | document | blockQuote | item =>
      have hwithin : t.within v = some .block := by
        simp [within, hitem, hkind, hraw.holdsHtml]
      exact sum_setsApart_nexts hwithin
    | list =>
      have hwithin : t.within v = some .item := by simp [within, hitem, hkind]
      exact sum_setsApart_nexts hwithin
    | paragraph | heading | emphasis | strong | link =>
      have hwithin : t.within v = some .inline := by simp [within, hitem, hkind]
      exact sum_setsApart_nexts hwithin
    | text | code | inlineHtml | codeBlock | htmlBlock | softBreak | hardBreak | thematicBreak
      | image | unsupported =>
      have hwithin : t.within v = none := by simp [within, hitem, hkind]
      simp [nexts, hwithin]

/-- All separators together, counted for what holds the blocks on both sides. -/
theorem sum_setsApart (h : t.Linked) (hitems : t.ListsHoldItems) (hraw : t.NoHtmlBlocks)
    (id : NodeId) : ((t.visitsFrom (t.visitTop id)).map setsApart).sum =
      ((t.visitsFrom (t.visitTop id)).map fun v => t.separators v.node).sum := by
  have htop : setsApart (t.visitTop id) = 0 := rfl
  have hbelow : (t.visitsFrom (t.visitTop id)).map (fun v => ((t.nexts v).map setsApart).sum) =
      (t.visitsFrom (t.visitTop id)).map fun v => t.separators v.node :=
    List.map_congr_left fun v hv =>
      sum_setsApart_below hitems hraw ((mem_visitsFrom_iff h).1 hv)
  rw [((visitsFrom_perm h _).map setsApart).sum_eq, List.map_cons, List.sum_cons, htop, zero_add,
    List.map_flatMap, List.flatMap_def, List.sum_flatten, List.map_map, ← hbelow]
  rfl

end Tree

/-! ## Line breaks of a stop -/

/-- A sort of line breaks that the paragraph separator is one of. -/
structure IsBreakSort (p : Char → Bool) : Prop where
  isLineBreak : ∀ ch, p ch → isLineBreak ch
  paragraphSeparator : p paragraphSeparator

/-- A sort of line breaks counts nothing where no line ends. -/
theorem IsBreakSort.countP_eq_zero {p : Char → Bool} (hp : IsBreakSort p) {cs : List Char}
    (h : ∀ ch ∈ cs, Terminal.isLineBreak ch = false) : cs.countP p = 0 := by
  rw [List.countP_eq_zero]
  intro ch hch hbreak
  have hno := h ch hch
  rw [hp.isLineBreak ch hbreak] at hno
  contradiction

namespace Conversion

variable {c : Conversion} {t : Tree} {inherited : Attributes} {p : Char → Bool}

/-- How many line breaks of a sort a stop leaves in the text. What a renderer makes of raw markup is
left out. -/
def breaksAt (c : Conversion) (t : Tree) (p : Char → Bool) (s : Stop) : Nat :=
  match s.part with
  | .separator => 1
  | .lead => t.indents s.visit.node * c.options.indent.toList.countP p
  | .leaf => ((t.kind s.visit.node).leafText?.getD "").toList.countP p
  | .image | .html | .blank => 0

/-- In the lead of an item, lines end only where they do in the indentation. -/
theorem countP_leadText (hp : IsBreakSort p) (item : NodeId) (position : Nat) :
    (c.leadText t item position).toList.countP p =
      t.indents item * c.options.indent.toList.countP p := by
  unfold leadText Tree.indents
  cases t.parent? item with
  | none => simp
  | some list =>
    cases hkind : t.kind list with
    | list kind start _ =>
      -- only the indentation can hold a line break
      have hmarker : (kind.marker (t.markerTier list) (c.itemNumber start position)
          c.options.markers).toList.countP p = 0 :=
        hp.countP_eq_zero fun _ => ListKind.isLineBreak_of_mem_marker
      have hspace : " ".toList.countP p = 0 :=
        hp.countP_eq_zero fun _ => isLineBreak_of_all (by decide)
      simp only [hkind, String.toList_append, List.countP_append, hmarker, hspace,
        String.toList_join, List.countP_flatMap, List.map_replicate, List.sum_replicate]
      simp [Kind.list?]
    | _ => simp [hkind, Kind.list?]

/-- The line breaks in the runs of a stop, told without the runs. -/
theorem countP_runsAt (hp : IsBreakSort p) {s : Stop} (hhtml : s.part ≠ .html) {runs : List Run}
    (h : c.runsAt t inherited s = .ok runs) :
    (runs.flatMap Run.chars).countP p = c.breaksAt t p s := by
  obtain ⟨v, part⟩ := s
  -- one run for each part; what a renderer makes of raw markup is not known
  cases part with
  | separator =>
    rcases Except.ok.inj h with rfl
    simp [Run.chars, breaksAt, hp.paragraphSeparator]
  | lead =>
    rcases Except.ok.inj h with rfl
    simpa [Run.chars, breaksAt] using countP_leadText hp v.node v.position
  | leaf =>
    rcases Except.ok.inj h with rfl
    simp [Run.chars, breaksAt]
  | image =>
    simp only [runsAt] at h
    split at h
    · rcases Except.ok.inj h with rfl
      rfl
    · contradiction
  | html => exact absurd rfl hhtml
  | blank =>
    rcases Except.ok.inj h with rfl
    rfl

/-- So those of a whole conversion are counted stop by stop. -/
theorem countP_gather (hp : IsBreakSort p) {stops : List Stop}
    (hhtml : ∀ s ∈ stops, s.part ≠ .html) {runs : List Run}
    (h : c.gather t inherited stops = .ok runs) :
    (runs.flatMap Run.chars).countP p = (stops.map (c.breaksAt t p)).sum := by
  induction stops generalizing runs with
  | nil =>
    rcases Except.ok.inj h with rfl
    rfl
  | cons s rest ih =>
    obtain ⟨row, more, hrow, hmore, rfl⟩ := gather_cons_eq_ok_iff.1 h
    rw [List.forall_mem_cons] at hhtml
    rw [List.flatMap_append, List.countP_append, countP_runsAt hp hhtml.1 hrow, ih hhtml.2 hmore,
      List.map_cons, List.sum_cons]

/-- The line breaks of a sort that come from a node itself: those of a leaf, and those of the
indentation of an item. -/
def ownBreaks (c : Conversion) (t : Tree) (p : Char → Bool) (id : NodeId) : Nat :=
  ((t.kind id).leafText?.getD "").toList.countP p +
    t.indents id * c.options.indent.toList.countP p

/-- The line breaks of a visit are the separator before it and those of its node. -/
theorem sum_stopsAt (h : t.Linked) (hitems : t.ListsHoldItems) {v : Visit}
    (hreach : t.Reaches (t.visitTop Tree.root) v) :
    ((t.stopsAt v).map (c.breaksAt t p)).sum = Tree.setsApart v + c.ownBreaks t p v.node := by
  have hparts : ((t.stopsAt v).map (c.breaksAt t p)).sum =
      (Part.all.map fun part => if t.Shows v part then c.breaksAt t p ⟨v, part⟩ else 0).sum := by
    rw [List.sum_map_ite, Tree.stopsAt, List.map_map, List.map_const', List.sum_replicate]
    rfl
  -- a lead is shown by items only, and only items are indented
  have hlead : (if t.Shows v .lead then c.breaksAt t p ⟨v, .lead⟩ else 0) =
      t.indents v.node * c.options.indent.toList.countP p := by
    split
    · rfl
    · next hitem => rw [hreach.indents_eq_zero h hitems hitem, Nat.zero_mul]
  -- a leaf is shown unless the node is visited as an item, and then it is none
  have hleaf : (if t.Shows v .leaf then c.breaksAt t p ⟨v, .leaf⟩ else 0) =
      ((t.kind v.node).leafText?.getD "").toList.countP p := by
    split
    · rfl
    · next hshows =>
      have hnone : (t.kind v.node).leafText? = none := by
        by_cases hitem : v.role = .item
        · rw [hreach.kind_of_item hitems hitem]
          rfl
        · simpa [Tree.Shows, hitem] using hshows
      rw [hnone]
      rfl
  have hnone : ∀ part, c.breaksAt t p ⟨v, part⟩ = 0 →
      (if t.Shows v part then c.breaksAt t p ⟨v, part⟩ else 0) = 0 := by
    intro part hpart
    rw [hpart, ite_self]
  have hseparator : (if t.Shows v .separator then c.breaksAt t p ⟨v, .separator⟩ else 0) =
      Tree.setsApart v := rfl
  rw [hparts]
  simp only [Part.all, List.map_cons, List.map_nil, List.sum_cons, List.sum_nil, hseparator, hlead,
    hleaf, hnone .image rfl, hnone .html rfl, hnone .blank rfl, ownBreaks]
  omega

/-- The line breaks of a conversion, counted for the nodes that it comes to. -/
theorem countP_chars (h : t.Linked) (hitems : t.ListsHoldItems) (hraw : t.NoHtmlBlocks)
    (hp : IsBreakSort p) {text : Text}
    (htext : c.gather t inherited (t.stopsFrom (t.visitTop Tree.root)) = .ok text.runs) :
    text.chars.countP p =
      ∑ id ∈ t.reached Tree.root, t.separators id + ∑ id ∈ t.reached Tree.root,
        c.ownBreaks t p id := by
  -- without blocks of raw markup nothing is left to a renderer
  have hhtml : ∀ s ∈ t.stopsFrom (t.visitTop Tree.root), s.part ≠ .html := by
    intro s hs hpart
    have hshows := ((Tree.mem_stopsFrom_iff h).1 hs).2
    rw [hpart] at hshows
    rw [Tree.Shows, hraw.holdsHtml] at hshows
    simp at hshows
  have hstops : ((t.stopsFrom (t.visitTop Tree.root)).map (c.breaksAt t p)).sum =
      ((t.visitsFrom (t.visitTop Tree.root)).map fun v =>
        Tree.setsApart v + c.ownBreaks t p v.node).sum := by
    rw [Tree.stopsFrom_eq_flatMap, List.map_flatMap, List.flatMap_def, List.sum_flatten,
      List.map_map]
    refine congrArg List.sum (List.map_congr_left ?_)
    intro v hv
    exact sum_stopsAt h hitems ((Tree.mem_visitsFrom_iff h).1 hv)
  rw [Text.chars, countP_gather hp hhtml htext, hstops, List.sum_map_add,
    Tree.sum_setsApart h hitems hraw, Tree.sum_reached h, Tree.sum_reached h]

end Conversion

/-! ## Line breaks of a text -/

/-- The line feeds and line separators of a string. -/
def newlines (s : String) : Nat := s.toList.countP fun ch => ch = '\n' || ch = lineSeparator

/-- Without separators of paragraphs, the other two sorts are all line breaks there are. -/
theorem countP_isLineBreak {s : String} (h : paragraphSeparator ∉ s.toList) :
    s.toList.countP isLineBreak = newlines s := by
  refine List.countP_congr ?_
  intro ch hch
  have hne : ch ≠ paragraphSeparator := ne_of_mem_of_not_mem hch h
  simp [isLineBreak, hne]

namespace Kind

def isBreak : Kind → Bool
  | hardBreak | thematicBreak => true
  | _ => false

variable {kind : Kind}

/-- No leaf shows a separator that is not in its literal. -/
theorem count_leafText (h : ∀ s, kind.literal? = some s → paragraphSeparator ∉ s.toList) :
    (kind.leafText?.getD "").toList.count paragraphSeparator = 0 := by
  rw [List.count_eq_zero]
  cases kind with
  | text s | code s | inlineHtml s | codeBlock _ s | htmlBlock s => exact h s rfl
  | softBreak => decide
  | hardBreak | thematicBreak => decide
  | _ => simp [leafText?, literal?]

/-- The lines of a leaf end at a break or in its literal. -/
theorem countP_leafText (h : ∀ s, kind.literal? = some s → paragraphSeparator ∉ s.toList) :
    (kind.leafText?.getD "").toList.countP isLineBreak =
      (if kind.isBreak then 1 else 0) + newlines (kind.literal?.getD "") := by
  cases kind with
  | text s | code s | inlineHtml s | codeBlock _ s | htmlBlock s =>
    exact (countP_isLineBreak (h s rfl)).trans (Nat.zero_add _).symm
  | _ => rfl

end Kind

namespace Conversion

variable {c : Conversion} {t : Tree} {id : NodeId}

/-- Separators of paragraphs are a sort of line breaks. -/
theorem isBreakSort_separator : IsBreakSort (· == paragraphSeparator) := by
  refine ⟨?_, by decide⟩
  intro ch hch
  rw [eq_of_beq hch]
  rfl

/-- Separators never come from a node itself. -/
theorem ownBreaks_separator
    (hliteral : ∀ s, (t.kind id).literal? = some s → paragraphSeparator ∉ s.toList)
    (hindent : paragraphSeparator ∉ c.options.indent.toList) :
    c.ownBreaks t (· == paragraphSeparator) id = 0 := by
  have hleaf := Kind.count_leafText hliteral
  have hnone := List.count_eq_zero.2 hindent
  rw [List.count] at hleaf hnone
  rw [ownBreaks, hleaf, hnone, Nat.mul_zero]

theorem ownBreaks_isLineBreak
    (hliteral : ∀ s, (t.kind id).literal? = some s → paragraphSeparator ∉ s.toList)
    (hindent : paragraphSeparator ∉ c.options.indent.toList) :
    c.ownBreaks t isLineBreak id = (if (t.kind id).isBreak then 1 else 0) +
      newlines ((t.kind id).literal?.getD "") + t.indents id * newlines c.options.indent := by
  rw [ownBreaks, Kind.countP_leafText hliteral, countP_isLineBreak hindent]

end Conversion

namespace Tree

variable {t : Tree}

/-- The number of lines that a tree is drawn on, if items are indented by `indent`. -/
def lineCount (t : Tree) (indent : String) : Nat :=
  1 + ∑ id ∈ t.reached root, t.separators id +
    #{id ∈ t.reached root | (t.kind id).isBreak} +
    ∑ id ∈ t.reached root, newlines ((t.kind id).literal?.getD "") +
    ∑ id ∈ t.reached root, t.indents id * newlines indent

/-- The line breaks of a text are those of the tree that it is converted from. -/
structure CountsBreaks (t : Tree) (indent : String) (text : Text) : Prop where
  separators : text.string.toList.count paragraphSeparator =
    ∑ id ∈ t.reached root, t.separators id
  lines : ∀ theme, (text.render theme).lines.length = t.lineCount indent
  /-- The height is counted with 32 bits. -/
  height : ∀ theme, (text.render theme).height = t.lineCount indent % UInt32.size
  /-- So it is the number of lines, unless there are more than 32 bits can count. -/
  height_eq_lineCount : t.lineCount indent < UInt32.size →
    ∀ theme, (text.render theme).height = t.lineCount indent

/-- The separators and the lines of a text can be counted in the tree. -/
theorem toText_counts_breaks (h : t.Built) (hitems : t.ListsHoldItems) (hraw : t.NoHtmlBlocks)
    {inherited : Attributes} {attachments : Attachments} {options : ConversionOptions}
    (hliterals : ∀ id ∈ t.reached root, ∀ s, (t.kind id).literal? = some s →
      paragraphSeparator ∉ s.toList)
    (hindent : paragraphSeparator ∉ options.indent.toList) {text : Text}
    (htext : t.toText root inherited attachments options = .ok text) :
    t.CountsBreaks options.indent text := by
  have hcount : ∀ p, IsBreakSort p → text.chars.countP p =
      ∑ id ∈ t.reached root, t.separators id +
        ∑ id ∈ t.reached root, Conversion.ownBreaks { options, attachments } t p id :=
    fun p hp => Conversion.countP_chars h.linked hitems hraw hp
      ((toText_eq_ok_iff h.linked).1 htext)
  have hlines : ∀ theme, (text.render theme).lines.length = t.lineCount options.indent := by
    intro theme
    have hown : ∀ id ∈ t.reached root, Conversion.ownBreaks { options, attachments } t
        isLineBreak id = (if (t.kind id).isBreak then 1 else 0) +
          newlines ((t.kind id).literal?.getD "") + t.indents id * newlines options.indent :=
      fun id hid => Conversion.ownBreaks_isLineBreak (hliterals id hid) hindent
    rw [Text.length_lines_render, hcount _ ⟨fun _ hp => hp, rfl⟩, Finset.sum_congr rfl hown,
      Finset.sum_add_distrib, Finset.sum_add_distrib, ← Finset.card_filter, lineCount]
    omega
  -- the same count, once for separators and once for all line breaks
  refine ⟨?_, hlines, ?_, ?_⟩
  · have hown : ∀ id ∈ t.reached root, Conversion.ownBreaks { options, attachments } t
        (· == paragraphSeparator) id = 0 :=
      fun id hid => Conversion.ownBreaks_separator (hliterals id hid) hindent
    rw [Text.string, String.toList_ofList, List.count, hcount _ Conversion.isBreakSort_separator,
      Finset.sum_eq_zero hown, Nat.add_zero]
  · intro theme
    rw [Screen.height, hlines]
  · intro hcounted theme
    rw [Screen.height_eq_length (by rwa [hlines]), hlines]

/-- A document with an empty quotation, and a list in a list. In the outer list an item holds an
unstyled node and an image of nothing; in the inner one there is a break. -/
def timetable : Tree :=
  (((((((((((ofRoot .document).push 0 .blockQuote).push 0 (.list .ordered 1 true)).push 2
    .item).push 3 (.unsupported "table")).push 3 (.image "" "" "")).push 2 .item).push 6
    (.list .bullet 1 true)).push 7 .item).push 8 (.text "eight\nnine")).push 8 .hardBreak).push 0
    .paragraph

/-- There are five separators. Of the six other line breaks, four are those of the indentation. -/
theorem timetable_counts_breaks :
    timetable.Built ∧ timetable.ListsHoldItems ∧ timetable.NoHtmlBlocks ∧
      timetable.lineCount "\n" = 12 ∧
      ∃ text, timetable.toText root {} {} { indent := "\n" } = .ok text ∧
        timetable.CountsBreaks "\n" text ∧ ∀ theme, (text.render theme).height = 12 := by
  have hbuilt : timetable.Built := by
    unfold timetable
    repeat refine .push _ ?_ (by simp)
    exact .ofRoot _
  have hitems : timetable.ListsHoldItems := by decide
  have hraw : timetable.NoHtmlBlocks := by decide
  have hliterals : ∀ id ∈ timetable.reached root, ∀ s, (timetable.kind id).literal? = some s →
      paragraphSeparator ∉ s.toList := by
    have hall : ∀ id ∈ timetable.reached root,
        paragraphSeparator ∉ ((timetable.kind id).literal?.getD "").toList := by decide
    intro id hid s hs
    have hno := hall id hid
    rwa [hs] at hno
  have htext : ∃ text, timetable.toText root {} {} { indent := "\n" } = .ok text := ⟨_, rfl⟩
  obtain ⟨text, htext⟩ := htext
  have hcount : timetable.lineCount "\n" = 12 := by decide
  have hcounts := toText_counts_breaks hbuilt hitems hraw hliterals (by decide) htext
  exact ⟨hbuilt, hitems, hraw, hcount, text, htext, hcounts,
    hcount ▸ hcounts.height_eq_lineCount (by rw [hcount]; decide)⟩

end Tree

end StyledText.Markdown
