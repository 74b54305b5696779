import StyledText.Proofs.Conversion.Filled
import StyledText.Proofs.Conversion.Kept
import StyledText.Proofs.Variable.Apart

/-!
# Values before and after a conversion

The variables of a converted text are the placeholders of the tree, and values can be filled in on
either side of the conversion. The tag of a placeholder must come to its own run and to no other,
and the runs of different placeholders must not merge.

* `Reaches.get?_attributes`: on the way to a visit, only a placeholder at its end sets the name of
  a variable.
* `gather_filled`: what becomes of the runs of stops when values are filled in before.
* `setsApart_iff_apart`: placeholders that are set apart leave runs that stand apart.
* `toText_takes_values`: the variables of a converted text, and its update.
-/

namespace StyledText.Markdown

/-! ## Placeholders -/

/-- A placeholder is inline markup that names a variable. -/
theorem Kind.placeholder?_eq_some_iff {kind : Kind} {name literal : String} :
    kind.placeholder? = some (name, literal) ↔ kind = .inlineHtml literal ∧
      RawMarkup.assignment? literal = some (.variableName, name) := by
  cases kind with
  | inlineHtml s =>
    simp only [placeholder?, inlineHtml.injEq]
    split
    · next found hfound =>
      constructor
      · intro h
        rcases Option.some.inj h with ⟨rfl, rfl⟩
        exact ⟨rfl, hfound⟩
      · rintro ⟨rfl, h⟩
        rw [hfound] at h
        simp_all
    · next hother =>
      simp only [reduceCtorEq, false_iff, not_and]
      rintro rfl h
      exact hother name h
  | _ => simp [placeholder?]

/-- What has no literal is no placeholder. -/
theorem Kind.placeholder?_of_literal? {kind : Kind} (h : kind.literal? = none) :
    kind.placeholder? = none := by
  cases kind <;> simp_all [placeholder?, literal?]

/-- A literal that names a variable has characters. -/
theorem literal_ne_empty {key : Attribute.Key} {literal value : String}
    (h : RawMarkup.assignment? literal = some (key, value)) : literal ≠ "" := by
  rintro rfl
  cases h

/-- Only a placeholder sets the name of a variable. -/
theorem Kind.sets_variableName {kind : Kind} (hkind : kind.placeholder? = none) :
    kind.sets .variableName = false := by
  cases kind with
  | inlineHtml s =>
    rw [sets, Option.any_eq_false]
    rintro ⟨key, value⟩ hfound
    rw [decide_eq_false_iff_not]
    rintro rfl
    simp [placeholder?, hfound] at hkind
  | _ => rfl

/-- A placeholder sets the name of its variable. -/
theorem Inheritance.get?_resolve_placeholder (h : Inheritance) {kind : Kind}
    {name literal : String} (hkind : kind.placeholder? = some (name, literal)) (a : Attributes) :
    (h.resolve kind a).get? .variableName = some (.text name) := by
  obtain ⟨rfl, hfound⟩ := Kind.placeholder?_eq_some_iff.1 hkind
  simp [resolve, hfound]

namespace Tree

variable {t : Tree} {id : NodeId} {v : Visit}

/-- A text has the name of a variable exactly if it is a placeholder's. -/
theorem Reaches.get?_attributes (hreach : t.Reaches (t.visitTop id) v) (h : Inheritance)
    {inherited : Attributes} (hbase : inherited.get? .variableName = none) :
    (v.attributes h inherited).get? .variableName =
      (t.kindAt v).placeholder?.map fun p => .text p.1 := by
  obtain ⟨above, hpath, hleafless⟩ := hreach.exists_path
  have habove : ∀ kind ∈ above, kind.placeholder? = none :=
    fun kind hkind => Kind.placeholder?_of_literal? (hleafless kind hkind)
  -- Nothing is below a placeholder, so only the last kind on the way can be one.
  cases hlast : (t.kindAt v).placeholder? with
  | none =>
    have hsets : ∀ kind ∈ v.path, kind.sets .variableName = false := by
      intro kind hkind
      apply Kind.sets_variableName
      rw [hpath] at hkind
      rcases List.mem_append.1 hkind with hmem | hmem
      · exact habove kind hmem
      · rw [List.mem_singleton.1 hmem, hlast]
    exact (v.get?_attributes h hsets inherited).trans hbase
  | some p =>
    rw [Visit.attributes, hpath, List.foldl_append]
    exact h.get?_resolve_placeholder hlast _

/-- Away from placeholders, values change nothing on the way. -/
theorem Reaches.filled_eq (hreach : t.Reaches (t.visitTop id) v)
    (values : OrderedMap String String) (hlast : (t.kindAt v).placeholder? = none) :
    v.filled values = v := by
  obtain ⟨above, hpath, hleafless⟩ := hreach.exists_path
  have habove : ∀ kind ∈ above, kind.placeholder? = none :=
    fun kind hkind => Kind.placeholder?_of_literal? (hleafless kind hkind)
  have hsame : v.path.map (Kind.filled values) = v.path := by
    rw [hpath]
    refine (List.map_congr_left fun kind hkind => ?_).trans (List.map_id _)
    apply Kind.filled_of_placeholder?_eq_none
    rcases List.mem_append.1 hkind with hmem | hmem
    · exact habove kind hmem
    · rw [List.mem_singleton.1 hmem, hlast]
  rw [Visit.filled, hsame]

end Tree

/-! ## The runs of a stop -/

/-- The placeholder that a stop leaves in the text. -/
def Stop.placeholder? (t : Tree) (s : Stop) : Option (String × String) :=
  if s.part = .leaf then (t.kind s.visit.node).placeholder? else none

namespace Conversion

/-- The variables among runs, and what becomes of the runs when values are filled in before the
conversion. -/
structure Filling (values : OrderedMap String String) (bindings : List (String × String))
    (runs filled : List Run) : Prop where
  bindings_eq : runs.filterMap Run.binding? = bindings
  chars_eq : filled.flatMap Run.chars = runs.flatMap fun r => r.charsWith values
  unnamed : ∀ r ∈ runs, r.isEmpty → r.variableName? = none

namespace Filling

variable {values : OrderedMap String String} {bindings more : List (String × String)}
  {runs filled : List Run}

/-- Runs that follow each other may be filled in apart. -/
theorem append (h : Filling values bindings runs filled) {runs' filled' : List Run}
    (h' : Filling values more runs' filled') :
    Filling values (bindings ++ more) (runs ++ runs') (filled ++ filled') := by
  refine ⟨?_, ?_, ?_⟩
  · rw [List.filterMap_append, h.bindings_eq, h'.bindings_eq]
  · rw [List.flatMap_append, List.flatMap_append, h.chars_eq, h'.chars_eq]
  · intro r hr
    rcases List.mem_append.1 hr with hmem | hmem
    · exact h.unnamed r hmem
    · exact h'.unnamed r hmem

/-- Runs of no variable stay as they are. -/
theorem of_unnamed (h : ∀ r ∈ runs, r.variableName? = none) : Filling values [] runs runs := by
  refine ⟨?_, ?_, fun r hr _ => h r hr⟩
  · rw [List.filterMap_eq_nil_iff]
    intro r hr
    simp [Run.binding?, h r hr]
  · apply List.flatMap_congr
    intro r hr
    simp [Run.charsWith, h r hr]

end Filling

section Stops

variable {c : Conversion} {t u : Tree} {id : NodeId} {inherited : Attributes} {s : Stop}
  {values : OrderedMap String String} {name literal : String} {runs : List Run}

/-- A placeholder leaves a run of its variable. -/
theorem runsAt_placeholder (hreach : t.Reaches (t.visitTop id) s.visit)
    (hshows : t.Shows s.visit s.part) (hbase : inherited.get? .variableName = none)
    (hplace : s.placeholder? t = some (name, literal)) :
    ∃ r : Run, c.runsAt t inherited s = .ok [r] ∧ r.text = literal ∧ literal ≠ "" ∧
      r.variableName? = some name := by
  obtain ⟨v, part⟩ := s
  unfold Stop.placeholder? at hplace
  split at hplace
  · next hpart =>
    simp only at hpart hreach hshows hplace
    subst hpart
    obtain ⟨hkind, hfound⟩ := Kind.placeholder?_eq_some_iff.1 hplace
    have hat : t.kindAt v = t.kind v.node := if_neg hshows.1
    have hname := hreach.get?_attributes c.inheritance hbase
    rw [hat, hplace] at hname
    refine ⟨{ text := literal, attributes := v.attributes c.inheritance inherited }, ?_, rfl,
      literal_ne_empty hfound, ?_⟩
    · simp only [runsAt, hkind]
      rfl
    · simp [Run.variableName?, Attributes.text?, hname]
  · cases hplace

/-- In the filled tree, the run has the value of the variable. -/
theorem runsAt_filled_placeholder (c : Conversion) (inherited : Attributes)
    (hplace : s.placeholder? t = some (name, literal))
    (hkind : u.kind s.visit.node = (t.kind s.visit.node).filled values) :
    ∃ r : Run, c.runsAt u inherited (s.filled values) = .ok [r] ∧
      r.text = (values.get? name).getD literal := by
  obtain ⟨v, part⟩ := s
  unfold Stop.placeholder? at hplace
  split at hplace
  · next hpart =>
    simp only at hpart hplace hkind
    subst hpart
    have htext : (u.kind v.node).leafText? = some ((values.get? name).getD literal) := by
      rw [hkind]
      unfold Kind.filled
      rw [hplace]
      cases hvalue : values.get? name with
      | none =>
        obtain ⟨hinline, -⟩ := Kind.placeholder?_eq_some_iff.1 hplace
        simp [hvalue, hinline, Kind.leafText?, Kind.literal?]
      | some value => simp [hvalue, Kind.leafText?, Kind.literal?]
    refine ⟨_, rfl, ?_⟩
    simp only [Stop.filled, Visit.filled, htext]
    rfl
  · cases hplace

/-- Where attributes count, a stop at no placeholder has none at the end of its way. -/
theorem placeholder?_kindAt {v : Visit} {part : Part} (hshows : t.Shows v part)
    (hplace : Stop.placeholder? t ⟨v, part⟩ = none) (hpart : part ∈ [.lead, .leaf, .image]) :
    (t.kindAt v).placeholder? = none := by
  unfold Tree.kindAt
  cases part with
  | lead =>
    have hitem : v.role = .item := hshows
    rw [if_pos hitem]
    rfl
  | leaf =>
    rw [if_neg hshows.1]
    simpa [Stop.placeholder?] using hplace
  | image =>
    obtain ⟨hitem, hdestination⟩ := hshows
    rw [if_neg hitem]
    cases hkind : t.kind v.node <;> simp_all [Kind.destination?, Kind.placeholder?]
  | _ => simp at hpart

/-- A stop at no placeholder is the same in the filled tree. -/
theorem runsAt_filled_of_no_placeholder (hfills : Tree.Fills values t u)
    (hreach : t.Reaches (t.visitTop id) s.visit) (hshows : t.Shows s.visit s.part)
    (hraw : ∀ n, ¬ t.holdsHtml n) (hplace : s.placeholder? t = none) :
    c.runsAt u inherited (s.filled values) = c.runsAt t inherited s := by
  obtain ⟨v, part⟩ := s
  have hat : part ∈ [.lead, .leaf, .image] → (t.kindAt v).placeholder? = none :=
    placeholder?_kindAt hshows hplace
  have hsame : part ∈ [.lead, .leaf, .image] → (⟨v, part⟩ : Stop).filled values = ⟨v, part⟩ := by
    intro hpart
    rw [Stop.filled, hreach.filled_eq values (hat hpart)]
  cases part with
  | separator | blank => rfl
  | lead =>
    rw [hsame (by decide)]
    simp only [runsAt, hfills.leadText_eq]
  | leaf | image =>
    have hkind : u.kind v.node = t.kind v.node := by
      apply hfills.kind_eq_of_no_placeholder
      rw [← hat (by decide), Tree.kindAt, if_neg hshows.1]
    rw [hsame (by decide)]
    simp only [runsAt, hkind]
  | html => exact absurd hshows.2.2 (hraw v.node)

/-- The runs of a stop at no placeholder belong to no variable. -/
theorem unnamed_of_no_placeholder (hreach : t.Reaches (t.visitTop id) s.visit)
    (hshows : t.Shows s.visit s.part) (hbase : inherited.get? .variableName = none)
    (hraw : ∀ n, ¬ t.holdsHtml n) (hplace : s.placeholder? t = none)
    (hruns : c.runsAt t inherited s = .ok runs) : ∀ r ∈ runs, r.variableName? = none := by
  obtain ⟨v, part⟩ := s
  -- Only these parts have attributes, and without a placeholder no kind on the way sets the name.
  have hname : part ∈ [.lead, .leaf, .image] →
      (v.attributes c.inheritance inherited).get? .variableName = none := by
    intro hpart
    rw [hreach.get?_attributes c.inheritance hbase, placeholder?_kindAt hshows hplace hpart]
    rfl
  intro r hr
  cases part with
  | separator | blank =>
    rcases hruns with ⟨⟩
    rw [List.mem_singleton.1 hr]
    rfl
  | lead | leaf =>
    rcases hruns with ⟨⟩
    rw [List.mem_singleton.1 hr]
    simp [Run.variableName?, Attributes.text?, hname]
  | image =>
    simp only [runsAt] at hruns
    split at hruns
    · rcases hruns with ⟨⟩
      rw [List.mem_singleton.1 hr]
      simp [Run.variableName?, Run.ofAttachment, Attributes.text?, hname]
    · cases hruns
  | html => exact absurd hshows.2.2 (hraw v.node)

/-- Values can be filled in before a stop is converted, or into its runs. -/
theorem runsAt_filled (hfills : Tree.Fills values t u)
    (hleaves : ∀ v, t.Reaches (t.visitTop id) v → v.role ≠ .item →
      u.kind v.node = (t.kind v.node).filled values)
    (hreach : t.Reaches (t.visitTop id) s.visit) (hshows : t.Shows s.visit s.part)
    (hbase : inherited.get? .variableName = none) (hraw : ∀ n, ¬ t.holdsHtml n)
    (hruns : c.runsAt t inherited s = .ok runs) :
    ∃ filled, c.runsAt u inherited (s.filled values) = .ok filled ∧
      Filling values (s.placeholder? t).toList runs filled := by
  -- Values only change the run of a placeholder. All other stops leave the same runs in both trees.
  cases hplace : s.placeholder? t with
  | none =>
    have hunnamed := unnamed_of_no_placeholder hreach hshows hbase hraw hplace hruns
    rw [← runsAt_filled_of_no_placeholder hfills hreach hshows hraw hplace] at hruns
    exact ⟨runs, hruns, .of_unnamed hunnamed⟩
  | some p =>
    obtain ⟨name, literal⟩ := p
    have hitem : s.visit.role ≠ .item := by
      have hpart : s.part = .leaf := by
        by_contra hpart
        simp [Stop.placeholder?, hpart] at hplace
      rw [hpart] at hshows
      exact hshows.1
    obtain ⟨r, hr, htext, hne, hname⟩ := runsAt_placeholder hreach hshows hbase hplace
    obtain ⟨r', hr', htext'⟩ := runsAt_filled_placeholder c inherited hplace
      (hleaves s.visit hreach hitem)
    rcases Except.ok.inj (hruns.symm.trans hr) with rfl
    have hrun : ¬ r.isEmpty := by simp [Run.isEmpty, htext, hne]
    refine ⟨[r'], hr', ?_, ?_, ?_⟩
    · have hbinding : r.binding? = some (name, literal) :=
        Run.binding?_eq_some_iff.2 ⟨hrun, hname, htext⟩
      simp [hbinding]
    · cases hvalue : values.get? name <;>
        simp [Run.charsWith, Run.chars, hname, hvalue, htext, htext']
    · intro x hx hempty
      rw [List.mem_singleton.1 hx] at hempty
      exact absurd hempty hrun

end Stops

/-! ## All runs -/

section Gather

variable {c : Conversion} {t u : Tree} {id : NodeId} {inherited : Attributes} {s : Stop}
  {stops : List Stop} {values : OrderedMap String String} {runs : List Run}

/-- Values can be filled in before stops are converted, or into their runs. -/
theorem gather_filled (hfills : Tree.Fills values t u)
    (hleaves : ∀ v, t.Reaches (t.visitTop id) v → v.role ≠ .item →
      u.kind v.node = (t.kind v.node).filled values)
    (hstops : ∀ s ∈ stops, t.Reaches (t.visitTop id) s.visit ∧ t.Shows s.visit s.part)
    (hbase : inherited.get? .variableName = none) (hraw : ∀ n, ¬ t.holdsHtml n)
    (hruns : c.gather t inherited stops = .ok runs) :
    ∃ filled, c.gather u inherited (stops.map (Stop.filled values)) = .ok filled ∧
      Filling values (stops.filterMap (Stop.placeholder? t)) runs filled := by
  -- Stops are filled in one by one: what a stop leaves depends on no other stop.
  induction stops generalizing runs with
  | nil =>
    rcases hruns with ⟨⟩
    exact ⟨[], rfl, .of_unnamed (by simp)⟩
  | cons s stops ih =>
    rw [List.forall_mem_cons] at hstops
    obtain ⟨row, more, hrow, hmore, rfl⟩ := gather_cons_eq_ok_iff.1 hruns
    obtain ⟨row', hrow', hfirst⟩ :=
      runsAt_filled hfills hleaves hstops.1.1 hstops.1.2 hbase hraw hrow
    obtain ⟨more', hmore', hrest⟩ := ih hstops.2 hmore
    refine ⟨row' ++ more', gather_cons_eq_ok_iff.2 ⟨row', more', hrow', hmore', rfl⟩, ?_⟩
    have hbindings : (s :: stops).filterMap (Stop.placeholder? t) =
        (s.placeholder? t).toList ++ stops.filterMap (Stop.placeholder? t) := by
      rw [List.filterMap_cons]
      cases s.placeholder? t <;> rfl
    rw [hbindings]
    exact hfirst.append hrest

/-- A stop has characters in the text. -/
def ShowsText (c : Conversion) (t : Tree) (inherited : Attributes) (s : Stop) : Prop :=
  ∃ runs, c.runsAt t inherited s = .ok runs ∧ ∃ r ∈ runs, ¬ r.isEmpty

/-- Between any two placeholders of one variable, something has characters. -/
def SetsApart (c : Conversion) (t : Tree) (inherited : Attributes) (stops : List Stop) : Prop :=
  ∀ before s between s' after name literal literal',
    stops = before ++ s :: (between ++ s' :: after) →
    s.placeholder? t = some (name, literal) → s'.placeholder? t = some (name, literal') →
    ∃ x ∈ between, c.ShowsText t inherited x

/-- Placeholders that are set apart leave runs that stand apart, also from the variable `current`
before them. -/
theorem apart_of_setsApart
    (hstops : ∀ s ∈ stops, t.Reaches (t.visitTop id) s.visit ∧ t.Shows s.visit s.part)
    (hbase : inherited.get? .variableName = none) (hraw : ∀ n, ¬ t.holdsHtml n)
    (hruns : c.gather t inherited stops = .ok runs) (hapart : c.SetsApart t inherited stops)
    (current : Option String)
    (hcurrent : ∀ between s after name literal, current = some name →
      stops = between ++ s :: after → s.placeholder? t = some (name, literal) →
      ∃ x ∈ between, c.ShowsText t inherited x) : Text.Apart current runs := by
  -- `current` is the variable of the last run that has characters. At a stop that shows something
  -- it changes, so the induction is for every `current`.
  induction stops generalizing runs current with
  | nil =>
    rcases hruns with ⟨⟩
    trivial
  | cons s stops ih =>
    rw [List.forall_mem_cons] at hstops
    obtain ⟨row, more, hrow, hmore, rfl⟩ := gather_cons_eq_ok_iff.1 hruns
    have hrest : c.SetsApart t inherited stops := by
      intro before s₁ between s₂ after name literal literal' hsplit
      exact hapart (s :: before) s₁ between s₂ after name literal literal' (by rw [hsplit]; rfl)
    cases hplace : s.placeholder? t with
    | none =>
      have hunnamed := unnamed_of_no_placeholder hstops.1.1 hstops.1.2 hbase hraw hplace hrow
      refine Text.apart_append hunnamed current (ih hstops.2 hmore hrest _ ?_)
      intro between s' after name literal hname hsplit hplace'
      by_cases hempty : row.all Run.isEmpty
      · rw [if_pos hempty] at hname
        obtain ⟨x, hx, hshown⟩ := hcurrent (s :: between) s' after name literal hname
          (by rw [hsplit]; rfl) hplace'
        rcases List.mem_cons.1 hx with rfl | hx
        · -- this stop has no characters
          obtain ⟨row', hrow', r, hr, hne⟩ := hshown
          rcases Except.ok.inj (hrow.symm.trans hrow') with rfl
          exact absurd (List.all_eq_true.1 hempty r hr) hne
        · exact ⟨x, hx, hshown⟩
      · rw [if_neg hempty] at hname
        cases hname
    | some p =>
      obtain ⟨name, literal⟩ := p
      obtain ⟨r, hr, htext, hne, hname⟩ :=
        runsAt_placeholder hstops.1.1 hstops.1.2 hbase hplace
      rcases Except.ok.inj (hrow.symm.trans hr) with rfl
      have hrun : ¬ r.isEmpty := by simp [Run.isEmpty, htext, hne]
      rw [List.singleton_append, Text.Apart, if_neg hrun, hname]
      refine ⟨?_, ih hstops.2 hmore hrest (some name) ?_⟩
      · intro _ hsame
        obtain ⟨x, hx, -⟩ := hcurrent [] s stops name literal hsame.symm rfl hplace
        exact absurd hx List.not_mem_nil
      · rintro between s' after _ literal' ⟨⟩ hsplit hplace'
        exact hapart [] s between s' after name literal literal' (by rw [hsplit]; rfl) hplace
          hplace'

/-- Placeholders are set apart exactly if their runs stand apart. -/
theorem setsApart_iff_apart
    (hstops : ∀ s ∈ stops, t.Reaches (t.visitTop id) s.visit ∧ t.Shows s.visit s.part)
    (hbase : inherited.get? .variableName = none) (hraw : ∀ n, ¬ t.holdsHtml n)
    (hruns : c.gather t inherited stops = .ok runs) :
    c.SetsApart t inherited stops ↔ Text.Apart none runs := by
  constructor
  · intro hapart
    exact apart_of_setsApart hstops hbase hraw hruns hapart none (by simp)
  · -- The runs between those of two placeholders come from the stops between them.
    rintro hapart before s between s' after name literal literal' rfl hplace hplace'
    obtain ⟨first, tail, -, htail, rfl⟩ := gather_append_eq_ok_iff.1 hruns
    obtain ⟨row, rest, hrow, hrest, rfl⟩ := gather_cons_eq_ok_iff.1 htail
    obtain ⟨middle, tail', hmiddle, htail', rfl⟩ := gather_append_eq_ok_iff.1 hrest
    obtain ⟨row', more, hrow', -, rfl⟩ := gather_cons_eq_ok_iff.1 htail'
    obtain ⟨hreach, hshows⟩ := hstops s (by simp)
    obtain ⟨hreach', hshows'⟩ := hstops s' (by simp)
    obtain ⟨r, hr, htext, hne, hname⟩ := runsAt_placeholder hreach hshows hbase hplace
    obtain ⟨r', hr', htext', hne', hname'⟩ := runsAt_placeholder hreach' hshows' hbase hplace'
    rcases Except.ok.inj (hrow.symm.trans hr) with rfl
    rcases Except.ok.inj (hrow'.symm.trans hr') with rfl
    obtain ⟨x, hx, hshown⟩ := hapart.exists_between (by simp [Run.isEmpty, htext, hne])
      (by simp [Run.isEmpty, htext', hne']) hname hname'
    obtain ⟨stop, hstop, runs, hruns, hmem⟩ := exists_stop_of_mem_gather hmiddle hx
    exact ⟨stop, hstop, runs, hruns, x, hmem, hshown⟩

end Gather

end Conversion

/-! ## Texts of whole trees -/

namespace Tree

variable {t : Tree} {id : NodeId} {v : Visit}

/-- In lists that hold items only, the kind that counts is the kind of the node. -/
theorem Reaches.kindAt_eq (hitems : t.ListsHoldItems) (hreach : t.Reaches (t.visitTop id) v) :
    t.kindAt v = t.kind v.node := by
  -- The top is in no list, and what is in a list is an item of it.
  rcases Relation.ReflTransGen.cases_tail hreach with rfl | ⟨w, -, hstep⟩
  · simp [kindAt, visitTop]
  · obtain ⟨role, i, c, hrole, hc, rfl⟩ := mem_nexts_iff.1 hstep
    exact hitems.kind_eq hrole (List.mem_of_getElem? hc)

/-- The walk leaves a stop at each placeholder that it comes to. -/
theorem mem_stopsFrom_and_placeholder?_iff (h : t.Linked) (hitems : t.ListsHoldItems)
    {p : String × String} {s : Stop} :
    s ∈ t.stopsFrom (t.visitTop id) ∧ s.placeholder? t = some p ↔
      t.Reaches (t.visitTop id) s.visit ∧ s.part = .leaf ∧
        (t.kind s.visit.node).placeholder? = some p := by
  rw [mem_stopsFrom_iff h, Stop.placeholder?]
  constructor
  · rintro ⟨⟨hreach, -⟩, hplace⟩
    split at hplace
    · next hpart => exact ⟨hreach, hpart, hplace⟩
    · cases hplace
  · intro ⟨hreach, hpart, hplace⟩
    obtain ⟨hkind, -⟩ := Kind.placeholder?_eq_some_iff.1 hplace
    -- A placeholder is no item, so the walk does not come to it as one.
    have hitem : s.visit.role ≠ .item := by
      intro hitem
      have hat := hreach.kindAt_eq hitems
      rw [kindAt, if_pos hitem, hkind] at hat
      cases hat
    rw [if_pos hpart]
    refine ⟨⟨hreach, ?_⟩, hplace⟩
    rw [hpart]
    exact ⟨hitem, by rw [hkind]; rfl⟩

/-- The variables of the placeholders that the walk from a node comes to, in document order, each
with the markup that names it. -/
def placeholders (t : Tree) (id : NodeId) : List (String × String) :=
  (t.stopsFrom (t.visitTop id)).filterMap (Stop.placeholder? t)

/-- The placeholders are those of the nodes that the walk comes to. -/
theorem mem_placeholders_iff (h : t.Linked) (hitems : t.ListsHoldItems) {p : String × String} :
    p ∈ t.placeholders id ↔
      ∃ v, t.Reaches (t.visitTop id) v ∧ (t.kind v.node).placeholder? = some p := by
  rw [placeholders, List.mem_filterMap]
  constructor
  · intro ⟨s, hs⟩
    obtain ⟨hreach, -, hplace⟩ := (mem_stopsFrom_and_placeholder?_iff h hitems).1 hs
    exact ⟨s.visit, hreach, hplace⟩
  · intro ⟨v, hreach, hplace⟩
    exact ⟨⟨v, .leaf⟩, (mem_stopsFrom_and_placeholder?_iff h hitems).2 ⟨hreach, rfl, hplace⟩⟩

/-- The last placeholder of a variable is the one that the walk comes to last. -/
theorem get?_ofList_placeholders_eq_some_iff (h : t.Linked) (hitems : t.ListsHoldItems)
    {name literal : String} :
    (OrderedMap.ofList (t.placeholders id)).get? name = some literal ↔
      ∃ v, t.Reaches (t.visitTop id) v ∧ (t.kind v.node).placeholder? = some (name, literal) ∧
        ∀ w other, t.Reaches (t.visitTop id) w →
          (t.kind w.node).placeholder? = some (name, other) → ¬ v.place < w.place := by
  rw [placeholders, OrderedMap.get?_ofList_filterMap_eq_some_iff (stopsFrom_sorted h _)
    fun s s' => Stop.Before.asymm]
  constructor
  · intro ⟨s, hs, hplace, hlast⟩
    obtain ⟨hreach, -, hkind⟩ := (mem_stopsFrom_and_placeholder?_iff h hitems).1 ⟨hs, hplace⟩
    refine ⟨s.visit, hreach, hkind, ?_⟩
    intro w other hw hother hlt
    obtain ⟨hstop, hplace'⟩ := (mem_stopsFrom_and_placeholder?_iff h hitems (s := ⟨w, .leaf⟩)).2
      ⟨hw, rfl, hother⟩
    exact hlast _ hstop other hplace' (.inl hlt)
  · intro ⟨v, hreach, hkind, hlast⟩
    obtain ⟨hstop, hplace⟩ := (mem_stopsFrom_and_placeholder?_iff h hitems (s := ⟨v, .leaf⟩)).2
      ⟨hreach, rfl, hkind⟩
    refine ⟨_, hstop, hplace, ?_⟩
    intro s hs other hother hbefore
    obtain ⟨hw, hpart, hkind'⟩ := (mem_stopsFrom_and_placeholder?_iff h hitems).1 ⟨hs, hother⟩
    rcases hbefore with hlt | ⟨-, hrank⟩
    · exact hlast s.visit other hw hkind' hlt
    · rw [hpart] at hrank
      exact Nat.lt_irrefl _ hrank

/-- A tree without raw markup has no node that holds some. -/
theorem holdsHtml_of_no_block (hraw : ∀ n, ¬ (t.kind n).isHtmlBlock) (n : NodeId) :
    ¬ t.holdsHtml n := by
  intro hholds
  obtain ⟨c, -, hc⟩ := List.any_eq_true.1 hholds
  exact hraw c hc

/-- In the text of a node, the runs of a variable stand apart if its placeholders are set apart. -/
theorem setsApart_iff_of_toText (h : t.Linked) (hraw : ∀ n, ¬ (t.kind n).isHtmlBlock)
    {inherited : Attributes} (hbase : inherited.get? .variableName = none)
    {attachments : Attachments} {options : ConversionOptions} {text : Text}
    (htext : t.toText id inherited attachments options = .ok text) :
    Conversion.SetsApart { options, attachments } t inherited (t.stopsFrom (t.visitTop id)) ↔
      Text.Apart none text.runs :=
  Conversion.setsApart_iff_apart (fun _ hs => (mem_stopsFrom_iff h).1 hs) hbase
    (holdsHtml_of_no_block hraw) ((toText_eq_ok_iff h).1 htext)

/-- What becomes of the variables that the walk comes to in a tree. -/
structure TakesValues (t : Tree) (id : NodeId) (inherited : Attributes)
    (attachments : Attachments) (options : ConversionOptions) (text : Text) : Prop where
  /-- The text has variables if the walk comes to a placeholder. -/
  hasVariables_iff : text.hasVariables ↔
    ∃ v p, t.Reaches (t.visitTop id) v ∧ (t.kind v.node).placeholder? = some p
  /-- Its variables are those of the placeholders. -/
  contains_iff : ∀ name, (text.variableTexts none).contains name ↔
    ∃ v literal, t.Reaches (t.visitTop id) v ∧ (t.kind v.node).placeholder? = some (name, literal)
  /-- Each is shown as its last placeholder. -/
  get?_eq_some_iff : ∀ name literal, (text.variableTexts none).get? name = some literal ↔
    ∃ v, t.Reaches (t.visitTop id) v ∧ (t.kind v.node).placeholder? = some (name, literal) ∧
      ∀ w other, t.Reaches (t.visitTop id) w →
        (t.kind w.node).placeholder? = some (name, other) → ¬ v.place < w.place
  /-- Values may be filled in before or after the conversion. -/
  updated_eq : ∀ values, ∃ filled,
    (t.filled id values).toText id inherited attachments options = .ok filled ∧
      (text.updated values none).string = filled.string

/-- Values can be filled in before or after a conversion, if placeholders of one variable are set
apart. -/
theorem toText_takes_values (t : Tree) (h : t.Built) (hraw : ∀ n, ¬ (t.kind n).isHtmlBlock)
    (hitems : t.ListsHoldItems) (id : NodeId) (inherited : Attributes)
    (hbase : inherited.get? .variableName = none) (attachments : Attachments)
    (options : ConversionOptions) (text : Text)
    (htext : t.toText id inherited attachments options = .ok text)
    (hapart : Conversion.SetsApart { options, attachments } t inherited
      (t.stopsFrom (t.visitTop id))) :
    t.TakesValues id inherited attachments options text := by
  have hlinked := h.linked
  have hruns_apart := (setsApart_iff_of_toText hlinked hraw hbase htext).1 hapart
  have hruns := (toText_eq_ok_iff hlinked).1 htext
  have hfilling := fun values => Conversion.gather_filled (u := t.filled id values)
    fills_fillAll (fun v hv hrole => kind_filled hlinked hv hrole)
    (fun s hs => (mem_stopsFrom_iff hlinked).1 hs) hbase (holdsHtml_of_no_block hraw) hruns
  have hbindings : text.runs.filterMap Run.binding? = t.placeholders id := by
    obtain ⟨filled, _, hfill⟩ := hfilling {}
    exact hfill.bindings_eq
  have htexts : text.variableTexts none = .ofList (t.placeholders id) := by
    rw [Text.variableTexts_of_apart hruns_apart, hbindings]
  refine ⟨?_, ?_, ?_, ?_⟩
  · rw [Text.hasVariables_of_apart hruns_apart, hbindings]
    constructor
    · intro hne
      obtain ⟨p, hp⟩ := List.exists_mem_of_ne_nil _ hne
      obtain ⟨v, hv⟩ := (mem_placeholders_iff hlinked hitems).1 hp
      exact ⟨v, p, hv⟩
    · intro ⟨v, p, hv⟩
      exact List.ne_nil_of_mem ((mem_placeholders_iff hlinked hitems).2 ⟨v, hv⟩)
  · intro name
    rw [htexts, OrderedMap.contains_ofList_iff]
    constructor
    · rintro ⟨⟨_, literal⟩, hp, rfl⟩
      obtain ⟨v, hv⟩ := (mem_placeholders_iff hlinked hitems).1 hp
      exact ⟨v, literal, hv⟩
    · intro ⟨v, literal, hv⟩
      exact ⟨(name, literal), (mem_placeholders_iff hlinked hitems).2 ⟨v, hv⟩, rfl⟩
  · intro name literal
    rw [htexts, get?_ofList_placeholders_eq_some_iff hlinked hitems]
  · intro values
    obtain ⟨filled, hfilled, hfill⟩ := hfilling values
    refine ⟨⟨filled⟩, ?_, ?_⟩
    · rw [toText_eq_ok_iff (built_filled h id values).linked, stopsFrom_visitTop_filled h]
      exact hfilled
    · rw [Text.updated_none_eq, Text.string, Text.string, Text.chars, Text.chars, hfill.chars_eq,
        Text.chars_withValues_of_apart values hruns_apart hfill.unnamed]

/-- A list with an item that names two variables, one of them twice. -/
def form : Tree :=
  ((((((((ofRoot .document).push 0 (.list .bullet 1 true)).push 1 .item).push 2 .paragraph).push 3
    (.inlineHtml "<key name/>")).push 3 (.inlineHtml "<key title/>")).push 3 (.text " or ")).push 3
    (.inlineHtml "<key  name/>"))

/-- The text of that list. -/
def formText : Text :=
  let named := fun name => OrderedMap.ofList [(Attribute.Key.variableName, .text name)]
  ⟨[{ text := "\t• " }, { text := "<key name/>", attributes := named "name" },
    { text := "<key title/>", attributes := named "title" }, { text := " or " },
    { text := "<key  name/>", attributes := named "name" }]⟩

/-- The form shows its variables, and takes values for them. -/
theorem form_takes_values :
    form.Built ∧ (∀ n, ¬ (form.kind n).isHtmlBlock) ∧ form.ListsHoldItems ∧
      ({} : Attributes).get? .variableName = none ∧
      ∃ text, form.toText 0 {} {} {} = .ok text ∧
        Conversion.SetsApart { options := {}, attachments := {} } form {}
          (form.stopsFrom (form.visitTop 0)) ∧
        form.TakesValues 0 {} {} {} text := by
  have hbuilt : form.Built := by
    unfold form
    repeat refine .push _ ?_ (by simp)
    exact .ofRoot _
  have hraw : ∀ n, ¬ (form.kind n).isHtmlBlock := by
    intro n
    rcases Nat.lt_or_ge n form.size with hlt | hge
    · have hall : ∀ n < form.size, ¬ (form.kind n).isHtmlBlock := by decide
      exact hall n hlt
    · rw [kind, node_of_size_le hge]
      decide
  have hitems : form.ListsHoldItems := by
    have hall : ∀ list < form.size, (form.kind list).list?.isSome →
        ∀ c ∈ form.children list, form.kind c = .item := by decide
    intro list hlist c hc
    exact hall list (lt_size_of_mem_children hc) hlist c hc
  have htext : form.toText 0 {} {} {} = .ok formText := rfl
  have hapart := (setsApart_iff_of_toText hbuilt.linked hraw rfl htext).2 (by decide)
  exact ⟨hbuilt, hraw, hitems, rfl, formText, htext, hapart,
    toText_takes_values form hbuilt hraw hitems 0 {} rfl {} {} formText htext hapart⟩

end Tree

end StyledText.Markdown
