import StyledText.Proofs.Variable.Nearest

/-!
# What variables show after an update

The variables of a text and the characters they show can be read off its runs without offsets
(`shownFrom`, `variableTexts_none_eq_shownFrom`). In this form an update of all variables changes
what is shown entry by entry, as long as no new value is empty (`shownFrom_withValues`). The runs it
writes have the value in their text and among their attributes (`mem_withValues`).

`updated_reads_back` is what can be read after an update.
-/

namespace StyledText

open Variable

namespace Text

/-! ## Shown characters -/

/-- The variables of runs from left to right, each with the characters it shows; `current` is the
variable of the last run that was not empty, with what it has shown so far. -/
def shownFrom (current : Option (String × List Char)) : List Run → List (String × List Char)
  | [] => current.toList
  | r :: rest =>
    if r.isEmpty then shownFrom current rest
    else
      match r.variableName? with
      | none => current.toList ++ shownFrom none rest
      | some name =>
        match current with
        | none => shownFrom (some (name, r.chars)) rest
        | some shown =>
          if shown.1 = name then shownFrom (some (name, shown.2 ++ r.chars)) rest
          else shown :: shownFrom (some (name, r.chars)) rest

/-- The open span of the scan has shown the last of the characters passed. -/
inductive ShowsLast (passed : List Char) : Option Span → Option (String × List Char) → Prop
  | closed : ShowsLast passed none none
  | opened {c : Span} {left shown : List Char} (split : passed = left ++ shown)
      (start : c.range.start = Chars.byteLength left)
      (stop : c.range.stop = Chars.byteLength passed) :
      ShowsLast passed (some c) (some (c.name, shown))

variable {values : OrderedMap String String} {current : Option Span}
  {shown : Option (String × List Char)} {passed : List Char}

/-- The open span is done, and what comes behind it does not change what it has shown. -/
theorem ShowsLast.map_slice? (h : ShowsLast passed current shown) (behind : List Char) :
    current.toList.map (fun s =>
        (s.name, Chars.slice? s.range.start s.range.stop (passed ++ behind))) =
      shown.toList.map fun p => (p.1, some p.2) := by
  cases h with
  | closed => rfl
  | @opened c left shown split start stop =>
    have hslice : Chars.slice? c.range.start c.range.stop (passed ++ behind) = some shown := by
      refine Chars.slice?_eq_some_iff.2 ⟨left, behind, by rw [split], start.symm, ?_⟩
      rw [start, stop, split, Chars.byteLength_append]
    simp [hslice]

/-- The spans of runs show what the runs show. -/
theorem spansFrom_shown (index : Nat) (h : ShowsLast passed current shown) (runs : List Run) :
    (spansFrom index (Chars.byteLength passed) current runs).map (fun s =>
        (s.name, Chars.slice? s.range.start s.range.stop (passed ++ runs.flatMap Run.chars))) =
      (shownFrom shown runs).map fun p => (p.1, some p.2) := by
  induction runs generalizing index passed current shown with
  | nil => exact h.map_slice? []
  | cons r rest ih =>
    rw [spansFrom, shownFrom, List.flatMap_cons]
    by_cases hr : r.isEmpty
    · rw [if_pos hr, if_pos hr, Run.isEmpty_iff.1 hr]
      exact ih (index + 1) h
    · have hdone := h.map_slice? (r.chars ++ rest.flatMap Run.chars)
      have hlen : Chars.byteLength passed + r.length = Chars.byteLength (passed ++ r.chars) := by
        rw [Chars.byteLength_append, Run.length]
      rw [if_neg hr, if_neg hr]
      simp only [hlen]
      rw [← List.append_assoc] at hdone ⊢
      -- the run opens a span of its own unless it makes the open one longer
      have hopen : ∀ name, ShowsLast (passed ++ r.chars)
          (some ⟨name, ⟨Chars.byteLength passed, Chars.byteLength (passed ++ r.chars)⟩, index,
            index + 1⟩) (some (name, r.chars)) := fun name => .opened rfl rfl rfl
      cases hname : r.variableName? with
      | none =>
        simp only [List.map_append]
        rw [hdone, ih (index + 1) .closed]
      | some name =>
        cases h with
        | closed => exact ih (index + 1) (hopen name)
        | @opened c left shown split start stop =>
          by_cases hsame : c.name = name
          · subst hsame
            simp only [if_true]
            have hsplit : passed ++ r.chars = left ++ (shown ++ r.chars) := by
              rw [split, List.append_assoc]
            exact ih (index + 1) (.opened hsplit start rfl)
          · simp only [hsame, if_false, List.map_cons]
            simp only [Option.toList_some, List.map_cons, List.map_nil, List.cons.injEq,
              and_true] at hdone
            rw [hdone, ih (index + 1) (hopen name)]

/-- The variables of a text, each with what it shows. -/
theorem variableTexts_none_eq_shownFrom (t : Text) : t.variableTexts none =
    .ofList ((shownFrom none t.runs).map fun p => (p.1, String.ofList p.2)) := by
  have hshown : t.spans.map (fun s => (s.name, Chars.slice? s.range.start s.range.stop t.chars)) =
      (shownFrom none t.runs).map fun p => (p.1, some p.2) :=
    spansFrom_shown 0 (.closed : ShowsLast [] none none) t.runs
  have htexts := congrArg
    (List.filterMap fun e => e.2.map fun cs => (e.1, String.ofList cs)) hshown
  rw [List.filterMap_map, List.filterMap_map] at htexts
  rw [variableTexts_none_eq]
  congr 1
  refine Eq.trans (List.filterMap_congr fun s _ => ?_)
    (htexts.trans (List.filterMap_eq_map_iff_forall_eq_some.2 fun p _ => rfl))
  rw [slice?, Option.map_map]
  rfl

/-! ## New values -/

/-- What a variable shows when it has taken its new value, if there is one. -/
def revalued (values : OrderedMap String String) (p : String × List Char) : String × List Char :=
  (p.1, ((values.get? p.1).map String.toList).getD p.2)

/-- New values change what is shown entry by entry. As they have characters, no stretch goes away,
and none grow together. -/
theorem shownFrom_withValues (h : ∀ name value, values.get? name = some value → value ≠ "")
    (current : Option (String × List Char)) (runs : List Run) :
    shownFrom (current.map (revalued values)) (withValues values (current.map Prod.fst) runs) =
      (shownFrom current runs).map (revalued values) := by
  induction runs generalizing current with
  | nil => cases current <;> rfl
  | cons r rest ih =>
    rw [withValues, shownFrom]
    by_cases hr : r.isEmpty
    · rw [if_pos hr, if_pos hr, shownFrom, if_pos hr, ih]
    · rw [if_neg hr, if_neg hr]
      cases hname : r.variableName? with
      | none =>
        have hrest := ih none
        rw [Option.map_none, Option.map_none] at hrest
        cases current <;> simp [Run.renewed, hname, shownFrom, hr, hrest]
      | some name =>
        have hrest := fun cs => ih (some (name, cs))
        simp only [Option.map_some] at hrest
        cases hvalue : values.get? name with
        | none =>
          have hsame : ∀ cs, revalued values (name, cs) = (name, cs) := by
            intro cs
            simp [revalued, hvalue]
          simp only [hsame] at hrest
          cases current with
          | none => simp [Run.renewed, hname, hvalue, shownFrom, hr, hrest]
          | some p =>
            by_cases hgoes : p.1 = name
            · obtain ⟨_, cs⟩ := p
              subst hgoes
              simp [Run.renewed, hname, hvalue, shownFrom, hr, hsame, hrest]
            · simp [Run.renewed, hname, hvalue, shownFrom, hr, revalued, hgoes, hrest]
        | some value =>
          have hkept : (r.withValue value).isEmpty = false := by simp [h name value hvalue]
          have hchars : (r.withValue value).chars = value.toList := rfl
          have hnew : ∀ cs, revalued values (name, cs) = (name, value.toList) := by
            intro cs
            simp [revalued, hvalue]
          simp only [hnew] at hrest
          cases current with
          | none => simp [Run.renewed, hname, hvalue, shownFrom, hkept, hchars, hrest r.chars]
          | some p =>
            by_cases hgoes : p.1 = name
            · -- the value stands already where the stretch starts
              obtain ⟨_, cs⟩ := p
              subst hgoes
              simp [Run.renewed, hname, hvalue, hnew, hrest (cs ++ r.chars)]
            · simp [Run.renewed, hname, hvalue, shownFrom, hkept, hchars, revalued, hgoes,
                Ne.symm hgoes, hrest r.chars]

/-- The runs that an update leaves to a variable with a new value are the ones written. -/
theorem mem_withValues {current : Option String} {runs : List Run} {w : Run} {name value : String}
    (hvalue : values.get? name = some value) (hw : w ∈ withValues values current runs)
    (hne : ¬ w.isEmpty) (hname : w.variableName? = some name) :
    ∃ r : Run, w = r.withValue value := by
  induction runs generalizing current with
  | nil => cases hw
  | cons r rest ih =>
    rw [withValues] at hw
    split at hw
    · next hr =>
      rcases List.mem_cons.1 hw with rfl | hw
      · exact absurd hr hne
      · exact ih hw
    · rcases List.mem_append.1 hw with hw | hw
      · unfold Run.renewed at hw
        split at hw
        · next value' hbind =>
          split at hw
          · cases hw
          · rw [List.mem_singleton.1 hw, Run.variableName?_withValue] at hname
            rw [hname, Option.bind_some, hvalue, Option.some.injEq] at hbind
            exact ⟨r, by rw [List.mem_singleton.1 hw, hbind]⟩
        · next hbind =>
          rw [List.mem_singleton.1 hw] at hname
          rw [hname, Option.bind_some, hvalue] at hbind
          cases hbind
      · exact ih hw

/-! ## Reading after an update -/

/-- A search tells the value that a run of the variable holds. -/
theorem exists_run_of_nextVariable? {t : Text} {offset : Nat} {direction : Direction}
    {name told : String} (h : t.nextVariable? offset direction = some (name, told)) :
    ∃ r ∈ t.runs, ¬ r.isEmpty ∧ r.variableName? = some name ∧
      ∀ stored, r.attributes.text? .variableValue = some stored → told = stored := by
  obtain ⟨⟨s, clip⟩, hfound, htold⟩ := Option.bind_eq_some_iff.1 h
  obtain ⟨hs, o, -, hin, rfl⟩ := nextSpan?_isNearest hfound
  have hstretch := isStretch_of_mem_spans hs
  obtain ⟨r, htells, hrun⟩ := exists_tells hstretch hin direction
  obtain ⟨value, hvalue, heq⟩ := Option.map_eq_some_iff.1 htold
  obtain ⟨rfl, rfl⟩ := Prod.mk.inj heq
  obtain ⟨hr, hne, hname⟩ := htells.variableName? hstretch hin
  refine ⟨r, hr, hne, hname, ?_⟩
  intro stored hstored
  rw [hrun, Option.bind_some, hstored] at hvalue
  exact (Option.some.inj hvalue).symm

/-- What can be read of the variables after an update with values. -/
structure ReadsBack (t : Text) (values : OrderedMap String String) (t' : Text) : Prop where
  /-- Each variable shows its new value, or what it did if there is none. No name is new. -/
  texts : ∀ name, (t'.variableTexts none).get? name =
    ((t.variableTexts none).get? name).map fun shown => (values.get? name).getD shown
  /-- Each run of a variable with a new value shows it and has it stored. -/
  runs : ∀ r ∈ t'.runs, ∀ name value, ¬ r.isEmpty → r.variableName? = some name →
    values.get? name = some value →
    r.text = value ∧ r.attributes.text? .variableValue = some value
  /-- The nearest variable in any direction has its new value. -/
  nearest : ∀ offset direction name told value,
    t'.nextVariable? offset direction = some (name, told) → values.get? name = some value →
    told = value

/-- What an update writes is read back, if no new value is empty. -/
theorem updated_reads_back (t : Text) (values : OrderedMap String String)
    (h : ∀ name value, values.get? name = some value → value ≠ "") :
    t.ReadsBack values (t.updated values none) := by
  have hruns : ∀ r ∈ (t.updated values none).runs, ∀ name value, ¬ r.isEmpty →
      r.variableName? = some name → values.get? name = some value →
      r.text = value ∧ r.attributes.text? .variableValue = some value := by
    intro w hw name value hne hname hvalue
    rw [updated_none_eq] at hw
    obtain ⟨r, rfl⟩ := mem_withValues hvalue hw hne hname
    exact ⟨rfl, by simp [Run.withValue, Attributes.text?]⟩
  refine ⟨?_, hruns, ?_⟩
  · intro name
    have hshown := shownFrom_withValues h none t.runs
    rw [Option.map_none, Option.map_none] at hshown
    have hentries : ((shownFrom none t.runs).map (revalued values)).map
          (fun p => (p.1, String.ofList p.2)) =
        ((shownFrom none t.runs).map fun p => (p.1, String.ofList p.2)).map
          fun e => (e.1, (values.get? e.1).getD e.2) := by
      rw [List.map_map, List.map_map]
      refine List.map_congr_left fun p _ => ?_
      cases hvalue : values.get? p.1 <;> simp [revalued, hvalue]
    rw [variableTexts_none_eq_shownFrom, variableTexts_none_eq_shownFrom, updated_none_eq, hshown,
      hentries, OrderedMap.get?_ofList_map fun name shown => (values.get? name).getD shown]
  · intro offset direction name told value hfound hvalue
    obtain ⟨r, hr, hne, hname, hstored⟩ := exists_run_of_nextVariable? hfound
    exact hstored value (hruns r hr name value hne hname hvalue).2

/-- The letter takes a new name, and nothing comes of a place that it does not speak of. -/
theorem letter_reads_back :
    (∀ name value, (OrderedMap.ofList [("name", "Al"), ("place", "Rome")]).get? name = some value →
        value ≠ "") ∧
      letter.ReadsBack (.ofList [("name", "Al"), ("place", "Rome")])
        (letter.updated (.ofList [("name", "Al"), ("place", "Rome")]) none) ∧
      ((letter.updated (.ofList [("name", "Al"), ("place", "Rome")]) none).variableTexts
        none).toList = [("amount", "$5"), ("name", "Al")] := by
  have hvalues : ∀ name value,
      (OrderedMap.ofList [("name", "Al"), ("place", "Rome")]).get? name = some value →
      value ≠ "" := by
    intro name value hvalue
    obtain ⟨before, after, hsplit, -⟩ := OrderedMap.get?_ofList_eq_some_iff.1 hvalue
    have hmem : (name, value) ∈ [("name", "Al"), ("place", "Rome")] := by
      rw [hsplit]
      simp
    simp only [List.mem_cons, Prod.mk.injEq, List.not_mem_nil, or_false] at hmem
    rcases hmem with ⟨-, rfl⟩ | ⟨-, rfl⟩ <;> decide
  exact ⟨hvalues, updated_reads_back letter _ hvalues, by decide⟩

end Text

end StyledText
