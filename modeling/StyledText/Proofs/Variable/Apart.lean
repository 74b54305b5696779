import StyledText.Proofs.Variable.Everywhere
import StyledText.Text.Variable.Reading

/-!
# Variables that stand apart

If something stands between any two runs of one variable, each run is a stretch of its own. What
is read of the variables, and what an update makes of the text, can then be said run by run.

* `hasVariables_iff`: some run with characters belongs to a variable.
* `variableTexts_of_apart`: the runs of variables, each with its text.
* `chars_withValues_of_apart`: each run of a variable has its new value.
-/

namespace StyledText

open Variable

namespace Run

/-- The name of a run of a variable, and the text that the run shows for it. -/
def binding? (r : Run) : Option (String × String) :=
  if r.isEmpty then none else r.variableName?.map (·, r.text)

theorem binding?_eq_some_iff {r : Run} {b : String × String} :
    r.binding? = some b ↔ ¬ r.isEmpty ∧ r.variableName? = some b.1 ∧ r.text = b.2 := by
  unfold binding?
  split <;> simp_all [Prod.ext_iff]

/-- The characters of a run, or the new value of its variable. -/
def charsWith (r : Run) (values : OrderedMap String String) : List Char :=
  match r.variableName?.bind values.get? with
  | some value => value.toList
  | none => r.chars

end Run

namespace Text

/-- No two runs of one variable stand together; `current` is the variable of the last run that was
not empty. -/
def Apart (current : Option String) : List Run → Prop
  | [] => True
  | r :: rest =>
    if r.isEmpty then Apart current rest
    else (r.variableName?.isSome → r.variableName? ≠ current) ∧ Apart r.variableName? rest

instance decidableApart (current : Option String) :
    (runs : List Run) → Decidable (Apart current runs)
  | [] => .isTrue trivial
  | r :: rest =>
    have := decidableApart current rest
    have := decidableApart r.variableName? rest
    inferInstanceAs (Decidable (if r.isEmpty then Apart current rest
      else (r.variableName?.isSome → r.variableName? ≠ current) ∧ Apart r.variableName? rest))

/-- After runs of no variable, the next one stands apart if they have characters. -/
theorem apart_append {row rest : List Run} (hrow : ∀ r ∈ row, r.variableName? = none)
    (current : Option String)
    (h : Apart (if row.all Run.isEmpty then current else none) rest) :
    Apart current (row ++ rest) := by
  -- Empty runs leave `current` as it was. A run that shows something ends it.
  induction row generalizing current with
  | nil => exact h
  | cons r row ih =>
    rw [List.forall_mem_cons] at hrow
    rw [List.cons_append, Apart]
    by_cases hr : r.isEmpty
    · rw [if_pos hr]
      apply ih hrow.2
      simpa [hr] using h
    · rw [if_neg hr, hrow.1]
      refine ⟨by simp, ih hrow.2 none ?_⟩
      simpa [hr] using h

/-- What follows stands apart from whatever was last. -/
theorem Apart.exists_tail {current : Option String} {runs rest : List Run}
    (h : Apart current (runs ++ rest)) : ∃ last, Apart last rest := by
  induction runs generalizing current with
  | nil => exact ⟨current, h⟩
  | cons r runs ih =>
    rw [List.cons_append, Apart] at h
    split at h
    · exact ih h
    · exact ih h.2

/-- Empty runs do not count. -/
theorem Apart.tail_of_empty {current : Option String} {runs rest : List Run}
    (hempty : ∀ r ∈ runs, r.isEmpty) (h : Apart current (runs ++ rest)) : Apart current rest := by
  induction runs with
  | nil => exact h
  | cons r runs ih =>
    rw [List.forall_mem_cons] at hempty
    rw [List.cons_append, Apart, if_pos hempty.1] at h
    exact ih hempty.2 h

/-- Something stands between two runs of one variable. -/
theorem Apart.exists_between {current : Option String} {before between after : List Run}
    {r r' : Run} {name : String} (h : Apart current (before ++ r :: (between ++ r' :: after)))
    (hr : ¬ r.isEmpty) (hr' : ¬ r'.isEmpty) (hname : r.variableName? = some name)
    (hname' : r'.variableName? = some name) : ∃ x ∈ between, ¬ x.isEmpty := by
  by_contra hnone
  have hempty : ∀ x ∈ between, x.isEmpty := by simpa using hnone
  obtain ⟨last, hlast⟩ := h.exists_tail
  rw [Apart, if_neg hr, hname] at hlast
  have hnext := hlast.2.tail_of_empty hempty
  rw [Apart, if_neg hr'] at hnext
  exact hnext.1 (by rw [hname']; rfl) hname'

/-! ## Updates -/

/-- Each run of a variable that stands apart has its new value. -/
theorem chars_withValues_of_apart (values : OrderedMap String String) {current : Option String}
    {runs : List Run} (h : Apart current runs)
    (hempty : ∀ r ∈ runs, r.isEmpty → r.variableName? = none) :
    (withValues values current runs).flatMap Run.chars =
      runs.flatMap fun r => r.charsWith values := by
  induction runs generalizing current with
  | nil => rfl
  | cons r rest ih =>
    rw [List.forall_mem_cons] at hempty
    rw [Apart] at h
    rw [withValues, List.flatMap_cons]
    by_cases hr : r.isEmpty
    · rw [if_pos hr] at h ⊢
      rw [List.flatMap_cons, ih h hempty.2, Run.charsWith, hempty.1 hr]
      rfl
    · rw [if_neg hr] at h ⊢
      rw [List.flatMap_append, ih h.2 hempty.2]
      congr 1
      cases hvalue : r.variableName?.bind values.get? with
      | none => simp [Run.renewed, Run.charsWith, hvalue]
      | some value =>
        obtain ⟨name, hname, -⟩ := Option.bind_eq_some_iff.1 hvalue
        have hfirst : r.variableName? ≠ current := h.1 (by simp [hname])
        simp [Run.renewed, Run.charsWith, hvalue, hfirst, Run.withValue, Run.chars]

/-! ## Reading -/

/-- The spans of runs that stand apart are the places of the runs with a name. -/
theorem spansFrom_of_apart (index base : Nat) (current : Option Span) (runs : List Run)
    (h : Apart (current.map Span.name) runs) :
    (spansFrom index base current runs).map (fun s => (s.name, s.range)) =
      current.toList.map (fun s => (s.name, s.range)) ++
        (locate base runs).filterMap fun e => e.2.binding?.map fun b => (b.1, e.1) := by
  induction runs generalizing index base current with
  | nil => simp [spansFrom, locate]
  | cons r rest ih =>
    rw [Apart] at h
    rw [spansFrom, locate, List.filterMap_cons]
    by_cases hr : r.isEmpty
    · rw [if_pos hr] at h ⊢
      rw [ih (index + 1) base current h, Run.length_of_isEmpty hr]
      simp [Run.binding?, hr]
    · rw [if_neg hr] at h ⊢
      cases hname : r.variableName? with
      | none =>
        rw [hname] at h
        simp [Run.binding?, hr, hname, ih (index + 1) (base + r.length) none h.2]
      | some name =>
        rw [hname] at h
        -- the name is another one than that of the open span, which is done
        have hnext := ih (index + 1) (base + r.length)
          (some ⟨name, ⟨base, base + r.length⟩, index, index + 1⟩) h.2
        cases current with
        | none => simp [Run.binding?, hr, hname, hnext]
        | some c =>
          have hother : c.name ≠ name := by
            intro hsame
            exact h.1 rfl (by rw [← hsame]; rfl)
          simp [Run.binding?, hr, hname, hnext, hother]

theorem spans_of_apart {t : Text} (h : Apart none t.runs) :
    t.spans.map (fun s => (s.name, s.range)) =
      t.ranges.filterMap fun e => e.2.binding?.map fun b => (b.1, e.1) := by
  have hspans := spansFrom_of_apart 0 0 none t.runs h
  rwa [Option.toList_none, List.map_nil, List.nil_append] at hspans

/-- Where runs of variables stand apart, there are variables if one of the runs has one. -/
theorem hasVariables_of_apart {t : Text} (h : Apart none t.runs) :
    t.hasVariables ↔ t.runs.filterMap Run.binding? ≠ [] := by
  have hnames : t.spans.map Span.name = (t.runs.filterMap Run.binding?).map Prod.fst := by
    have hspans := congrArg (List.map Prod.fst) (spans_of_apart h)
    rw [List.map_map, List.map_filterMap] at hspans
    rw [List.map_filterMap, ← map_locate 0 t.runs, List.filterMap_map]
    refine hspans.trans (List.filterMap_congr fun e _ => ?_)
    cases hbinding : e.2.binding? <;> simp [hbinding]
  have hempty := congrArg List.isEmpty hnames
  rw [List.isEmpty_map, List.isEmpty_map] at hempty
  simp [hasVariables, hempty]

/-- The variables are the runs with a name, each with its text. -/
theorem variableTexts_of_apart {t : Text} (h : Apart none t.runs) :
    t.variableTexts none = .ofList (t.runs.filterMap Run.binding?) := by
  have hwhole : t.variableTexts none = .ofList
      ((t.spans.map fun s => (s.name, s.range)).filterMap fun e =>
        (t.slice? e.2).map (e.1, ·)) := by
    rw [variableTexts_none_eq, List.filterMap_map]
    rfl
  rw [hwhole, spans_of_apart h, List.filterMap_filterMap, ← map_locate 0 t.runs,
    List.filterMap_map]
  congr 1
  apply List.filterMap_congr
  intro e he
  -- each run is a variable of its own, so what is shown of it is all of its text
  have hslice : t.slice? e.1 = some e.2.text := slice?_of_mem_ranges he
  cases hbinding : e.2.binding? with
  | none => simp [hbinding]
  | some b =>
    obtain ⟨-, -, htext⟩ := Run.binding?_eq_some_iff.1 hbinding
    simp [hbinding, hslice, htext]

end Text

end StyledText
