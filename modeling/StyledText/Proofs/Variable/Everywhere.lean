import StyledText.Proofs.Variable.Update
import StyledText.Text.Variable.Reading

/-!
# Updates everywhere

Without a range an update replaces whole stretches, and no cursor is needed to say how: it is one
pass over the runs that remembers the variable it stands in (`withValues`, `updated_none_eq`). So
updates can be composed run by run.

* `withValues_withValues`: one pass after the other is one pass with both maps of values.
* `updated_composes`: the laws of updates that follow.
-/

namespace StyledText

open Variable

namespace Run

/-- What becomes of a run that follows text of the variable `current`. The first run of a stretch
takes the new value, and the others go. -/
def renewed (r : Run) (values : OrderedMap String String) (current : Option String) : List Run :=
  match r.variableName?.bind values.get? with
  | some value => if r.variableName? = current then [] else [r.withValue value]
  | none => [r]

@[simp] theorem variableName?_withValue (r : Run) (value : String) :
    (r.withValue value).variableName? = r.variableName? := by
  simp [variableName?, withValue, Attributes.text?]

@[simp] theorem withValue_withValue (r : Run) (value later : String) :
    (r.withValue value).withValue later = r.withValue later := by
  simp [withValue, OrderedMap.insert_insert]

@[simp] theorem isEmpty_withValue (r : Run) (value : String) :
    (r.withValue value).isEmpty = (value = "" : Bool) := rfl

end Run

namespace Text

/-! ## One pass -/

/-- The runs with new values for all variables; `current` is the variable of the last run that was
not empty. -/
def withValues (values : OrderedMap String String) (current : Option String) :
    List Run → List Run
  | [] => []
  | r :: rest =>
    if r.isEmpty then r :: withValues values current rest
    else r.renewed values current ++ withValues values r.variableName? rest

/-- The edits that replace whole spans. -/
def wholeEdits (values : OrderedMap String String) (spans : List Span) : List Edit :=
  spans.filterMap fun s => (values.get? s.name).map (Edit.mk s.range)

variable {values : OrderedMap String String}

/-- A span lies within the text, so nothing of it is cut off. -/
theorem inter_extent_of_mem_spans {t : Text} {s : Span} (hs : s ∈ t.spans) :
    s.range.inter t.extent = s.range ∧ s.range.isEmpty = false := by
  have hstretch := isStretch_of_mem_spans hs
  have hne := hstretch.nonempty
  have hlast := lt_length_of_nameAt? (hstretch.named (s.range.stop - 1) (by omega) (by omega))
  have hstop : s.range.stop ≤ t.length := by omega
  constructor
  · simp [ByteRange.inter, extent, hstop]
  · simpa [ByteRange.isEmpty] using hne

/-- Without a range, each variable is shown as a whole. -/
theorem variableTexts_none_eq (t : Text) : t.variableTexts none =
    .ofList (t.spans.filterMap fun s => (t.slice? s.range).map (s.name, ·)) := by
  rw [variableTexts, Option.getD_none]
  congr 1
  apply List.filterMap_congr
  intro s hs
  obtain ⟨hclip, hopen⟩ := inter_extent_of_mem_spans hs
  simp [hclip, hopen]

/-- Over the extent of the text, spans are edited as a whole. -/
theorem edits_extent (t : Text) : t.edits values t.extent = wholeEdits values t.spans := by
  unfold edits wholeEdits
  apply List.filterMap_congr
  intro s hs
  obtain ⟨hclip, hopen⟩ := inter_extent_of_mem_spans hs
  rw [hclip]
  cases values.get? s.name with
  | none => rfl
  | some value => simp [hopen]

/-- A whole edit replaces one of the spans. -/
theorem exists_range_of_mem_wholeEdits {spans : List Span} {e : Edit}
    (he : e ∈ wholeEdits values spans) : ∃ s ∈ spans, e.range = s.range := by
  obtain ⟨s, hs, heq⟩ := List.mem_filterMap.1 he
  obtain ⟨value, -, rfl⟩ := Option.map_eq_some_iff.1 heq
  exact ⟨s, hs, rfl⟩

/-- Edits of spans that have ended do nothing more. -/
theorem openAt_wholeEdits_append {base : Nat} {done spans : List Span}
    (h : ∀ s ∈ done, s.range.stop ≤ base) :
    openAt base (wholeEdits values (done ++ spans)) = openAt base (wholeEdits values spans) := by
  have hsplit : wholeEdits values (done ++ spans) =
      wholeEdits values done ++ wholeEdits values spans := List.filterMap_append
  rw [hsplit, openAt, List.filter_append]
  apply List.append_left_eq_self.2
  rw [List.filter_eq_nil_iff]
  intro e he
  obtain ⟨s, hs, hrange⟩ := exists_range_of_mem_wholeEdits he
  have hle := h s hs
  simp only [hrange, decide_eq_true_eq]
  omega

/-- Edits of spans that start from here on are all open. -/
theorem openAt_wholeEdits {base : Nat} {spans : List Span}
    (hne : ∀ s ∈ spans, s.range.start < s.range.stop) (h : ∀ s ∈ spans, base ≤ s.range.start) :
    openAt base (wholeEdits values spans) = wholeEdits values spans := by
  apply openAt_eq_self
  intro e he
  obtain ⟨s, hs, hrange⟩ := exists_range_of_mem_wholeEdits he
  have hlt := hne s hs
  have hle := h s hs
  rw [hrange]
  omega

/-- The edit of the first span is open until the span ends. -/
theorem openAt_wholeEdits_cons {base : Nat} {s : Span} {more : List Span} {value : String}
    (hvalue : values.get? s.name = some value)
    (hopen : openAt base (wholeEdits values more) = wholeEdits values more) :
    openAt base (wholeEdits values (s :: more)) =
      if base < s.range.stop then ⟨s.range, value⟩ :: wholeEdits values more
      else wholeEdits values more := by
  have hedit : wholeEdits values (s :: more) = ⟨s.range, value⟩ :: wholeEdits values more := by
    simp [wholeEdits, hvalue]
  rw [hedit, openAt, List.filter_cons, ← openAt, hopen]
  simp

/-! ## The cursor makes that pass -/

section Cursor

variable {base index : Nat} {r : Run} {rest : List Run} {current : Option Span}

/-- An edit that covers a run replaces it, and its value stands where the edit starts. -/
theorem editRun_of_covered {e : Edit} {more : List Edit} (hr : ¬ r.isEmpty)
    (hstart : e.range.start ≤ base) (hstop : base + r.length ≤ e.range.stop)
    (hahead : ∀ f ∈ more, base + r.length ≤ f.range.start) :
    editRun r base (base + r.length) base (e :: more) =
      (if base ≤ e.range.start then [r.withValue e.value] else [],
        if base + r.length < e.range.stop then e :: more else more) := by
  have hpos := Run.length_pos hr
  have hmeets : e.range.Meets ⟨base, base + r.length⟩ := by
    rw [ByteRange.meets_iff]
    simp only
    omega
  have hall : r.chars = [] ++ r.chars ++ [] := by simp
  have hlen : r.length = Chars.byteLength r.chars := rfl
  have hin : ByteRange.contains ⟨base, base + r.length⟩ e.range.start ↔ base ≤ e.range.start := by
    rw [ByteRange.contains_iff]
    simp only
    omega
  rw [editRun_of_meets hmeets hahead, Run.cut_eq_of_split hmeets hall (by simp; omega)
    (by simp; omega) (by simp; omega)]
  simp [hin, Run.remainder]

/-- The run takes a new value, or goes, if its span is edited. -/
theorem editRun_wholeEdits {s : Span} {more : List Span} {name : Option String}
    (hr : ¬ r.isEmpty) (hname : r.variableName? = some s.name) (hstart : s.range.start ≤ base)
    (hstop : base + r.length ≤ s.range.stop) (hcurrent : name = some s.name ↔ s.range.start < base)
    (hne : ∀ x ∈ more, x.range.start < x.range.stop)
    (hmore : ∀ x ∈ more, s.range.stop ≤ x.range.start) :
    editRun r base (base + r.length) base (openAt base (wholeEdits values (s :: more))) =
      (r.renewed values name, openAt (base + r.length) (wholeEdits values (s :: more))) := by
  have hpos := Run.length_pos hr
  have hlater : ∀ x ∈ more, base + r.length ≤ x.range.start := by
    intro x hx
    have hle := hmore x hx
    omega
  have hahead : ∀ e ∈ wholeEdits values more, base + r.length ≤ e.range.start := by
    intro e he
    obtain ⟨x, hx, hrange⟩ := exists_range_of_mem_wholeEdits he
    rw [hrange]
    exact hlater x hx
  have hopen : openAt base (wholeEdits values more) = wholeEdits values more :=
    openAt_wholeEdits hne fun x hx => Nat.le_of_add_right_le (hlater x hx)
  have hopen' : openAt (base + r.length) (wholeEdits values more) = wholeEdits values more :=
    openAt_wholeEdits hne hlater
  -- Without a value the span is no edit. With one, it is written by the run it starts in and cut
  -- out of the others.
  cases hvalue : values.get? s.name with
  | none =>
    have hskip : wholeEdits values (s :: more) = wholeEdits values more := by
      simp [wholeEdits, hvalue]
    rw [hskip, hopen, hopen', editRun_of_ahead base hahead, Run.between_self base hr]
    simp [Run.renewed, hname, hvalue]
  | some value =>
    have hlt : base < s.range.stop := by omega
    rw [openAt_wholeEdits_cons hvalue hopen, if_pos hlt, openAt_wholeEdits_cons hvalue hopen',
      editRun_of_covered hr hstart hstop hahead]
    have hwritten : (if base ≤ s.range.start then [r.withValue value] else []) =
        r.renewed values name := by
      by_cases hsame : name = some s.name
      · have hlt := hcurrent.1 hsame
        simp [Run.renewed, hname, hvalue, hsame]
        omega
      · have hle : base ≤ s.range.start := Nat.not_lt.1 fun hlt => hsame (hcurrent.2 hlt)
        simp [Run.renewed, hname, hvalue, Ne.symm hsame, hle]
    rw [hwritten]

/-- What the scan for spans does at a run that is not empty: it is done with some spans, and has the
span of the run open behind it. -/
theorem spansFrom_cons (index : Nat) (rest : List Run) (hr : ¬ r.isEmpty)
    (h : EndsAt base current) :
    ∃ done next, spansFrom index base current (r :: rest) =
        done ++ spansFrom (index + 1) (base + r.length) next rest ∧
      (∀ s ∈ done, s.range.stop ≤ base) ∧ EndsAt (base + r.length) next ∧
      next.map Span.name = r.variableName? ∧
      ∀ c, next = some c → c.range.start ≤ base ∧
        (current.map Span.name = some c.name ↔ c.range.start < base) := by
  have hpos := Run.length_pos hr
  have hdone : ∀ s ∈ current.toList, s.range.stop ≤ base := by
    intro s hs
    exact Nat.le_of_eq (h s (by simpa using hs)).2
  rw [spansFrom, if_neg hr]
  cases hname : r.variableName? with
  | none => exact ⟨current.toList, none, rfl, hdone, by simp [EndsAt], rfl, by simp⟩
  | some name =>
    -- a span that the run opens or makes longer ends behind it
    have hends : ∀ start first, start ≤ base → EndsAt (base + r.length)
        (some (⟨name, ⟨start, base + r.length⟩, first, index + 1⟩ : Span)) := by
      rintro start first hle _ ⟨⟩
      exact ⟨by simp only; omega, rfl⟩
    cases current with
    | none =>
      refine ⟨[], some ⟨name, ⟨base, base + r.length⟩, index, index + 1⟩, rfl, by simp,
        hends base index (Nat.le_refl _), rfl, ?_⟩
      rintro _ ⟨⟩
      simp
    | some c =>
      obtain ⟨hne, hstop⟩ := h c rfl
      by_cases hsame : c.name = name
      · refine ⟨[], some ⟨name, ⟨c.range.start, base + r.length⟩, c.firstRun, index + 1⟩, ?_,
          by simp, hends c.range.start c.firstRun (by omega), rfl, ?_⟩
        · subst hsame
          simp
        · rintro _ ⟨⟩
          simp [hsame]
          omega
      · refine ⟨[c], some ⟨name, ⟨base, base + r.length⟩, index, index + 1⟩, ?_,
          by simpa using hdone, hends base index (Nat.le_refl _), rfl, ?_⟩
        · simp [hsame]
        · rintro _ ⟨⟩
          simp [hsame]

/-- The cursor makes one pass over the runs, whatever span is open. -/
theorem editRuns_wholeEdits (values : OrderedMap String String) (index base : Nat)
    (current : Option Span) (runs : List Run) (h : EndsAt base current) :
    editRuns base (openAt base (wholeEdits values (spansFrom index base current runs))) runs =
      withValues values (current.map Span.name) runs := by
  induction runs generalizing index base current with
  | nil => rfl
  | cons r rest ih =>
    by_cases hr : r.isEmpty
    · have hskip : spansFrom index base current (r :: rest) =
          spansFrom (index + 1) base current rest := by rw [spansFrom, if_pos hr]
      rw [editRuns, withValues, if_pos hr, if_pos hr, hskip, ih (index + 1) base current h]
    · obtain ⟨done, next, hspans, hdone, hends, hnext, hopen⟩ :=
        spansFrom_cons index rest hr h
      have hscanned := spansFrom_scanned (index + 1) (base + r.length) next rest hends
      have hih := ih (index + 1) (base + r.length) next hends
      rw [hspans, openAt_wholeEdits_append hdone, editRuns, withValues, if_neg hr, if_neg hr,
        ← hnext, ← hih]
      cases next with
      | none =>
        -- a run of no variable stays, and all spans found later start behind it
        have hfresh := hscanned.fresh rfl
        have hahead : ∀ e ∈ wholeEdits values (spansFrom (index + 1) (base + r.length) none rest),
            base + r.length ≤ e.range.start := by
          intro e he
          obtain ⟨x, hx, hrange⟩ := exists_range_of_mem_wholeEdits he
          rw [hrange]
          exact hfresh x hx
        rw [openAt_wholeEdits hscanned.nonempty
            fun s hs => Nat.le_of_add_right_le (hfresh s hs),
          openAt_wholeEdits hscanned.nonempty hfresh, editRun_of_ahead base hahead,
          Run.between_self base hr]
        simp [Run.renewed, ← hnext]
      | some c =>
        obtain ⟨hle, hcurrent⟩ := hopen c rfl
        obtain ⟨s, more, hfound, hsame, hstart, hstop⟩ := hscanned.continued c rfl
        have hsorted := hscanned.sorted
        have hne := hscanned.nonempty
        rw [hfound] at hsorted hne ⊢
        rw [editRun_wholeEdits hr (by rw [← hnext, hsame]; rfl) (by omega) hstop
          (by rw [hsame, hstart]; exact hcurrent)
          (fun x hx => hne x (List.mem_cons_of_mem _ hx))
          (fun x hx => ((List.pairwise_cons.1 hsorted).1 x hx).1)]

end Cursor

/-- An update without a range is one pass over the runs. -/
theorem updated_none_eq (t : Text) (values : OrderedMap String String) :
    t.updated values none = ⟨withValues values none t.runs⟩ := by
  have hpass := editRuns_wholeEdits values 0 0 none t.runs (by simp [EndsAt])
  have hopen : openAt 0 (wholeEdits values t.spans) = wholeEdits values t.spans :=
    openAt_wholeEdits (spans_scanned t).nonempty fun s _ => Nat.zero_le _
  rw [← spans, hopen] at hpass
  rw [updated, Option.getD_none, edits_extent, hpass]
  rfl

/-! ## Composition -/

section Composition

variable {first second : OrderedMap String String}

/-- What the first pass leaves of a run comes out of the second as out of one pass with the values
of both. The stretch does not go away in between, as its new value has characters. -/
theorem withValues_renewed_append (h : ∀ name value, first.get? name = some value → value ≠ "")
    {r : Run} (hr : ¬ r.isEmpty) (current : Option String) (rest : List Run) :
    withValues second current (r.renewed first current ++ rest) =
      r.renewed (first.override second) current ++ withValues second r.variableName? rest := by
  cases hname : r.variableName? with
  | none => simp [Run.renewed, hname, withValues, hr]
  | some name =>
    cases hvalue : first.get? name with
    | none =>
      cases hlater : second.get? name <;>
        simp [Run.renewed, hname, hvalue, hlater, withValues, hr]
    | some value =>
      have hkept : (r.withValue value).isEmpty = false := by simp [h name value hvalue]
      by_cases hsame : current = some name
      · -- the run goes with the first pass, and its stretch goes on
        cases hlater : second.get? name <;> simp [Run.renewed, hname, hvalue, hlater, hsame]
      · cases hlater : second.get? name <;>
          simp [Run.renewed, hname, hvalue, hlater, Ne.symm hsame, withValues, hkept]

/-- One pass after the other is one pass with the values of both, those of the second over those of
the first. -/
theorem withValues_withValues (h : ∀ name value, first.get? name = some value → value ≠ "")
    (current : Option String) (runs : List Run) :
    withValues second current (withValues first current runs) =
      withValues (first.override second) current runs := by
  induction runs generalizing current with
  | nil => rfl
  | cons r rest ih =>
    by_cases hr : r.isEmpty
    · simp only [withValues, hr, if_true, ih]
    · have hstep : ∀ values, withValues values current (r :: rest) =
          r.renewed values current ++ withValues values r.variableName? rest := by
        intro values
        rw [withValues, if_neg hr]
      rw [hstep, hstep, withValues_renewed_append h hr, ih]

/-- How an update with the values `first` is followed by others. -/
structure Composes (t : Text) (first : OrderedMap String String) : Prop where
  /-- Two updates are one. -/
  once : ∀ second, (t.updated first none).updated second none =
    t.updated (first.override second) none
  /-- A second update with the same values changes nothing. -/
  again : (t.updated first none).updated first none = t.updated first none
  /-- Of two values for one variable, the last stays. -/
  last : ∀ second : OrderedMap String String,
    (∀ name, first.contains name → second.contains name) →
    (t.updated first none).updated second none = t.updated second none
  /-- Updates of different variables may be exchanged. -/
  comm : ∀ second : OrderedMap String String,
    (∀ name value, second.get? name = some value → value ≠ "") →
    (∀ name, first.contains name → ¬ second.contains name) →
    (t.updated first none).updated second none = (t.updated second none).updated first none

/-- Updates compose as maps of values do, if no variable goes away. -/
theorem updated_composes (t : Text) (first : OrderedMap String String)
    (h : ∀ name value, first.get? name = some value → value ≠ "") : t.Composes first := by
  have honce : ∀ {first second : OrderedMap String String},
      (∀ name value, first.get? name = some value → value ≠ "") →
      (t.updated first none).updated second none = t.updated (first.override second) none := by
    intro first second h
    rw [updated_none_eq, updated_none_eq, updated_none_eq, withValues_withValues h]
  refine ⟨fun second => honce h, ?_, ?_, ?_⟩
  · -- an update with the same values again has nothing new
    have hsame : first.override first = first := by
      apply OrderedMap.ext_get?
      intro name
      simp
    rw [honce h, hsame]
  · intro second hsub
    have hover : first.override second = second := by
      apply OrderedMap.ext_get?
      intro name
      have hname := hsub name
      unfold OrderedMap.contains at hname
      cases hfirst : first.get? name <;> cases hsecond : second.get? name <;>
        simp_all
    rw [honce h, hover]
  · intro second h' hdisjoint
    have hcomm : first.override second = second.override first := by
      apply OrderedMap.ext_get?
      intro name
      have hname := hdisjoint name
      unfold OrderedMap.contains at hname
      cases hfirst : first.get? name <;> cases hsecond : second.get? name <;>
        simp_all
    rw [honce h, honce h', hcomm]

/-- A letter takes a new name, and then whatever else is new. -/
theorem letter_composes :
    (∀ name value, (OrderedMap.ofList [("name", "Al")]).get? name = some value → value ≠ "") ∧
      letter.Composes (.ofList [("name", "Al")]) := by
  have hvalues : ∀ name value, (OrderedMap.ofList [("name", "Al")]).get? name = some value →
      value ≠ "" := by
    intro name value hvalue
    simp only [OrderedMap.ofList, OrderedMap.insertMany, List.foldl, OrderedMap.get?_insert,
      OrderedMap.get?_empty] at hvalue
    split at hvalue
    · rcases Option.some.inj hvalue with rfl
      decide
    · cases hvalue
  exact ⟨hvalues, updated_composes letter _ hvalues⟩

end Composition

end Text

end StyledText
