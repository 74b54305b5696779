import StyledText.Proofs.Variable.Clip
import Mathlib.Data.List.Sort

/-!
# Spans and their runs

A span says which bytes its variable takes, and which runs (`TakesRuns`): it starts and ends with a
run of the variable, and what stands between shows the variable too, or nothing.

* `takesRuns_of_mem_spans`: the scan keeps this up while it passes over the runs.
* `TakesRuns.eq_of_range`: the bytes of a span decide on its runs.
* `spans_listVariables` is the result, and says that no other list of spans will do.
-/

namespace StyledText

namespace Run

theorem lengthAll_append (l m : List Run) : lengthAll (l ++ m) = lengthAll l + lengthAll m := by
  induction l with
  | nil => rw [List.nil_append, lengthAll, Nat.zero_add]
  | cons r rest ih => rw [List.cons_append, lengthAll, lengthAll, ih, Nat.add_assoc]

/-- More runs are longer, or as long. -/
theorem lengthAll_take_le (runs : List Run) {i j : Nat} (h : i ≤ j) :
    lengthAll (runs.take i) ≤ lengthAll (runs.take j) := by
  obtain ⟨k, rfl⟩ := Nat.exists_eq_add_of_le h
  rw [List.take_add, lengthAll_append]
  exact Nat.le_add_right _ _

/-- One more run adds its length. -/
theorem lengthAll_take_succ {runs : List Run} {i : Nat} {r : Run} (h : runs[i]? = some r) :
    lengthAll (runs.take (i + 1)) = lengthAll (runs.take i) + r.length := by
  rw [List.take_add_one, h, lengthAll_append]
  rfl

end Run

namespace Text

open Variable

/-! ## The runs of a span -/

/-- A run with characters stands at an index and belongs to the variable. -/
def ShowsAt (runs : List Run) (name : String) (i : Nat) : Prop :=
  ∃ r, runs[i]? = some r ∧ ¬ r.isEmpty ∧ r.variableName? = some name

/-- An empty run stands at an index. -/
def EmptyAt (runs : List Run) (i : Nat) : Prop := ∃ r, runs[i]? = some r ∧ r.isEmpty

/-- A span takes the bytes of the runs from its first one up to its end. The first and the last of
them show the variable, and the others show it or are empty. -/
structure TakesRuns (runs : List Run) (s : Span) : Prop where
  start : Run.lengthAll (runs.take s.firstRun) = s.range.start
  stop : Run.lengthAll (runs.take s.endRun) = s.range.stop
  firstRun_lt : s.firstRun < s.endRun
  first : ShowsAt runs s.name s.firstRun
  last : ShowsAt runs s.name (s.endRun - 1)
  between : ∀ i, s.firstRun ≤ i → i < s.endRun → ShowsAt runs s.name i ∨ EmptyAt runs i

variable {runs : List Run} {r : Run} {s s' : Span} {name : String} {i j : Nat}

/-- Behind a run that shows something there are more bytes. -/
theorem ShowsAt.lengthAll_lt (h : ShowsAt runs name i) (hlt : i < j) :
    Run.lengthAll (runs.take i) < Run.lengthAll (runs.take j) := by
  obtain ⟨r, hr, hne, -⟩ := h
  have hpos := Run.length_pos hne
  have hle := Run.lengthAll_take_le runs (Nat.succ_le_of_lt hlt)
  rw [Run.lengthAll_take_succ hr] at hle
  omega

namespace TakesRuns

/-- A span that starts where another does starts with no later run. -/
theorem firstRun_le (h : TakesRuns runs s) (h' : TakesRuns runs s')
    (hstart : s.range.start = s'.range.start) : s.firstRun ≤ s'.firstRun := by
  -- else the first run of `s'` would have its bytes before the span
  by_contra hlt
  have hbytes := h'.first.lengthAll_lt (Nat.lt_of_not_le hlt)
  rw [h.start, h'.start] at hbytes
  omega

/-- A span that stops where another does stops with no later run. -/
theorem endRun_le (h : TakesRuns runs s) (h' : TakesRuns runs s')
    (hstop : s.range.stop = s'.range.stop) : s.endRun ≤ s'.endRun := by
  by_contra hlt
  have hbytes := h.last.lengthAll_lt (j := s.endRun) (by omega)
  have hle := Run.lengthAll_take_le runs (i := s'.endRun) (j := s.endRun - 1) (by omega)
  rw [h.stop] at hbytes
  rw [h'.stop] at hle
  omega

/-- The bytes of a span decide on its runs. -/
theorem eq_of_range (h : TakesRuns runs s) (h' : TakesRuns runs s') (hname : s.name = s'.name)
    (hrange : s.range = s'.range) : s = s' := by
  have hfirst : s.firstRun = s'.firstRun :=
    Nat.le_antisymm (h.firstRun_le h' (by rw [hrange])) (h'.firstRun_le h (by rw [hrange]))
  have hend : s.endRun = s'.endRun :=
    Nat.le_antisymm (h.endRun_le h' (by rw [hrange])) (h'.endRun_le h (by rw [hrange]))
  cases s
  cases s'
  simp_all

end TakesRuns

/-! ## The scan -/

/-- A span is still open where the scan stands: since its end, there have been empty runs only. -/
structure Reaches (runs : List Run) (index : Nat) (s : Span) : Prop where
  takesRuns : TakesRuns runs s
  endRun_le : s.endRun ≤ index
  empty : ∀ i, s.endRun ≤ i → i < index → EmptyAt runs i

namespace Reaches

/-- An empty run is passed over. -/
theorem skip (h : Reaches runs i s) (hr : runs[i]? = some r) (hempty : r.isEmpty) :
    Reaches runs (i + 1) s := by
  refine ⟨h.takesRuns, Nat.le_succ_of_le h.endRun_le, ?_⟩
  intro k hle hlt
  rcases Nat.lt_succ_iff_lt_or_eq.1 hlt with hlt | rfl
  · exact h.empty k hle hlt
  · exact ⟨r, hr, hempty⟩

/-- A run of a variable opens a span. -/
theorem opened (hr : runs[i]? = some r) (hne : ¬ r.isEmpty) (hname : r.variableName? = some name) :
    Reaches runs (i + 1) ⟨name, ⟨Run.lengthAll (runs.take i),
      Run.lengthAll (runs.take i) + r.length⟩, i, i + 1⟩ := by
  have hshows : ShowsAt runs name i := ⟨r, hr, hne, hname⟩
  refine ⟨⟨rfl, Run.lengthAll_take_succ hr, Nat.lt_succ_self i, hshows, hshows, ?_⟩,
    Nat.le_refl _, ?_⟩
  · intro k (hle : i ≤ k) (hlt : k < i + 1)
    obtain rfl : i = k := by omega
    exact .inl hshows
  · intro k (hle : i + 1 ≤ k) hlt
    omega

/-- A run of the same variable makes the span longer, with the empty runs since its end. -/
theorem grown (h : Reaches runs i s) (hr : runs[i]? = some r) (hne : ¬ r.isEmpty)
    (hname : r.variableName? = some s.name) :
    Reaches runs (i + 1) { s with
      range := ⟨s.range.start, Run.lengthAll (runs.take i) + r.length⟩, endRun := i + 1 } := by
  have hshows : ShowsAt runs s.name i := ⟨r, hr, hne, hname⟩
  have hlt := h.takesRuns.firstRun_lt
  have hle := h.endRun_le
  refine ⟨⟨h.takesRuns.start, Run.lengthAll_take_succ hr, by simp only; omega, h.takesRuns.first,
    hshows, ?_⟩, Nat.le_refl _, ?_⟩
  · intro k (hfirst : s.firstRun ≤ k) (hend : k < i + 1)
    -- Between the old end and the new run there are empty runs only.
    rcases Nat.lt_or_ge k s.endRun with hin | hout
    · exact h.takesRuns.between k hfirst hin
    · rcases Nat.lt_succ_iff_lt_or_eq.1 hend with hbefore | rfl
      · exact .inr (h.empty k hout hbefore)
      · exact .inl hshows
  · intro k (hstart : i + 1 ≤ k) hend
    omega

end Reaches

theorem takesRuns_of_mem_spansFrom {index : Nat} {current : Option Span} {rest : List Run}
    (hrest : runs.drop index = rest) (hcurrent : ∀ c, current = some c → Reaches runs index c)
    (hs : s ∈ spansFrom index (Run.lengthAll (runs.take index)) current rest) :
    TakesRuns runs s := by
  induction rest generalizing index current with
  | nil => exact (hcurrent s (Option.mem_toList.1 hs)).takesRuns
  | cons r rest ih =>
    have hr : runs[index]? = some r := by
      rw [← List.head?_drop, hrest]
      rfl
    have hnext : runs.drop (index + 1) = rest := by
      rw [← List.tail_drop, hrest]
      rfl
    have hbase := Run.lengthAll_take_succ hr
    unfold spansFrom at hs
    split at hs
    · next hempty =>
      have hsame : Run.lengthAll (runs.take (index + 1)) = Run.lengthAll (runs.take index) := by
        rw [hbase, Run.length_of_isEmpty hempty, Nat.add_zero]
      rw [← hsame] at hs
      exact ih hnext (fun c hc => (hcurrent c hc).skip hr hempty) hs
    · next hne =>
      rw [← hbase] at hs
      cases hname : r.variableName? with
      | none =>
        simp only [hname, List.mem_append] at hs
        rcases hs with hs | hs
        · exact (hcurrent s (Option.mem_toList.1 hs)).takesRuns
        · exact ih hnext (by simp) hs
      | some name =>
        -- the run is the first one of a span, unless it goes on with the one that is open
        have hopened := Reaches.opened hr hne hname
        rw [← hbase] at hopened
        cases current with
        | none =>
          simp only [hname] at hs
          exact ih hnext (by simpa using hopened) hs
        | some c =>
          have hopen := hcurrent c rfl
          simp only [hname] at hs
          split at hs
          · next hsame =>
            rw [← hsame] at hname
            have hgrown := hopen.grown hr hne hname
            rw [← hbase] at hgrown
            exact ih hnext (by simpa using hgrown) hs
          · rcases List.mem_cons.1 hs with rfl | hs
            · exact hopen.takesRuns
            · exact ih hnext (by simpa using hopened) hs

/-- Every span takes the runs of its range. -/
theorem takesRuns_of_mem_spans {t : Text} (hs : s ∈ t.spans) : TakesRuns t.runs s := by
  have hscan : s ∈ spansFrom 0 (Run.lengthAll (t.runs.take 0)) none t.runs := hs
  exact takesRuns_of_mem_spansFrom rfl (by simp) hscan

/-! ## The list of spans -/

/-- What a list of spans says about the variables of a text. -/
structure ListsVariables (t : Text) (spans : List Span) : Prop where
  nonempty : ∀ s ∈ spans, s.range.start < s.range.stop
  /-- The spans stand from left to right and share no byte. -/
  inOrder : spans.Pairwise fun a b => a.range.stop ≤ b.range.start
  /-- A byte lies in a span of a name if and only if the run that holds the byte has the name. -/
  named : ∀ name offset, (∃ s ∈ spans, s.name = name ∧ s.range.contains offset) ↔
    (t.runAt? offset).bind Run.variableName? = some name
  /-- Neighbours that touch have different names. -/
  apart : spans.IsChain fun a b => a.range.stop = b.range.start → a.name ≠ b.name
  /-- No span could be made longer. -/
  maximal : ∀ s ∈ spans, t.IsStretch s.name s.range
  takesRuns : ∀ s ∈ spans, TakesRuns t.runs s

namespace ListsVariables

variable {t : Text} {spans spans' : List Span}

/-- The names of bytes decide on the bytes of a span, and these on the span. -/
theorem mem_of_mem (h : t.ListsVariables spans) (h' : t.ListsVariables spans') (hs : s ∈ spans) :
    s ∈ spans' := by
  have hfirst : s.range.contains s.range.start :=
    ByteRange.contains_iff.2 ⟨Nat.le_refl _, h.nonempty s hs⟩
  obtain ⟨s', hs', hname, hin⟩ :=
    (h'.named s.name _).2 ((h.named s.name _).1 ⟨s, hs, rfl, hfirst⟩)
  obtain ⟨-, hrange⟩ := (h.maximal s hs).eq_of_meets (h'.maximal s' hs') _ hfirst hin
  rw [(h.takesRuns s hs).eq_of_range (h'.takesRuns s' hs') hname.symm hrange]
  exact hs'

/-- Spans start one after the other. -/
theorem sorted (h : t.ListsVariables spans) :
    spans.Pairwise fun a b => a.range.start < b.range.start :=
  h.inOrder.imp_of_mem fun ha _ hle => Nat.lt_of_lt_of_le (h.nonempty _ ha) hle

/-- A text has one list of variables. -/
theorem unique (h : t.ListsVariables spans) (h' : t.ListsVariables spans') : spans = spans' := by
  have hirrefl : Std.Irrefl fun a b : Span => a.range.start < b.range.start :=
    ⟨fun _ => Nat.lt_irrefl _⟩
  have hantisymm : Std.Antisymm fun a b : Span => a.range.start < b.range.start :=
    ⟨fun _ _ hlt hgt => absurd hlt (Nat.lt_asymm hgt)⟩
  exact h.sorted.eq_of_mem_iff h'.sorted fun _ => ⟨h.mem_of_mem h', h'.mem_of_mem h⟩

end ListsVariables

/-- The spans of a text list its variables, byte by byte and run by run, and they are the only spans
that do. -/
theorem spans_listVariables (t : Text) :
    t.ListsVariables t.spans ∧ ∀ spans, t.ListsVariables spans → spans = t.spans := by
  have hspans : t.ListsVariables t.spans := by
    refine ⟨t.spans_scanned.nonempty, t.spans_sorted.imp fun h => h.1, ?_,
      (t.spans_sorted.imp fun h => h.2).isChain, fun _ => isStretch_of_mem_spans,
      fun _ => takesRuns_of_mem_spans⟩
    intro name offset
    have hbyte : t.nameAt? offset = some name ↔ Holds t.spans name offset := nameAt?_eq_some_iff
    simp only [ByteRange.contains_iff]
    exact hbyte.symm
  exact ⟨hspans, fun _ h => h.unique hspans⟩

/-- A name is shown by two runs with an empty one between, which belongs to another variable. -/
example : (Text.mk [{ text := "Dr. ", attributes := .ofList [(.variableName, .text "name")] },
    { attributes := .ofList [(.variableName, .text "title")] },
    { text := "Who", attributes := .ofList [(.variableName, .text "name")] }, {}]).spans =
      [⟨"name", ⟨0, 7⟩, 0, 3⟩] := by
  decide

end Text

end StyledText
