import StyledText.Proofs.Text.Locate
import StyledText.Text.Variable.Span
import Mathlib.Data.List.Pairwise
import Mathlib.Tactic.ByContra

/-!
# Stretches of variables

What the scan for spans finds, said byte by byte and without the scan.

* A byte has the name of the variable that its run belongs to (`nameAt?`).
* A stretch is a longest range of bytes of one name (`IsStretch`).
* The spans of a text are its stretches (`mem_spans_iff_isStretch`), from left to right
  (`spans_sorted`).
* A run with a byte in a stretch lies within it (`IsStretch.covers_of_mem_ranges`).
-/

namespace StyledText.Text

open Variable

/-! ## Names of bytes -/

/-- The name of the variable that the byte at `offset` belongs to. -/
def nameAt? (t : Text) (offset : Nat) : Option String :=
  (t.runAt? offset).bind Run.variableName?

/-- The name at a byte, read off a list of runs that starts at `base`. -/
def nameFrom? (base : Nat) (runs : List Run) (offset : Nat) : Option String :=
  ((locate base runs).find? fun e => e.1.contains offset).bind (·.2.variableName?)

theorem nameFrom?_zero (t : Text) (offset : Nat) :
    nameFrom? 0 t.runs offset = t.nameAt? offset := by
  unfold nameFrom? nameAt? runAt? ranges
  rw [Option.bind_map]
  rfl

/-- An offset is in the first run or behind it. -/
theorem nameFrom?_cons (base : Nat) (r : Run) (rest : List Run) (offset : Nat) :
    nameFrom? base (r :: rest) offset =
      if base ≤ offset ∧ offset < base + r.length then r.variableName?
      else nameFrom? (base + r.length) rest offset := by
  unfold nameFrom?
  rw [locate, List.find?_cons]
  by_cases h : base ≤ offset ∧ offset < base + r.length
  · simp [ByteRange.contains, h]
  · have hout : ByteRange.contains ⟨base, base + r.length⟩ offset = false := by
      simp only [ByteRange.contains, Bool.and_eq_false_iff, decide_eq_false_iff_not]
      omega
    simp [hout, h]

/-- All bytes of a run have the name of the run. -/
theorem nameFrom?_of_mem_locate {base offset : Nat} {runs : List Run} {range : ByteRange} {r : Run}
    (hmem : (range, r) ∈ locate base runs) (hstart : range.start ≤ offset)
    (hstop : offset < range.stop) : nameFrom? base runs offset = r.variableName? := by
  induction runs generalizing base with
  | nil => simp [locate] at hmem
  | cons s rest ih =>
    rw [nameFrom?_cons]
    rcases List.mem_cons.1 hmem with heq | hmem
    · rcases Prod.mk.inj heq with ⟨rfl, rfl⟩
      rw [if_pos ⟨hstart, hstop⟩]
    · have hle := start_of_mem_locate hmem
      rw [if_neg (by omega)]
      exact ih hmem

/-- In the range of a run, it is the run that has the name. -/
theorem nameAt?_of_mem_ranges {t : Text} {offset : Nat} {place : ByteRange} {r : Run}
    (hmem : (place, r) ∈ t.ranges) (hstart : place.start ≤ offset) (hstop : offset < place.stop) :
    t.nameAt? offset = r.variableName? := by
  rw [← nameFrom?_zero]
  exact nameFrom?_of_mem_locate hmem hstart hstop

/-- A byte with a name lies in a run of that name. -/
theorem exists_mem_ranges_of_nameAt? {t : Text} {name : String} {offset : Nat}
    (h : t.nameAt? offset = some name) : ∃ place r, (place, r) ∈ t.ranges ∧
      place.start ≤ offset ∧ offset < place.stop ∧ r.variableName? = some name := by
  rcases Option.bind_eq_some_iff.1 h with ⟨r, hr, hname⟩
  rcases Option.map_eq_some_iff.1 hr with ⟨⟨place, _⟩, hfind, rfl⟩
  have hin := List.find?_some hfind
  simp only [ByteRange.contains, Bool.and_eq_true, decide_eq_true_eq] at hin
  exact ⟨place, _, List.mem_of_find?_eq_some hfind, hin.1, hin.2, hname⟩

/-- Behind the text there is no name. -/
theorem lt_length_of_nameAt? {t : Text} {name : String} {offset : Nat}
    (h : t.nameAt? offset = some name) : offset < t.length := by
  obtain ⟨place, r, hmem, -, hlt, -⟩ := exists_mem_ranges_of_nameAt? h
  exact Nat.lt_of_lt_of_le hlt (stop_le_length_of_mem_ranges hmem)

/-! ## The scan -/

/-- Some span of the name holds the byte. -/
def Holds (spans : List Span) (name : String) (offset : Nat) : Prop :=
  ∃ s ∈ spans, s.name = name ∧ s.range.start ≤ offset ∧ offset < s.range.stop

/-- One span ends before the other starts, and if they touch, they have different names. -/
def Precedes (a b : Span) : Prop :=
  a.range.stop ≤ b.range.start ∧ (a.range.stop = b.range.start → a.name ≠ b.name)

/-- What is true of the spans found in `runs` from `base` on, after the span `current`. -/
structure Scanned (base : Nat) (runs : List Run) (current : Option Span) (spans : List Span) :
    Prop where
  nonempty : ∀ s ∈ spans, s.range.start < s.range.stop
  sorted : spans.Pairwise Precedes
  /-- Without an open span, all spans start here. -/
  fresh : current = none → ∀ s ∈ spans, base ≤ s.range.start
  /-- An open span is the first one found, as far as it goes on. -/
  continued : ∀ c, current = some c → ∃ s rest, spans = s :: rest ∧ s.name = c.name ∧
    s.range.start = c.range.start ∧ base ≤ s.range.stop
  /-- The spans hold exactly the bytes with a name. -/
  names : ∀ name offset, base ≤ offset →
    (nameFrom? base runs offset = some name ↔ Holds spans name offset)

/-- An open span ends where the scan stands. -/
def EndsAt (base : Nat) (current : Option Span) : Prop :=
  ∀ c, current = some c → c.range.start < c.range.stop ∧ c.range.stop = base

namespace Scanned

variable {base : Nat} {r : Run} {rest runs : List Run} {current : Option Span} {spans : List Span}

/-- At the end of the text the open span is the last. -/
theorem done (h : EndsAt base current) : Scanned base [] current current.toList := by
  cases current with
  | none =>
    refine ⟨by simp, .nil, by simp, by simp, ?_⟩
    intro name offset _
    simp [nameFrom?, locate, Holds]
  | some c =>
    rcases h c rfl with ⟨hne, hstop⟩
    refine ⟨by simpa using hne, by simp, by simp, ?_, ?_⟩
    · rintro _ ⟨⟩
      exact ⟨c, [], rfl, rfl, rfl, by omega⟩
    · intro name offset hle
      simp only [nameFrom?, locate, List.find?_nil, Option.bind_none, reduceCtorEq, false_iff]
      rintro ⟨s, hs, -, -, hlt⟩
      rw [List.mem_singleton.1 hs] at hlt
      omega

/-- An empty run is passed over. -/
theorem skip (hr : r.isEmpty) (h : Scanned base rest current spans) :
    Scanned base (r :: rest) current spans := by
  refine ⟨h.nonempty, h.sorted, h.fresh, h.continued, ?_⟩
  intro name offset hle
  rw [nameFrom?_cons, Run.length_of_isEmpty hr, if_neg (by omega)]
  exact h.names name offset hle

/-- A run of no variable leaves a gap. -/
theorem gap (hr : ¬ r.isEmpty) (hname : r.variableName? = none)
    (h : Scanned (base + r.length) rest none spans) : Scanned base (r :: rest) none spans := by
  have hpos := Run.length_pos hr
  refine ⟨h.nonempty, h.sorted, ?_, by simp, ?_⟩
  · intro _ s hs
    have hle := h.fresh rfl s hs
    omega
  · intro name offset hle
    rw [nameFrom?_cons]
    split
    · next hin =>
      simp only [hname, reduceCtorEq, false_iff]
      rintro ⟨s, hs, -, hstart, -⟩
      have hle := h.fresh rfl s hs
      omega
    · next hout => exact h.names name offset (by omega)

/-- A span that ends here comes before what is found from here on, if no byte of its own name
follows. -/
theorem after {c : Span} (h : Scanned base runs none spans) (hc : c.range.start < c.range.stop)
    (hstop : c.range.stop = base) (hname : nameFrom? base runs base ≠ some c.name) :
    Scanned base runs (some c) (c :: spans) := by
  refine ⟨?_, ?_, by simp, ?_, ?_⟩
  · intro s hs
    rcases List.mem_cons.1 hs with rfl | hs
    · exact hc
    · exact h.nonempty s hs
  · refine List.pairwise_cons.2 ⟨?_, h.sorted⟩
    intro s hs
    have hle := h.fresh rfl s hs
    refine ⟨by omega, ?_⟩
    intro htouch hsame
    have hlt := h.nonempty s hs
    exact hname ((h.names c.name base (by omega)).2 ⟨s, hs, hsame.symm, by omega, by omega⟩)
  · rintro _ ⟨⟩
    exact ⟨c, spans, rfl, rfl, rfl, by omega⟩
  · intro name offset hle
    rw [h.names name offset hle]
    constructor
    · rintro ⟨s, hs, hrest⟩
      exact ⟨s, List.mem_cons_of_mem _ hs, hrest⟩
    · rintro ⟨s, hs, hsame, hstart, hlt⟩
      rcases List.mem_cons.1 hs with rfl | hs
      · omega
      · exact ⟨s, hs, hsame, hstart, hlt⟩

/-- The bytes of a run that was just written into the open span `c`. -/
theorem names_cons {c : Span} (hname : r.variableName? = some c.name)
    (hstart : c.range.start ≤ base) (h : Scanned (base + r.length) rest (some c) spans)
    (name : String) (offset : Nat) (hle : base ≤ offset) :
    nameFrom? base (r :: rest) offset = some name ↔ Holds spans name offset := by
  -- The open span goes on over the first run, so it still is the first of all.
  rcases h.continued c rfl with ⟨s, more, rfl, hsame, hs, hlen⟩
  rw [nameFrom?_cons]
  split
  · next hin =>
    rw [hname, Option.some.injEq]
    constructor
    · rintro rfl
      exact ⟨s, List.mem_cons_self, hsame, by omega, by omega⟩
    · rintro ⟨s', hs', hsame', hstart', -⟩
      rcases List.mem_cons.1 hs' with rfl | hs'
      · rw [← hsame, hsame']
      · have hsorted := ((List.pairwise_cons.1 h.sorted).1 s' hs').1
        omega
  · next hout => exact h.names name offset (by omega)

/-- A run of a variable opens a span. -/
theorem opened {c : Span} (hname : r.variableName? = some c.name) (hstart : c.range.start = base)
    (h : Scanned (base + r.length) rest (some c) spans) : Scanned base (r :: rest) none spans := by
  refine ⟨h.nonempty, h.sorted, ?_, by simp, h.names_cons hname (by omega)⟩
  intro _ s hs
  rcases h.continued c rfl with ⟨first, more, rfl, -, hfirst, hlen⟩
  rcases List.mem_cons.1 hs with rfl | hs
  · omega
  · have hsorted := ((List.pairwise_cons.1 h.sorted).1 s hs).1
    omega

/-- A run of the same variable makes the open span longer. -/
theorem grown {c longer : Span} (hname : r.variableName? = some c.name)
    (hle : c.range.start ≤ base) (hsame : longer.name = c.name)
    (hstart : longer.range.start = c.range.start)
    (h : Scanned (base + r.length) rest (some longer) spans) :
    Scanned base (r :: rest) (some c) spans := by
  refine ⟨h.nonempty, h.sorted, by simp, ?_, h.names_cons (by rw [hname, hsame]) (by omega)⟩
  rintro _ ⟨⟩
  rcases h.continued longer rfl with ⟨s, more, heq, hs, hfirst, hlen⟩
  exact ⟨s, more, heq, by rw [hs, hsame], by omega, by omega⟩

end Scanned

/-- What the scan finds, whatever span is open. -/
theorem spansFrom_scanned (index base : Nat) (current : Option Span) (runs : List Run)
    (h : EndsAt base current) :
    Scanned base runs current (spansFrom index base current runs) := by
  -- The scan carries the open span along, so the induction is over all of them.
  induction runs generalizing index base current with
  | nil => exact .done h
  | cons r rest ih =>
    unfold spansFrom
    split
    · next hr => exact (ih (index + 1) base current h).skip hr
    · next hr =>
      have hpos := Run.length_pos hr
      have hends : ∀ (start : Nat) (name : String) (first : Nat), start ≤ base →
          EndsAt (base + r.length)
            (some ⟨name, ⟨start, base + r.length⟩, first, index + 1⟩) := by
        rintro start name first hle _ ⟨⟩
        exact ⟨by simp only; omega, rfl⟩
      cases hname : r.variableName? with
      | none =>
        have hgap := (ih (index + 1) (base + r.length) none (by simp [EndsAt])).gap hr hname
        cases current with
        | none => exact hgap
        | some c =>
          rcases h c rfl with ⟨hne, hstop⟩
          refine hgap.after hne hstop ?_
          rw [nameFrom?_cons, if_pos ⟨by omega, by omega⟩, hname]
          simp
      | some name =>
        -- Another name ends the open span and starts one of its own.
        have hopen : Scanned base (r :: rest) none _ :=
          (ih (index + 1) _ _ (hends base name index (Nat.le_refl _))).opened hname rfl
        cases current with
        | none => exact hopen
        | some c =>
          rcases h c rfl with ⟨hne, hstop⟩
          dsimp only
          split
          · next heq =>
            rw [← heq] at hname
            have hlonger := ih (index + 1) _ _ (hends c.range.start c.name c.firstRun (by omega))
            refine hlonger.grown hname (by omega) ?_ ?_ <;> rfl
          · next hdiff =>
            refine hopen.after hne hstop ?_
            rw [nameFrom?_cons, if_pos ⟨by omega, by omega⟩, hname]
            simpa using Ne.symm hdiff

/-- A text is scanned from its start. -/
theorem spans_scanned (t : Text) : Scanned 0 t.runs none t.spans :=
  spansFrom_scanned 0 0 none t.runs (by simp [EndsAt])

/-- The spans hold exactly the bytes with a name. -/
theorem nameAt?_eq_some_iff {t : Text} {name : String} {offset : Nat} :
    t.nameAt? offset = some name ↔ Holds t.spans name offset := by
  rw [← nameFrom?_zero]
  exact (spans_scanned t).names name offset (Nat.zero_le _)

theorem spans_sorted (t : Text) : t.spans.Pairwise Precedes := (spans_scanned t).sorted

/-- One of two spans comes first. -/
theorem eq_or_precedes_of_mem_spans {t : Text} {a b : Span} (ha : a ∈ t.spans)
    (hb : b ∈ t.spans) : a = b ∨ Precedes a b ∨ Precedes b a := by
  have hsorted := t.spans_sorted
  refine List.Pairwise.forall_of_forall_of_flip (R := fun a b => a = b ∨ Precedes a b ∨
    Precedes b a) ?_ ?_ ?_ ha hb
  · exact fun _ _ => .inl rfl
  · exact hsorted.imp fun h => .inr (.inl h)
  · exact hsorted.imp fun h => .inr (.inr h)

/-! ## Stretches -/

/-- A longest range of bytes that belong to one variable. -/
structure IsStretch (t : Text) (name : String) (range : ByteRange) : Prop where
  nonempty : range.start < range.stop
  named : ∀ offset, range.start ≤ offset → offset < range.stop → t.nameAt? offset = some name
  left : ∀ offset, offset + 1 = range.start → t.nameAt? offset ≠ some name
  right : t.nameAt? range.stop ≠ some name

namespace IsStretch

variable {t : Text} {name other : String} {range range' place : ByteRange} {r : Run}

/-- A stretch goes at least as far as one that shares a byte with it. -/
theorem covers_of_meets (h : t.IsStretch name range) (h' : t.IsStretch other range') {offset : Nat}
    (hin : range.contains offset) (hin' : range'.contains offset) :
    name = other ∧ range.start ≤ range'.start ∧ range'.stop ≤ range.stop := by
  simp only [ByteRange.contains, Bool.and_eq_true, decide_eq_true_eq] at hin hin'
  have hsame := (h.named offset hin.1 hin.2).symm.trans (h'.named offset hin'.1 hin'.2)
  rcases Option.some.inj hsame with rfl
  -- A stretch that ended inside the other one could be made longer.
  refine ⟨rfl, ?_, ?_⟩
  · by_contra hlt
    exact h.left (range.start - 1) (by omega) (h'.named _ (by omega) (by omega))
  · by_contra hlt
    exact h.right (h'.named _ (by omega) (by omega))

/-- Stretches that share a byte are the same. -/
theorem eq_of_meets (h : t.IsStretch name range) (h' : t.IsStretch other range') (offset : Nat)
    (hin : range.contains offset) (hin' : range'.contains offset) :
    name = other ∧ range = range' := by
  rcases h.covers_of_meets h' hin hin' with ⟨hsame, hstart, hstop⟩
  rcases h'.covers_of_meets h hin' hin with ⟨-, hstart', hstop'⟩
  refine ⟨hsame, ?_⟩
  rw [ByteRange.mk.injEq]
  omega

/-- A run with a byte in a stretch lies within it. -/
theorem covers_of_mem_ranges (h : t.IsStretch name range) (hmem : (place, r) ∈ t.ranges)
    (hleft : range.start < place.stop) (hright : place.start < range.stop)
    (hne : place.start < place.stop) : range.start ≤ place.start ∧ place.stop ≤ range.stop := by
  have hrun : ∀ offset, place.start ≤ offset → offset < place.stop →
      t.nameAt? offset = r.variableName? := fun offset => nameAt?_of_mem_ranges hmem
  have hpos := h.nonempty
  -- The byte that both have gives the run the name of the stretch.
  have hname : r.variableName? = some name := by
    rw [← hrun (max range.start place.start) (by omega) (by omega)]
    exact h.named _ (by omega) (by omega)
  constructor
  · by_contra hlt
    exact h.left (range.start - 1) (by omega) ((hrun _ (by omega) (by omega)).trans hname)
  · by_contra hlt
    exact h.right ((hrun _ (by omega) (by omega)).trans hname)

end IsStretch

/-- Every span is a stretch. -/
theorem isStretch_of_mem_spans {t : Text} {s : Span} (hs : s ∈ t.spans) :
    t.IsStretch s.name s.range := by
  have hne := (spans_scanned t).nonempty s hs
  refine ⟨hne, ?_, ?_, ?_⟩
  · intro offset hstart hstop
    exact nameAt?_eq_some_iff.2 ⟨s, hs, rfl, hstart, hstop⟩
  · -- another span with the same name would touch this one
    intro offset hoffset hname
    rcases nameAt?_eq_some_iff.1 hname with ⟨s', hs', hsame, hstart, hstop⟩
    rcases eq_or_precedes_of_mem_spans hs hs' with rfl | ⟨hle, -⟩ | ⟨hle, htouch⟩
    · omega
    · omega
    · exact htouch (by omega) hsame
  · intro hname
    rcases nameAt?_eq_some_iff.1 hname with ⟨s', hs', hsame, hstart, hstop⟩
    rcases eq_or_precedes_of_mem_spans hs hs' with rfl | ⟨hle, htouch⟩ | ⟨hle, -⟩
    · omega
    · exact htouch (by omega) hsame.symm
    · omega

/-- The scan finds all stretches and nothing else. -/
theorem mem_spans_iff_isStretch {t : Text} {name : String} {range : ByteRange} :
    (∃ s ∈ t.spans, s.name = name ∧ s.range = range) ↔ t.IsStretch name range := by
  constructor
  · rintro ⟨s, hs, rfl, rfl⟩
    exact isStretch_of_mem_spans hs
  · intro h
    have hne := h.nonempty
    obtain ⟨s, hs, hsame, hstart, hstop⟩ :=
      nameAt?_eq_some_iff.1 (h.named range.start (Nat.le_refl _) hne)
    have hmeets := (isStretch_of_mem_spans hs).eq_of_meets h range.start
      (by simp [ByteRange.contains, hstart, hstop]) (by simp [ByteRange.contains, hne])
    exact ⟨s, hs, hmeets⟩

end StyledText.Text
