import StyledText.Proofs.Variable.Names

/-!
# The nearest variable

Stepping from an offset finds the nearest byte of a variable in one direction, if the offset is no
place inside a character.

* `IsNearest`: the byte that is found, said by the names of the bytes alone.
* `Tells`: the run whose value is told, and the text that is told if it has none. Forward that is
  the run of the byte and the rest of its stretch, backward the first run of the stretch and what
  comes of it up to the byte.
* `nextSpan?_eq_none_iff`, `nextSpan?_isNearest`: the search looks at the stretch of that byte.
* `nextVariable?_finds_nearest` is the result.
-/

namespace StyledText

open Variable

namespace Variable.Direction

/-- The bytes to look at: from `offset` on, or before it. -/
def Sees (offset : Nat) : Direction → Nat → Prop
  | .forward, o => offset ≤ o
  | .backward, o => o < offset

/-- Of two bytes in one direction, the first is not farther than the second. -/
def Nearer : Direction → Nat → Nat → Prop
  | .forward, o, p => o ≤ p
  | .backward, o, p => p ≤ o

/-- Of two different offsets, one is not the nearer. -/
theorem Nearer.antisymm {direction : Direction} {o p : Nat} (h : direction.Nearer o p)
    (h' : direction.Nearer p o) : o = p := by
  cases direction with
  | forward => exact Nat.le_antisymm h h'
  | backward => exact Nat.le_antisymm h' h

end Variable.Direction

namespace Text

variable {t : Text} {offset o : Nat} {direction : Direction} {s : Span} {name : String}
  {whole clip part : ByteRange} {r : Run}

/-- The byte of a variable that is nearest in a direction. -/
structure IsNearest (t : Text) (offset : Nat) (direction : Direction) (o : Nat) : Prop where
  seen : direction.Sees offset o
  named : t.nameAt? o ≠ none
  nearest : ∀ p, direction.Sees offset p → t.nameAt? p ≠ none → direction.Nearer o p

/-- There is one nearest offset. -/
theorem IsNearest.unique {p : Nat} (h : t.IsNearest offset direction o)
    (h' : t.IsNearest offset direction p) : o = p :=
  (h.nearest p h'.seen h'.named).antisymm (h'.nearest o h.seen h.named)

/-- The part of a stretch that is looked at, if `o` is its byte nearest to the offset. -/
def nearPart (whole : ByteRange) (o : Nat) : Direction → ByteRange
  | .forward => ⟨o, whole.stop⟩
  | .backward => ⟨whole.start, o + 1⟩

/-- The run whose value is told for a stretch with the nearest byte `o`. -/
inductive Tells (t : Text) (whole : ByteRange) (o : Nat) : Direction → Run → Prop
  /-- Forward, the run of the byte. -/
  | forward {place : ByteRange} {r : Run} (mem : (place, r) ∈ t.ranges)
      (holds : place.contains o) : Tells t whole o .forward r
  /-- Backward, the first run of the stretch that has characters. -/
  | backward {place : ByteRange} {r : Run} (mem : (place, r) ∈ t.ranges)
      (first : place.start = whole.start) (nonempty : ¬ r.isEmpty) : Tells t whole o .backward r

/-! ## The search among spans -/

/-- Nothing is found exactly if no byte in the direction belongs to a variable. -/
theorem nextSpan?_eq_none_iff : t.nextSpan? offset direction = none ↔
    ∀ o, direction.Sees offset o → t.nameAt? o = none := by
  cases direction with
  | forward =>
    rw [nextSpan?, Option.map_eq_none_iff, List.find?_eq_none]
    simp only [decide_eq_true_eq]
    constructor
    · intro h o hsees
      rw [Option.eq_none_iff_forall_ne_some]
      intro name hname
      obtain ⟨s, hs, -, -, hlt⟩ := nameAt?_eq_some_iff.1 hname
      have hle : offset ≤ o := hsees
      exact h s hs (by omega)
    · intro h s hs hlt
      have hstretch := isStretch_of_mem_spans hs
      have hne := hstretch.nonempty
      have hnamed := hstretch.named (max s.range.start offset) (by omega) (by omega)
      rw [h _ (Nat.le_max_right _ _)] at hnamed
      cases hnamed
  | backward =>
    rw [nextSpan?, Option.map_eq_none_iff, List.find?_eq_none]
    simp only [List.mem_reverse, decide_eq_true_eq]
    constructor
    · intro h o hsees
      rw [Option.eq_none_iff_forall_ne_some]
      intro name hname
      obtain ⟨s, hs, -, hle, -⟩ := nameAt?_eq_some_iff.1 hname
      have hlt : o < offset := hsees
      exact h s hs (by omega)
    · intro h s hs hlt
      have hstretch := isStretch_of_mem_spans hs
      have hnamed := hstretch.named s.range.start (Nat.le_refl _) hstretch.nonempty
      rw [h _ hlt] at hnamed
      cases hnamed

/-- In a sorted row, what is found comes before all else that could be. -/
theorem find?_first {α : Type} {R : α → α → Prop} {p : α → Bool} {l : List α} {a : α}
    (hl : l.Pairwise R) (h : l.find? p = some a) :
    p a ∧ a ∈ l ∧ ∀ b ∈ l, p b → b = a ∨ R a b := by
  obtain ⟨ha, before, after, rfl, hbefore⟩ := List.find?_eq_some_iff_append.1 h
  refine ⟨ha, by simp, ?_⟩
  intro b hb hpb
  rcases List.mem_append.1 hb with hb | hb
  · exact absurd hpb (by simpa using hbefore b hb)
  · rcases List.mem_cons.1 hb with rfl | hb
    · exact .inl rfl
    · exact .inr ((List.pairwise_cons.1 (List.pairwise_append.1 hl).2.1).1 b hb)

/-- A byte of a span is the nearest one if no span has a nearer one. -/
theorem isNearest_of_mem_spans (hs : s ∈ t.spans) (hin : s.range.contains o)
    (hsees : direction.Sees offset o)
    (h : ∀ x ∈ t.spans, ∀ p, x.range.contains p → direction.Sees offset p →
      direction.Nearer o p) : t.IsNearest offset direction o := by
  rw [ByteRange.contains_iff] at hin
  refine ⟨hsees, ?_, ?_⟩
  · rw [(isStretch_of_mem_spans hs).named o hin.1 hin.2]
    exact Option.some_ne_none _
  · intro p hsees' hnamed
    obtain ⟨name, hname⟩ := Option.ne_none_iff_exists'.1 hnamed
    obtain ⟨x, hx, -, hstart, hstop⟩ := nameAt?_eq_some_iff.1 hname
    exact h x hx p (ByteRange.contains_iff.2 ⟨hstart, hstop⟩) hsees'

/-- What is found is the span of the nearest byte, and the part of it on the near side. -/
theorem nextSpan?_isNearest (h : t.nextSpan? offset direction = some (s, clip)) :
    s ∈ t.spans ∧ ∃ o, t.IsNearest offset direction o ∧ s.range.contains o ∧
      clip = nearPart s.range o direction := by
  -- Spans stand in order, so a span with another byte in the direction lies on the far side.
  cases direction with
  | forward =>
    obtain ⟨s', hfind, heq⟩ := Option.map_eq_some_iff.1 h
    obtain ⟨rfl, rfl⟩ := Prod.mk.inj heq
    obtain ⟨hlt, hs, hfirst⟩ := find?_first t.spans_sorted hfind
    have hne := (isStretch_of_mem_spans hs).nonempty
    simp only [decide_eq_true_eq] at hlt hfirst
    have hin : s'.range.contains (max s'.range.start offset) :=
      ByteRange.contains_iff.2 ⟨Nat.le_max_left _ _, by omega⟩
    refine ⟨hs, _, isNearest_of_mem_spans hs hin (Nat.le_max_right _ _) ?_, hin, rfl⟩
    intro x hx p hp hsees
    rw [ByteRange.contains_iff] at hp
    have hle : offset ≤ p := hsees
    show max s'.range.start offset ≤ p
    rcases hfirst x hx (by omega) with rfl | hprecedes
    · omega
    · have hafter := hprecedes.1
      omega
  | backward =>
    obtain ⟨s', hfind, heq⟩ := Option.map_eq_some_iff.1 h
    obtain ⟨rfl, rfl⟩ := Prod.mk.inj heq
    obtain ⟨hlt, hs, hfirst⟩ := find?_first (List.pairwise_reverse.2 t.spans_sorted) hfind
    rw [List.mem_reverse] at hs
    have hne := (isStretch_of_mem_spans hs).nonempty
    simp only [decide_eq_true_eq, List.mem_reverse] at hlt hfirst
    have hin : s'.range.contains (min s'.range.stop offset - 1) :=
      ByteRange.contains_iff.2 (by omega)
    have hsees : Direction.backward.Sees offset (min s'.range.stop offset - 1) := by
      show min s'.range.stop offset - 1 < offset
      omega
    refine ⟨hs, _, isNearest_of_mem_spans hs hin hsees ?_, hin, ?_⟩
    · intro x hx p hp hsees'
      rw [ByteRange.contains_iff] at hp
      have hlt' : p < offset := hsees'
      show p ≤ min s'.range.stop offset - 1
      rcases hfirst x hx (by omega) with rfl | hprecedes
      · omega
      · have hbefore := hprecedes.1
        omega
    · simp only [nearPart, ByteRange.mk.injEq, true_and]
      omega

/-! ## What is told -/

/-- Only one run tells the value. -/
theorem Tells.unique {r' : Run} (h : t.Tells whole o direction r)
    (h' : t.Tells whole o direction r') : r = r' := by
  cases h with
  | forward mem holds =>
    cases h' with
    | forward mem' holds' => exact congrArg Prod.snd (eq_of_mem_ranges o mem mem' holds holds')
  | @backward place _ mem first nonempty =>
    cases h' with
    | @backward place' _ mem' first' nonempty' =>
      have hlt := (not_isEmpty_iff_of_mem_ranges mem).1 nonempty
      have hlt' := (not_isEmpty_iff_of_mem_ranges mem').1 nonempty'
      exact congrArg Prod.snd (eq_of_mem_ranges whole.start mem mem'
        (ByteRange.contains_iff.2 (by simp only; omega))
        (ByteRange.contains_iff.2 (by simp only; omega)))

/-- The run whose value is told belongs to the variable that is found. -/
theorem Tells.variableName? (h : t.Tells whole o direction r) (hwhole : t.IsStretch name whole)
    (hin : whole.contains o) :
    r ∈ t.runs ∧ ¬ r.isEmpty ∧ r.variableName? = some name := by
  rw [ByteRange.contains_iff] at hin
  cases h with
  | @forward place _ mem holds =>
    rw [ByteRange.contains_iff] at holds
    refine ⟨mem_runs_of_mem_ranges mem,
      (not_isEmpty_iff_of_mem_ranges mem).2 (by omega), ?_⟩
    rw [← nameAt?_of_mem_ranges mem holds.1 holds.2, hwhole.named o hin.1 hin.2]
  | @backward place _ mem first nonempty =>
    have hlt := (not_isEmpty_iff_of_mem_ranges mem).1 nonempty
    refine ⟨mem_runs_of_mem_ranges mem, nonempty, ?_⟩
    rw [← nameAt?_of_mem_ranges mem (Nat.le_refl _) hlt, first,
      hwhole.named whole.start (Nat.le_refl _) hwhole.nonempty]

/-- The run at the start of the part that is looked at is the one whose value is told. -/
theorem exists_tells (h : t.IsStretch name whole) (hin : whole.contains o)
    (direction : Direction) : ∃ r, t.Tells whole o direction r ∧
      t.runAt? (nearPart whole o direction).start = some r := by
  rw [ByteRange.contains_iff] at hin
  cases direction with
  | forward =>
    -- Forward the run at the offset is asked, backward the one at the start.
    obtain ⟨place, r, hmem, hle, hlt, -⟩ :=
      exists_mem_ranges_of_nameAt? (h.named o hin.1 hin.2)
    have hholds : place.contains o := ByteRange.contains_iff.2 ⟨hle, hlt⟩
    exact ⟨r, .forward hmem hholds, runAt?_of_mem_ranges hmem hholds⟩
  | backward =>
    obtain ⟨place, r, hmem, hle, hlt, -⟩ :=
      exists_mem_ranges_of_nameAt? (h.named whole.start (Nat.le_refl _) h.nonempty)
    have hne : place.start < place.stop := by omega
    have hcovers := h.covers_of_mem_ranges hmem hlt (by omega) hne
    exact ⟨r, .backward hmem (by omega) ((not_isEmpty_iff_of_mem_ranges hmem).2 hne),
      runAt?_of_mem_ranges hmem (ByteRange.contains_iff.2 ⟨hle, hlt⟩)⟩

/-- Looking from a cut of the text, the part of the stretch can be read. -/
theorem exists_slice_of_nextSpan? (hcut : t.CutsAt offset) (hs : s ∈ t.spans)
    (h : t.nextSpan? offset direction = some (s, clip)) : ∃ shown, t.slice? clip = some shown := by
  have hstretch := isStretch_of_mem_spans hs
  have hne := hstretch.nonempty
  have hlast := lt_length_of_nameAt? (hstretch.named (s.range.stop - 1) (by omega) (by omega))
  cases direction with
  | forward =>
    obtain ⟨s', hfind, heq⟩ := Option.map_eq_some_iff.1 h
    obtain ⟨rfl, rfl⟩ := Prod.mk.inj heq
    have hlt := List.find?_some hfind
    simp only [decide_eq_true_eq] at hlt
    -- it is what lies in the range from the offset to the end of the text
    have hclip : s'.range.inter ⟨offset, t.length⟩ =
        ⟨max s'.range.start offset, s'.range.stop⟩ := by
      simp only [ByteRange.inter, ByteRange.mk.injEq, true_and]
      omega
    rw [← hclip]
    refine hstretch.exists_slice (.inr ⟨hcut, .inr (Nat.le_refl _)⟩) ?_
    rw [hclip, ByteRange.not_isEmpty_iff]
    simp only
    omega
  | backward =>
    obtain ⟨s', hfind, heq⟩ := Option.map_eq_some_iff.1 h
    obtain ⟨rfl, rfl⟩ := Prod.mk.inj heq
    have hlt := List.find?_some hfind
    simp only [decide_eq_true_eq] at hlt
    have hclip : s'.range.inter ⟨0, offset⟩ = ⟨s'.range.start, min s'.range.stop offset⟩ := by
      simp [ByteRange.inter]
    rw [← hclip]
    refine hstretch.exists_slice (.inr ⟨.inl (Chars.isBoundary_zero _), hcut⟩) ?_
    rw [hclip, ByteRange.not_isEmpty_iff]
    simp only
    omega

/-- If the search finds a span, its name is told, with the value of the run at its near part. -/
theorem exists_nextVariable? (hcut : t.CutsAt offset)
    (h : t.nextSpan? offset direction = some (s, clip)) :
    ∃ o r value, t.IsNearest offset direction o ∧ s.range.contains o ∧
      t.Tells s.range o direction r ∧
      (r.attributes.text? .variableValue <|> t.slice? (nearPart s.range o direction)) =
        some value ∧
      t.nextVariable? offset direction = some (s.name, value) := by
  obtain ⟨hs, o, hnearest, hin, rfl⟩ := nextSpan?_isNearest h
  obtain ⟨r, htells, hrun⟩ := exists_tells (isStretch_of_mem_spans hs) hin direction
  obtain ⟨shown, hshown⟩ := exists_slice_of_nextSpan? hcut hs h
  have hvalue : ∃ value, (r.attributes.text? .variableValue <|>
      t.slice? (nearPart s.range o direction)) = some value := by
    rw [hshown]
    cases r.attributes.text? .variableValue with
    | none => exact ⟨shown, rfl⟩
    | some stored => exact ⟨stored, rfl⟩
  obtain ⟨value, hvalue⟩ := hvalue
  refine ⟨o, r, value, hnearest, hin, htells, hvalue, ?_⟩
  rw [nextVariable?, h, Option.bind_some]
  simp only [hrun, Option.bind_some, hvalue, Option.map_some]

/-- What a step from an offset finds in one direction. -/
structure FindsNearest (t : Text) (offset : Nat) (direction : Direction) : Prop where
  /-- It finds nothing exactly if no byte in the direction belongs to a variable. -/
  none_iff : t.nextVariable? offset direction = none ↔
    ∀ o, direction.Sees offset o → t.nameAt? o = none
  /-- Else it finds the variable of the nearest byte, with the value of the run that tells it, or
  with the near part of the stretch if the run has no value. -/
  some_iff : ∀ name value, t.nextVariable? offset direction = some (name, value) ↔
    ∃ o whole r, t.IsNearest offset direction o ∧ t.IsStretch name whole ∧ whole.contains o ∧
      t.Tells whole o direction r ∧
      (r.attributes.text? .variableValue <|> t.slice? (nearPart whole o direction)) = some value

/-- A step from a cut of the text finds the nearest variable. -/
theorem nextVariable?_finds_nearest (t : Text) (offset : Nat) (direction : Direction)
    (hcut : t.CutsAt offset) : t.FindsNearest offset direction := by
  constructor
  · rw [← nextSpan?_eq_none_iff]
    constructor
    · intro hnone
      rw [Option.eq_none_iff_forall_ne_some]
      rintro ⟨s, clip⟩ hfound
      obtain ⟨o, r, value, -, -, -, -, hsome⟩ := exists_nextVariable? hcut hfound
      rw [hnone] at hsome
      cases hsome
    · intro hnone
      rw [nextVariable?, hnone, Option.bind_none]
  · intro name value
    constructor
    · intro hsome
      cases hfound : t.nextSpan? offset direction with
      | none =>
        rw [nextVariable?, hfound, Option.bind_none] at hsome
        cases hsome
      | some found =>
        obtain ⟨hs, -⟩ := nextSpan?_isNearest hfound
        obtain ⟨o, r, value', hnearest, hin, htells, hvalue, heq⟩ :=
          exists_nextVariable? hcut hfound
        rw [heq, Option.some.injEq, Prod.mk.injEq] at hsome
        obtain ⟨rfl, rfl⟩ := hsome
        exact ⟨o, found.1.range, r, hnearest, isStretch_of_mem_spans hs, hin, htells, hvalue⟩
    · rintro ⟨o, whole, r, hnearest, hwhole, hin, htells, hvalue⟩
      cases hfound : t.nextSpan? offset direction with
      | none => exact absurd (nextSpan?_eq_none_iff.1 hfound o hnearest.seen) hnearest.named
      | some found =>
        -- the nearest byte is in one stretch only, and one run tells its value
        obtain ⟨hs, -⟩ := nextSpan?_isNearest hfound
        obtain ⟨o', r', value', hnearest', hin', htells', hvalue', heq⟩ :=
          exists_nextVariable? hcut hfound
        obtain rfl := hnearest.unique hnearest'
        obtain ⟨rfl, rfl⟩ := hwhole.eq_of_meets (isStretch_of_mem_spans hs) o hin hin'
        obtain rfl := htells.unique htells'
        rw [hvalue, Option.some.injEq] at hvalue'
        rw [heq, hvalue']

/-- In the letter, a step back from inside the name finds its first two characters. -/
theorem letter_finds_nearest :
    letter.CutsAt 5 ∧ letter.FindsNearest 5 .backward ∧
      letter.nextVariable? 5 .backward = some ("name", "Zo") := by
  have hcut : letter.CutsAt 5 := .inl (by decide)
  exact ⟨hcut, nextVariable?_finds_nearest letter 5 .backward hcut, by decide⟩

end Text

end StyledText
