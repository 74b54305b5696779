import StyledText.Proofs.Variable.Stretch
import StyledText.Text.Variable.Update
import StyledText.OrderedMap.Lemmas

/-!
# Clips

A clip is the part of a stretch that lies in a range, where a new value is given for the name of
the stretch (`IsClip`). The edits of an update are the clips (`mem_edits_iff_isClip`), from left to
right (`edits_sorted`). A run has a byte in one clip at most (`IsClip.eq_of_meets`), and in a range
that cuts the text at boundaries the clips do so too (`IsClip.isBoundary_start`,
`IsClip.isBoundary_stop`).
-/

namespace StyledText

open Variable

namespace ByteRange

/-- Some byte lies in both ranges. -/
def Meets (r s : ByteRange) : Prop := ∃ offset, r.contains offset ∧ s.contains offset

theorem contains_iff {r : ByteRange} {offset : Nat} :
    r.contains offset ↔ r.start ≤ offset ∧ offset < r.stop := by
  simp [contains]

/-- Ranges meet where both go on. -/
theorem meets_iff {r s : ByteRange} : r.Meets s ↔ max r.start s.start < min r.stop s.stop := by
  unfold Meets
  simp only [contains_iff]
  constructor
  · rintro ⟨offset, hr, hs⟩
    omega
  · intro h
    exact ⟨max r.start s.start, by omega, by omega⟩

instance (r s : ByteRange) : Decidable (r.Meets s) := decidable_of_iff _ meets_iff.symm

/-- What has a byte in a part of a place has one in the place. -/
theorem Meets.of_within {r part place : ByteRange} (h : r.Meets part)
    (hstart : place.start ≤ part.start) (hstop : part.stop ≤ place.stop) : r.Meets place := by
  rw [meets_iff] at h ⊢
  omega

/-- A range that is not empty meets whatever it starts in. -/
theorem meets_of_contains_start {r s : ByteRange} (hne : r.start < r.stop)
    (hin : s.contains r.start) : r.Meets s :=
  ⟨r.start, contains_iff.2 ⟨Nat.le_refl _, hne⟩, hin⟩

end ByteRange

namespace Text

/-- Part of a variable to be replaced by a new value: what lies in the range of one stretch. -/
structure IsClip (t : Text) (values : OrderedMap String String) (range : ByteRange) (e : Edit) :
    Prop where
  nonempty : e.range.start < e.range.stop
  stretch : ∃ name whole, t.IsStretch name whole ∧ values.get? name = some e.value ∧
    e.range = whole.inter range

/-- A cut at this place goes through no character. -/
def CutsAt (t : Text) (offset : Nat) : Prop :=
  Chars.isBoundary offset t.chars ∨ t.length ≤ offset

/-- The range is empty, or both its ends cut the text at a boundary or lie past it. -/
def Admits (t : Text) (range : ByteRange) : Prop :=
  range.isEmpty ∨ (t.CutsAt range.start ∧ t.CutsAt range.stop)

theorem admits_extent (t : Text) : t.Admits t.extent :=
  .inr ⟨.inl (Chars.isBoundary_zero _), .inr (Nat.le_refl _)⟩

/-- A range that is admitted cuts at both ends. -/
theorem Admits.cutsAt {t : Text} {range : ByteRange} (h : t.Admits range)
    (hne : range.start < range.stop) : t.CutsAt range.start ∧ t.CutsAt range.stop := by
  rcases h with hempty | hcuts
  · simp only [ByteRange.isEmpty, decide_eq_true_eq] at hempty
    omega
  · exact hcuts

/-- Where the text may be cut, so may a run. -/
theorem CutsAt.isBoundary {t : Text} {offset : Nat} {place : ByteRange} {r : Run}
    (h : t.CutsAt offset) (hmem : (place, r) ∈ t.ranges) (hstart : place.start ≤ offset)
    (hstop : offset ≤ place.stop) : Chars.isBoundary (offset - place.start) r.chars := by
  rcases h with hb | hpast
  · exact isBoundary_of_mem_ranges hmem hb hstart hstop
  · -- a cut past the end of the text is at the end of its last run
    have hle := stop_le_length_of_mem_ranges hmem
    have hrange := stop_of_mem_locate hmem
    have hend : offset - place.start = Chars.byteLength r.chars := by
      rw [Run.length] at hrange
      omega
    rw [hend]
    exact Chars.isBoundary_byteLength _

variable {t : Text} {values : OrderedMap String String} {range : ByteRange}

/-- The edits are the clips of stretches that have a value. -/
theorem mem_edits_iff_isClip {e : Edit} : e ∈ t.edits values range ↔ t.IsClip values range e := by
  unfold edits
  rw [List.mem_filterMap]
  constructor
  · rintro ⟨s, hs, hedit⟩
    rcases Option.bind_eq_some_iff.1 hedit with ⟨value, hvalue, hclip⟩
    split at hclip
    · simp at hclip
    · next hne =>
      rcases Option.some.inj hclip with rfl
      simp only [ByteRange.isEmpty, decide_eq_true_eq, Nat.not_le] at hne
      exact ⟨hne, s.name, s.range, isStretch_of_mem_spans hs, hvalue, rfl⟩
  · rintro ⟨hne, name, whole, hstretch, hvalue, hrange⟩
    rcases mem_spans_iff_isStretch.2 hstretch with ⟨s, hs, rfl, rfl⟩
    refine ⟨s, hs, Option.bind_eq_some_iff.2 ⟨e.value, hvalue, ?_⟩⟩
    rw [← hrange, if_neg]
    simpa [ByteRange.isEmpty] using hne

/-- No edit begins before the one before it has ended. -/
theorem edits_sorted (t : Text) (values : OrderedMap String String) (range : ByteRange) :
    (t.edits values range).Pairwise fun e f => e.range.stop ≤ f.range.start := by
  unfold edits
  refine List.Pairwise.filterMap _ ?_ t.spans_sorted
  intro a b hab e he f hf
  rcases Option.bind_eq_some_iff.1 he with ⟨_, -, he⟩
  rcases Option.bind_eq_some_iff.1 hf with ⟨_, -, hf⟩
  split at he
  · simp at he
  · split at hf
    · simp at hf
    · rcases Option.some.inj he with rfl
      rcases Option.some.inj hf with rfl
      have hle := hab.1
      simp only [ByteRange.inter]
      omega

namespace IsClip

variable {e f : Edit} {place : ByteRange} {r : Run}

theorem contains_start (he : t.IsClip values range e) : e.range.contains e.range.start :=
  ByteRange.contains_iff.2 ⟨Nat.le_refl _, he.nonempty⟩

/-- A clip has a byte in the place where it starts. -/
theorem meets_of_starts (he : t.IsClip values range e) (hin : place.contains e.range.start) :
    e.range.Meets place :=
  ByteRange.meets_of_contains_start he.nonempty hin

/-- A clip starts in its range. -/
theorem starts_inside (he : t.IsClip values range e) : range.contains e.range.start := by
  obtain ⟨hne, _, whole, -, -, hrange⟩ := he
  rw [hrange] at hne ⊢
  simp only [ByteRange.inter] at hne ⊢
  exact ByteRange.contains_iff.2 (by omega)

/-- A run has a byte in one clip at most. -/
theorem eq_of_meets (he : t.IsClip values range e) (hf : t.IsClip values range f)
    (hmem : (place, r) ∈ t.ranges) (hep : e.range.Meets place) (hfp : f.range.Meets place) :
    f = e := by
  rcases he with ⟨-, name, whole, hwhole, hvalue, hrange⟩
  rcases hf with ⟨-, name', whole', hwhole', hvalue', hrange'⟩
  rw [hrange, ByteRange.meets_iff] at hep
  rw [hrange', ByteRange.meets_iff] at hfp
  simp only [ByteRange.inter] at hep hfp
  have hcover := hwhole.covers_of_mem_ranges hmem (by omega) (by omega) (by omega)
  have hcover' := hwhole'.covers_of_mem_ranges hmem (by omega) (by omega) (by omega)
  -- both stretches hold the first byte of the run
  obtain ⟨rfl, rfl⟩ := hwhole.eq_of_meets hwhole' place.start
    (ByteRange.contains_iff.2 (by omega)) (ByteRange.contains_iff.2 (by omega))
  rcases e with ⟨erange, evalue⟩
  rcases f with ⟨frange, fvalue⟩
  simp only at hvalue hvalue' hrange hrange'
  rw [hvalue, Option.some.injEq] at hvalue'
  rw [hrange, hrange', hvalue']

/-- The byte before the end of a clip belongs to a run of the text. -/
theorem stop_le_length (he : t.IsClip values range e) : e.range.stop ≤ t.length := by
  rcases he with ⟨hne, name, whole, hwhole, -, hrange⟩
  have hpos := hwhole.nonempty
  have hnamed := hwhole.named (whole.stop - 1) (by omega) (by omega)
  have hlt := lt_length_of_nameAt? hnamed
  rw [hrange]
  simp only [ByteRange.inter]
  omega

/-- The stretch of a clip with a byte in a run holds the run. -/
theorem exists_whole (he : t.IsClip values range e) (hmem : (place, r) ∈ t.ranges)
    (hmeets : e.range.Meets place) : ∃ whole : ByteRange, e.range = whole.inter range ∧
      whole.start ≤ place.start ∧ place.stop ≤ whole.stop := by
  rcases he with ⟨-, name, whole, hwhole, -, hrange⟩
  rw [hrange, ByteRange.meets_iff] at hmeets
  simp only [ByteRange.inter] at hmeets
  exact ⟨whole, hrange, hwhole.covers_of_mem_ranges hmem (by omega) (by omega) (by omega)⟩

/-- A clip that starts inside of a run starts at a boundary of the run. -/
theorem isBoundary_start (he : t.IsClip values range e) (hadmits : t.Admits range)
    (hmem : (place, r) ∈ t.ranges) (hmeets : e.range.Meets place)
    (hstart : place.start < e.range.start) :
    Chars.isBoundary (e.range.start - place.start) r.chars := by
  -- The stretch does not start inside the run, so it is the range that does.
  rcases he.exists_whole hmem hmeets with ⟨whole, hrange, hle, -⟩
  rw [ByteRange.meets_iff] at hmeets
  rw [hrange] at hstart hmeets ⊢
  simp only [ByteRange.inter] at hstart hmeets ⊢
  rw [Nat.max_eq_right (by omega)]
  exact (hadmits.cutsAt (by omega)).1.isBoundary hmem (by omega) (by omega)

/-- A clip that ends inside of a run ends at a boundary of the run. -/
theorem isBoundary_stop (he : t.IsClip values range e) (hadmits : t.Admits range)
    (hmem : (place, r) ∈ t.ranges) (hmeets : e.range.Meets place)
    (hstop : e.range.stop < place.stop) :
    Chars.isBoundary (e.range.stop - place.start) r.chars := by
  -- The stretch does not end inside the run, so it is the range that does.
  rcases he.exists_whole hmem hmeets with ⟨whole, hrange, -, hle⟩
  rw [ByteRange.meets_iff] at hmeets
  rw [hrange] at hstop hmeets ⊢
  simp only [ByteRange.inter] at hstop hmeets ⊢
  rw [Nat.min_eq_right (by omega)]
  exact (hadmits.cutsAt (by omega)).2.isBoundary hmem (by omega) (by omega)

end IsClip

end Text

end StyledText
