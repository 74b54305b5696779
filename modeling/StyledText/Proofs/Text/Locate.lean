import StyledText.Proofs.Chars.Boundary
import StyledText.Text.Basic

/-!
# Places of runs

`Text.locate` gives each run the bytes it takes. The places follow one another without a gap, and
the characters of a text split at them. A byte lies in one place only (`eq_of_mem_ranges`).
-/

namespace StyledText

namespace Run

theorem isEmpty_iff {r : Run} : r.isEmpty ↔ r.chars = [] := by
  unfold isEmpty chars
  rw [decide_eq_true_eq, String.toList_eq_nil_iff]

theorem length_pos {r : Run} (h : ¬ r.isEmpty) : 0 < r.length := by
  have hne : r.length ≠ 0 := by
    intro hzero
    exact h (isEmpty_iff.2 (Chars.byteLength_eq_zero_iff.1 hzero))
  omega

theorem length_of_isEmpty {r : Run} (h : r.isEmpty) : r.length = 0 := by
  rw [length, isEmpty_iff.1 h, Chars.byteLength_nil]

end Run

namespace Text

variable {base : Nat} {runs : List Run} {range : ByteRange} {r : Run}

/-- Without their ranges, they are the runs. -/
theorem map_locate (base : Nat) (runs : List Run) : (locate base runs).map Prod.snd = runs := by
  induction runs generalizing base with
  | nil => rfl
  | cons r rest ih => rw [locate, List.map_cons, ih]

/-- What has a range is a run of the text. -/
theorem mem_runs_of_mem_ranges {t : Text} {place : ByteRange} (h : (place, r) ∈ t.ranges) :
    r ∈ t.runs := by
  rw [← map_locate 0 t.runs]
  exact List.mem_map_of_mem h

/-- No range starts before the first. -/
theorem start_of_mem_locate (h : (range, r) ∈ locate base runs) : base ≤ range.start := by
  induction runs generalizing base with
  | nil => simp [locate] at h
  | cons s rest ih =>
    rcases List.mem_cons.1 h with heq | hmem
    · rcases Prod.mk.inj heq with ⟨rfl, -⟩
      exact Nat.le_refl _
    · have hle := ih hmem
      omega

/-- A range is as long as its run. -/
theorem stop_of_mem_locate (h : (range, r) ∈ locate base runs) :
    range.stop = range.start + r.length := by
  induction runs generalizing base with
  | nil => simp [locate] at h
  | cons s rest ih =>
    rcases List.mem_cons.1 h with heq | hmem
    · rcases Prod.mk.inj heq with ⟨rfl, rfl⟩
      rfl
    · exact ih hmem

/-- No range stops behind the last. -/
theorem stop_le_of_mem_locate (h : (range, r) ∈ locate base runs) :
    range.stop ≤ base + Run.lengthAll runs := by
  induction runs generalizing base with
  | nil => simp [locate] at h
  | cons s rest ih =>
    rw [Run.lengthAll]
    rcases List.mem_cons.1 h with heq | hmem
    · rcases Prod.mk.inj heq with ⟨rfl, rfl⟩
      simp only
      omega
    · have hle := ih hmem
      omega

/-- No range stops behind the text. -/
theorem stop_le_length_of_mem_ranges {t : Text} (h : (range, r) ∈ t.ranges) :
    range.stop ≤ t.length := by
  have hle := stop_le_of_mem_locate h
  rw [Nat.zero_add] at hle
  exact hle

/-- A byte is found in the run whose place holds it. -/
theorem find?_locate_of_mem {offset : Nat} (h : (range, r) ∈ locate base runs)
    (hin : range.contains offset) :
    (locate base runs).find? (fun e => e.1.contains offset) = some (range, r) := by
  induction runs generalizing base with
  | nil => simp [locate] at h
  | cons s rest ih =>
    rw [locate, List.find?_cons]
    rcases List.mem_cons.1 h with heq | hmem
    · rcases Prod.mk.inj heq with ⟨rfl, rfl⟩
      rw [hin]
    · -- the places behind the first one start where it ends
      have hle := start_of_mem_locate hmem
      simp only [ByteRange.contains, Bool.and_eq_true, decide_eq_true_eq] at hin
      have hout : ByteRange.contains ⟨base, base + s.length⟩ offset = false := by
        simp only [ByteRange.contains, Bool.and_eq_false_iff, decide_eq_false_iff_not]
        omega
      simp only [hout]
      exact ih hmem

/-- In the range of a run, it is the run that is found. -/
theorem runAt?_of_mem_ranges {t : Text} {place : ByteRange} {offset : Nat}
    (h : (place, r) ∈ t.ranges) (hin : place.contains offset) : t.runAt? offset = some r := by
  rw [runAt?, ranges, find?_locate_of_mem h hin, Option.map_some]

/-- Only one run holds a byte. -/
theorem eq_of_mem_ranges {t : Text} {p q : ByteRange × Run} (offset : Nat) (hp : p ∈ t.ranges)
    (hq : q ∈ t.ranges) (hin : p.1.contains offset) (hin' : q.1.contains offset) : p = q :=
  Option.some.inj ((find?_locate_of_mem hp hin).symm.trans (find?_locate_of_mem hq hin'))

/-- The characters split at the place of a run. -/
theorem split_of_mem_locate (h : (range, r) ∈ locate base runs) :
    ∃ before after, runs.flatMap Run.chars = before ++ r.chars ++ after ∧
      base + Chars.byteLength before = range.start := by
  induction runs generalizing base with
  | nil => simp [locate] at h
  | cons s rest ih =>
    rcases List.mem_cons.1 h with heq | hmem
    · rcases Prod.mk.inj heq with ⟨rfl, rfl⟩
      exact ⟨[], rest.flatMap Run.chars, by simp, by simp⟩
    · rcases ih hmem with ⟨before, after, hsplit, hlen⟩
      refine ⟨s.chars ++ before, after, ?_, ?_⟩
      · rw [List.flatMap_cons, hsplit]
        simp
      · rw [Chars.byteLength_append]
        rw [Run.length] at hlen
        omega

/-- The text at the place of a run is the text of the run. -/
theorem slice?_of_mem_ranges {t : Text} {place : ByteRange} {r : Run} (h : (place, r) ∈ t.ranges) :
    t.slice? place = some r.text := by
  obtain ⟨before, after, hsplit, hlen⟩ := split_of_mem_locate h
  have hstop := stop_of_mem_locate h
  have hslice : Chars.slice? place.start place.stop t.chars = some r.chars := by
    rw [Chars.slice?_eq_some_iff]
    exact ⟨before, after, hsplit, by omega, by rw [hstop, Run.length]⟩
  rw [slice?, hslice, Option.map_some, Run.chars, String.ofList_toList]

/-- A boundary of the text that lies at a run is a boundary of the run. -/
theorem isBoundary_of_mem_ranges {t : Text} {offset : Nat} (hmem : (range, r) ∈ t.ranges)
    (hb : Chars.isBoundary offset t.chars) (hstart : range.start ≤ offset)
    (hstop : offset ≤ range.stop) : Chars.isBoundary (offset - range.start) r.chars := by
  rcases split_of_mem_locate hmem with ⟨before, after, hsplit, hlen⟩
  have hrange := stop_of_mem_locate hmem
  rw [Run.length] at hrange
  have hoffset : offset = Chars.byteLength before + (offset - range.start) := by omega
  rw [chars, hsplit, List.append_assoc, hoffset, Chars.isBoundary_append_right,
    Chars.isBoundary_append_left (by omega)] at hb
  exact hb

/-- A run and the text have the same boundaries where the run stands. -/
theorem isBoundary_iff_of_mem_ranges {t : Text} {offset : Nat} (hmem : (range, r) ∈ t.ranges)
    (hstart : range.start ≤ offset) (hstop : offset ≤ range.stop) :
    Chars.isBoundary offset t.chars ↔ Chars.isBoundary (offset - range.start) r.chars := by
  refine ⟨fun hb => isBoundary_of_mem_ranges hmem hb hstart hstop, ?_⟩
  intro hb
  obtain ⟨before, after, hsplit, hlen⟩ := split_of_mem_locate hmem
  obtain ⟨left, right, hchars, hleft⟩ := Chars.isBoundary_iff.1 hb
  refine Chars.isBoundary_iff.2 ⟨before ++ left, right ++ after, ?_, ?_⟩
  · rw [chars, hsplit, hchars]
    simp
  · rw [Chars.byteLength_append]
    omega

end Text

end StyledText
