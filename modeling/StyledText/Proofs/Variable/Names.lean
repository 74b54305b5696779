import StyledText.Proofs.Variable.Everywhere
import StyledText.Text.Variable.Reading

/-!
# The names of variables

A variable is there as long as one byte of it is (`contains_variableTexts_iff`). An update writes
runs of the same variables, so no name is new afterwards, and a name goes away only with the last
byte of its variable: if the new value is empty, and nothing of the variable stays outside the
range.

* `exists_clip`: what an update takes is all that lies in the range.
* `exists_run_of_mem_updated`, `exists_edited_of_mem_ranges`: runs before and after an update.
* `updated_keeps_names`: the names before and after an update.
-/

namespace StyledText

open Variable

theorem ByteRange.not_isEmpty_iff {r : ByteRange} : ¬ r.isEmpty ↔ r.start < r.stop := by
  simp [isEmpty]

namespace Text

variable {t : Text} {name : String} {offset : Nat} {place range : ByteRange} {r : Run}

/-! ## Bytes and runs -/

/-- A run has characters if its place has bytes. -/
theorem not_isEmpty_iff_of_mem_ranges (hmem : (place, r) ∈ t.ranges) :
    ¬ r.isEmpty ↔ place.start < place.stop := by
  have hstop := stop_of_mem_locate hmem
  constructor
  · intro hr
    have hpos := Run.length_pos hr
    omega
  · intro hlt hempty
    rw [Run.length_of_isEmpty hempty] at hstop
    omega

/-- The bytes of a name are those of the runs of that name. -/
theorem exists_nameAt?_iff : (∃ offset, t.nameAt? offset = some name) ↔
    ∃ r ∈ t.runs, ¬ r.isEmpty ∧ r.variableName? = some name := by
  constructor
  · rintro ⟨offset, hname⟩
    obtain ⟨place, r, hmem, hstart, hstop, hr⟩ := exists_mem_ranges_of_nameAt? hname
    exact ⟨r, mem_runs_of_mem_ranges hmem, (not_isEmpty_iff_of_mem_ranges hmem).2 (by omega), hr⟩
  · rintro ⟨r, hr, hne, hname⟩
    rw [← map_locate 0 t.runs, List.mem_map] at hr
    obtain ⟨⟨place, _⟩, hmem, rfl⟩ := hr
    have hlt := (not_isEmpty_iff_of_mem_ranges hmem).1 hne
    exact ⟨place.start, (nameAt?_of_mem_ranges hmem (Nat.le_refl _) hlt).trans hname⟩

/-! ## Names and texts -/

theorem isBoundary_start_of_mem_ranges (hmem : (place, r) ∈ t.ranges) :
    Chars.isBoundary place.start t.chars := by
  obtain ⟨before, after, hsplit, hlen⟩ := split_of_mem_locate hmem
  rw [Nat.zero_add] at hlen
  exact Chars.isBoundary_iff.2 ⟨before, r.chars ++ after, by rw [chars, hsplit, List.append_assoc],
    hlen⟩

theorem isBoundary_stop_of_mem_ranges (hmem : (place, r) ∈ t.ranges) :
    Chars.isBoundary place.stop t.chars := by
  obtain ⟨before, after, hsplit, hlen⟩ := split_of_mem_locate hmem
  have hstop := stop_of_mem_locate hmem
  rw [Nat.zero_add] at hlen
  refine Chars.isBoundary_iff.2 ⟨before ++ r.chars, after, hsplit, ?_⟩
  rw [Chars.byteLength_append, hlen, hstop, Run.length]

/-- A stretch starts and ends where runs do. -/
theorem IsStretch.isBoundary (h : t.IsStretch name range) :
    Chars.isBoundary range.start t.chars ∧ Chars.isBoundary range.stop t.chars := by
  have hne := h.nonempty
  obtain ⟨first, r, hfirst, hle, hlt, -⟩ :=
    exists_mem_ranges_of_nameAt? (h.named range.start (Nat.le_refl _) hne)
  obtain ⟨last, r', hlast, hle', hlt', -⟩ :=
    exists_mem_ranges_of_nameAt? (h.named (range.stop - 1) (by omega) (by omega))
  have hcovers := h.covers_of_mem_ranges hfirst (by omega) (by omega) (by omega)
  have hcovers' := h.covers_of_mem_ranges hlast (by omega) (by omega) (by omega)
  have hstart : range.start = first.start := by omega
  have hstop : range.stop = last.stop := by omega
  rw [hstart, hstop]
  exact ⟨isBoundary_start_of_mem_ranges hfirst, isBoundary_stop_of_mem_ranges hlast⟩

/-- What lies of a stretch in a range can be read, if the range cuts the text at boundaries. -/
theorem IsStretch.exists_slice {whole : ByteRange} (h : t.IsStretch name whole)
    (hadmits : t.Admits range) (hne : ¬ (whole.inter range).isEmpty) :
    ∃ s, t.slice? (whole.inter range) = some s := by
  obtain ⟨hstart, hstop⟩ := h.isBoundary
  have hpos := h.nonempty
  have hlast := lt_length_of_nameAt? (h.named (whole.stop - 1) (by omega) (by omega))
  rw [ByteRange.not_isEmpty_iff] at hne
  simp only [ByteRange.inter] at hne
  obtain ⟨hcut, hcut'⟩ := hadmits.cutsAt (by omega)
  -- An end of the clip is an end of the stretch or of the range, and both are boundaries.
  have hleft : Chars.isBoundary (max whole.start range.start) t.chars := by
    rcases Nat.le_total range.start whole.start with hle | hle
    · rwa [Nat.max_eq_left hle]
    · rw [Nat.max_eq_right hle]
      exact hcut.resolve_right (by omega)
  have hright : Chars.isBoundary (min whole.stop range.stop) t.chars := by
    rcases Nat.le_total whole.stop range.stop with hle | hle
    · rwa [Nat.min_eq_left hle]
    · rw [Nat.min_eq_right hle]
      rcases hcut' with hcut' | hpast
      · exact hcut'
      · have hend : range.stop = whole.stop := by omega
        rwa [hend]
  obtain ⟨left, part, right, hsplit, hlen, hlen'⟩ :=
    Chars.exists_split_of_isBoundary hleft hright (by omega)
  have hslice := Chars.slice?_eq_some_iff.2 ⟨left, right, hsplit, hlen, hlen'⟩
  exact ⟨String.ofList part, by rw [slice?, ByteRange.inter, hslice]; rfl⟩

/-- The variables in a range are those with a byte there. -/
theorem contains_variableTexts_iff {within : Option ByteRange}
    (hadmits : t.Admits (within.getD t.extent)) :
    (t.variableTexts within).contains name ↔
      ∃ offset, t.nameAt? offset = some name ∧ (within.getD t.extent).contains offset := by
  rw [variableTexts, OrderedMap.contains_ofList_iff]
  simp only [List.mem_filterMap]
  constructor
  · rintro ⟨e, ⟨s, hs, hclip⟩, rfl⟩
    split at hclip
    · cases hclip
    · next hne =>
      obtain ⟨shown, -, rfl⟩ := Option.map_eq_some_iff.1 hclip
      rw [ByteRange.not_isEmpty_iff] at hne
      simp only [ByteRange.inter] at hne
      refine ⟨max s.range.start (within.getD t.extent).start, ?_,
        ByteRange.contains_iff.2 (by omega)⟩
      exact (isStretch_of_mem_spans hs).named _ (by omega) (by omega)
  · rintro ⟨offset, hname, hin⟩
    obtain ⟨s, hs, hsame, hstart, hstop⟩ := nameAt?_eq_some_iff.1 hname
    rw [ByteRange.contains_iff] at hin
    have hne : ¬ (s.range.inter (within.getD t.extent)).isEmpty := by
      rw [ByteRange.not_isEmpty_iff]
      simp only [ByteRange.inter]
      omega
    obtain ⟨shown, hshown⟩ := (isStretch_of_mem_spans hs).exists_slice hadmits hne
    exact ⟨(name, shown), ⟨s, hs, by simp [hne, hshown, hsame]⟩, rfl⟩

/-- The variables of a text are those with a byte in it. -/
theorem contains_variableTexts_none_iff :
    (t.variableTexts none).contains name ↔ ∃ offset, t.nameAt? offset = some name := by
  rw [contains_variableTexts_iff t.admits_extent]
  refine exists_congr fun offset => and_iff_left_of_imp ?_
  intro hname
  exact ByteRange.contains_iff.2 ⟨Nat.zero_le _, lt_length_of_nameAt? hname⟩

end Text

/-! ## What comes of a run -/

namespace Run

variable {clips : List Edit} {place : ByteRange} {r w : Run} {out : List Run}
  {base start stop : Nat}

/-- A part of a run has its attributes, and characters. -/
theorem of_mem_between (hw : w ∈ r.between base start stop) :
    w.attributes = r.attributes ∧ start - base < stop - base := by
  unfold between at hw
  split at hw
  · next c cs hslice =>
    obtain ⟨-, -, -, -, hlen⟩ := Chars.slice?_eq_some_iff.1 hslice
    have hpos := c.utf8Size_pos
    rw [Chars.byteLength_cons] at hlen
    rw [List.mem_singleton.1 hw]
    exact ⟨rfl, by omega⟩
  · cases hw

/-- What comes of a run belongs to the same variable. -/
theorem Edited.variableName? (h : r.Edited clips place out) (hw : w ∈ out) :
    w.variableName? = r.variableName? := by
  have hpart : ∀ {start stop}, w ∈ r.between place.start start stop →
      w.variableName? = r.variableName? := by
    intro start stop hw
    rw [Run.variableName?, (of_mem_between hw).1, Run.variableName?]
  cases h with
  | kept => rw [List.mem_singleton.1 hw]
  | cut =>
    rcases List.mem_append.1 hw with hw | hw
    · split at hw
      · rcases List.mem_append.1 hw with hw | hw
        · exact hpart hw
        · rw [List.mem_singleton.1 hw, variableName?_withValue]
      · cases hw
    · exact hpart hw

end Run

namespace Text

variable {t : Text} {name : String} {offset : Nat} {place range : ByteRange} {r w : Run}
  {values : OrderedMap String String} {within : Option ByteRange} {e : Edit}

/-- What alone has a property is found. -/
theorem find?_of_only {α : Type} {p : α → Bool} {l : List α} {a : α} (ha : a ∈ l) (hp : p a)
    (only : ∀ b ∈ l, p b → b = a) : l.find? p = some a := by
  cases hfound : l.find? p with
  | none => exact absurd hp (List.find?_eq_none.1 hfound a ha)
  | some b => rw [only b (List.mem_of_find?_eq_some hfound) (List.find?_some hfound)]

/-- In lists that go together, each has a partner. -/
theorem exists_of_forall₂ {α β : Type} {R : α → β → Prop} {l : List α} {m : List β}
    (h : List.Forall₂ R l m) :
    (∀ a ∈ l, ∃ b ∈ m, R a b) ∧ ∀ b ∈ m, ∃ a ∈ l, R a b := by
  induction h with
  | nil => simp
  | cons hab _ ih =>
    refine ⟨?_, ?_⟩
    · intro a ha
      rcases List.mem_cons.1 ha with rfl | ha
      · exact ⟨_, List.mem_cons_self, hab⟩
      · obtain ⟨b, hb, hR⟩ := ih.1 a ha
        exact ⟨b, List.mem_cons_of_mem _ hb, hR⟩
    · intro b hb
      rcases List.mem_cons.1 hb with rfl | hb
      · exact ⟨_, List.mem_cons_self, hab⟩
      · obtain ⟨a, ha, hR⟩ := ih.2 b hb
        exact ⟨a, List.mem_cons_of_mem _ ha, hR⟩

/-- An updated text is made of what comes of each run. -/
theorem exists_parts_updated (t : Text) (values : OrderedMap String String)
    (within : Option ByteRange) : ∃ parts, (t.updated values within).runs = parts.flatten ∧
      List.Forall₂ (fun p out => p.2.Edited (t.edits values (within.getD t.extent)) p.1 out)
        t.ranges parts := by
  have hqueued := t.queued_edits values (within.getD t.extent)
  have hopen := openAt_eq_self hqueued.opened
  rw [← hopen] at hqueued
  obtain ⟨parts, hruns, hparts⟩ := editRuns_edited hqueued
  rw [hopen] at hruns
  exact ⟨parts, hruns, hparts⟩

/-- A run of the update comes from one of the text. -/
theorem exists_run_of_mem_updated (hw : w ∈ (t.updated values within).runs) :
    ∃ place r out, (place, r) ∈ t.ranges ∧
      r.Edited (t.edits values (within.getD t.extent)) place out ∧ w ∈ out := by
  obtain ⟨parts, hruns, hparts⟩ := exists_parts_updated t values within
  rw [hruns, List.mem_flatten] at hw
  obtain ⟨out, hout, hw⟩ := hw
  obtain ⟨⟨place, r⟩, hmem, hedited⟩ := (exists_of_forall₂ hparts).2 out hout
  exact ⟨place, r, out, hmem, hedited, hw⟩

/-- A run of the text has its edited runs in the update. -/
theorem exists_edited_of_mem_ranges (values : OrderedMap String String)
    (within : Option ByteRange) (hmem : (place, r) ∈ t.ranges) :
    ∃ out, r.Edited (t.edits values (within.getD t.extent)) place out ∧
      ∀ w ∈ out, w ∈ (t.updated values within).runs := by
  obtain ⟨parts, hruns, hparts⟩ := exists_parts_updated t values within
  obtain ⟨out, hout, hedited⟩ := (exists_of_forall₂ hparts).1 _ hmem
  refine ⟨out, hedited, ?_⟩
  intro w hw
  rw [hruns, List.mem_flatten]
  exact ⟨out, hout, hw⟩

/-! ## What an update takes -/

/-- A byte of a variable with a new value is taken if it lies in the range. -/
theorem exists_clip {value : String} (hname : t.nameAt? offset = some name)
    (hvalue : values.get? name = some value) (hin : range.contains offset) :
    ∃ e, t.IsClip values range e ∧ e.range.contains offset := by
  obtain ⟨s, hs, rfl, hstart, hstop⟩ := nameAt?_eq_some_iff.1 hname
  rw [ByteRange.contains_iff] at hin
  refine ⟨⟨s.range.inter range, value⟩, ⟨?_, s.name, s.range, isStretch_of_mem_spans hs, hvalue,
    rfl⟩, ?_⟩
  · simp only [ByteRange.inter]
    omega
  · rw [ByteRange.contains_iff]
    simp only [ByteRange.inter]
    omega

/-- All bytes of a clip belong to the variable that its value is for. -/
theorem IsClip.exists_name (he : t.IsClip values range e) : ∃ name,
    values.get? name = some e.value ∧
      ∀ offset, e.range.contains offset → t.nameAt? offset = some name := by
  obtain ⟨-, name, whole, hwhole, hvalue, hrange⟩ := he
  refine ⟨name, hvalue, ?_⟩
  intro offset hin
  rw [hrange, ByteRange.contains_iff] at hin
  simp only [ByteRange.inter] at hin
  exact hwhole.named offset (by omega) (by omega)

/-- So does each run that it has a byte in. -/
theorem IsClip.get?_of_meets (he : t.IsClip values range e) (hmem : (place, r) ∈ t.ranges)
    (hmeets : e.range.Meets place) (hname : r.variableName? = some name) :
    values.get? name = some e.value ∧ t.nameAt? e.range.start = some name := by
  obtain ⟨name', hvalue, hnamed⟩ := he.exists_name
  obtain ⟨offset, hin, hin'⟩ := hmeets
  have hplace := ByteRange.contains_iff.1 hin'
  have hat := (nameAt?_of_mem_ranges hmem hplace.1 hplace.2).trans hname
  rcases Option.some.inj (hat.symm.trans (hnamed offset hin)) with rfl
  exact ⟨hvalue, hnamed _ (ByteRange.contains_iff.2 ⟨Nat.le_refl _, he.nonempty⟩)⟩

/-- What no clip takes of a variable with a new value lies outside the range. -/
theorem not_contains_of_not_taken {value : String} (hmem : (place, r) ∈ t.ranges)
    (hname : r.variableName? = some name) (hvalue : values.get? name = some value)
    (hin : place.contains offset)
    (hfree : ∀ e ∈ t.edits values range, e.range.Meets place → ¬ e.range.contains offset) :
    ¬ range.contains offset := by
  intro hrange
  have hbyte := ByteRange.contains_iff.1 hin
  have hat := (nameAt?_of_mem_ranges hmem hbyte.1 hbyte.2).trans hname
  obtain ⟨e, he, htaken⟩ := exists_clip hat hvalue hrange
  exact hfree e (mem_edits_iff_isClip.2 he) ⟨offset, htaken, hin⟩ htaken

/-! ## Names before and after -/

/-- What an update does to the names of variables, wherever the range cuts the text. -/
structure KeepsNames (t : Text) (values : OrderedMap String String) (within : Option ByteRange) :
    Prop where
  /-- No name is new. -/
  old : ∀ name, ((t.updated values within).variableTexts none).contains name →
    (t.variableTexts none).contains name
  /-- A name stays, unless its new value is empty. -/
  kept : ∀ name, (t.variableTexts none).contains name → values.get? name ≠ some "" →
    ((t.updated values within).variableTexts none).contains name
  /-- A name that stays with an empty value has a byte outside the range. -/
  emptied : ∀ name, values.get? name = some "" →
    ((t.updated values within).variableTexts none).contains name →
    ∃ offset, t.nameAt? offset = some name ∧ ¬ (within.getD t.extent).contains offset
  /-- Where the range cuts the text at boundaries, a byte outside is enough. -/
  outside : t.Admits (within.getD t.extent) → ∀ name offset, t.nameAt? offset = some name →
    ¬ (within.getD t.extent).contains offset →
    ((t.updated values within).variableTexts none).contains name

/-- A variable is shown if a run that shows something has its name. -/
theorem contains_iff_exists_run : (t.variableTexts none).contains name ↔
    ∃ r ∈ t.runs, ¬ r.isEmpty ∧ r.variableName? = some name :=
  contains_variableTexts_none_iff.trans exists_nameAt?_iff

/-- The name of a run that an update leaves was there before. -/
theorem contains_of_contains_updated
    (h : ((t.updated values within).variableTexts none).contains name) :
    (t.variableTexts none).contains name := by
  obtain ⟨w, hw, hne, hname⟩ := contains_iff_exists_run.1 h
  obtain ⟨place, r, out, hmem, hedited, hout⟩ := exists_run_of_mem_updated hw
  rw [hedited.variableName? hout] at hname
  have hlt : place.start < place.stop := by
    cases hedited with
    | kept =>
      rw [List.mem_singleton.1 hout] at hne
      exact (not_isEmpty_iff_of_mem_ranges hmem).1 hne
    | cut mem meets =>
      rw [ByteRange.meets_iff] at meets
      omega
  exact contains_variableTexts_none_iff.2
    ⟨place.start, (nameAt?_of_mem_ranges hmem (Nat.le_refl _) hlt).trans hname⟩

/-- A name stays, as its run does or the new value in its place. -/
theorem contains_updated_of_ne_empty (h : (t.variableTexts none).contains name)
    (hvalue : values.get? name ≠ some "") :
    ((t.updated values within).variableTexts none).contains name := by
  obtain ⟨offset, hat⟩ := contains_variableTexts_none_iff.1 h
  obtain ⟨place, r, hmem, hstart, hstop, hname⟩ := exists_mem_ranges_of_nameAt? hat
  have hne := (not_isEmpty_iff_of_mem_ranges hmem).2 (by omega)
  obtain ⟨out, hedited, hsub⟩ := exists_edited_of_mem_ranges values within hmem
  rw [contains_iff_exists_run]
  cases hedited with
  | kept => exact ⟨r, hsub r (List.mem_singleton_self r), hne, hname⟩
  | @cut e mem meets =>
    -- The value of the clip is written in the run where it starts, which has the same name.
    have hclip := mem_edits_iff_isClip.1 mem
    obtain ⟨hnew, hat'⟩ := hclip.get?_of_meets hmem meets hname
    obtain ⟨first, r', hfirst, hle, hlt, hsame⟩ := exists_mem_ranges_of_nameAt? hat'
    have hmeets : e.range.Meets first :=
      ⟨e.range.start, ByteRange.contains_iff.2 ⟨Nat.le_refl _, hclip.nonempty⟩,
        ByteRange.contains_iff.2 ⟨hle, hlt⟩⟩
    obtain ⟨out', hedited', hsub'⟩ := exists_edited_of_mem_ranges values within hfirst
    cases hedited' with
    | kept apart => exact absurd hmeets (apart e mem)
    | @cut f _ _ only =>
      rcases only e mem hmeets with rfl
      refine ⟨r'.withValue e.value, hsub' _ ?_, ?_, ?_⟩
      · rw [if_pos (ByteRange.contains_iff.2 ⟨hle, hlt⟩)]
        simp
      · rw [Run.isEmpty_withValue, decide_eq_true_eq]
        intro hempty
        exact hvalue (hempty ▸ hnew)
      · rw [Run.variableName?_withValue, hsame]

/-- With an empty value, a name only stays where no clip takes the byte. -/
theorem exists_outside_of_contains_updated (hvalue : values.get? name = some "")
    (h : ((t.updated values within).variableTexts none).contains name) :
    ∃ offset, t.nameAt? offset = some name ∧ ¬ (within.getD t.extent).contains offset := by
  obtain ⟨w, hw, hne, hname⟩ := contains_iff_exists_run.1 h
  obtain ⟨place, r, out, hmem, hedited, hout⟩ := exists_run_of_mem_updated hw
  rw [hedited.variableName? hout] at hname
  have hbyte : ∀ offset, place.start ≤ offset → offset < place.stop →
      (∀ e ∈ t.edits values (within.getD t.extent), e.range.Meets place →
        ¬ e.range.contains offset) →
      ∃ offset, t.nameAt? offset = some name ∧ ¬ (within.getD t.extent).contains offset := by
    intro offset hstart hstop hfree
    exact ⟨offset, (nameAt?_of_mem_ranges hmem hstart hstop).trans hname,
      not_contains_of_not_taken hmem hname hvalue (ByteRange.contains_iff.2 ⟨hstart, hstop⟩) hfree⟩
  cases hedited with
  | kept apart =>
    rw [List.mem_singleton.1 hout] at hne
    exact hbyte place.start (Nat.le_refl _) ((not_isEmpty_iff_of_mem_ranges hmem).1 hne)
      fun e he hmeets => absurd hmeets (apart e he)
  | @cut e mem meets only =>
    have hfree : ∀ offset, ¬ e.range.contains offset →
        ∀ f ∈ t.edits values (within.getD t.extent), f.range.Meets place →
        ¬ f.range.contains offset := by
      intro offset hout f hf hmeets
      rw [only f hf hmeets]
      exact hout
    have hnew := ((mem_edits_iff_isClip.1 mem).get?_of_meets hmem meets hname).1
    rw [ByteRange.meets_iff] at meets
    rcases List.mem_append.1 hout with hout | hout
    · split at hout
      · rcases List.mem_append.1 hout with hout | hout
        · -- something is left before the clip
          have hlt := (Run.of_mem_between hout).2
          refine hbyte place.start (Nat.le_refl _) (by omega) (hfree _ ?_)
          rw [ByteRange.contains_iff]
          omega
        · rw [List.mem_singleton.1 hout, Run.isEmpty_withValue, decide_eq_true_eq] at hne
          exact absurd (Option.some.inj (hnew.symm.trans hvalue)) hne
      · cases hout
    · -- something is left behind it
      have hlt := (Run.of_mem_between hout).2
      refine hbyte e.range.stop (by omega) (by omega) (hfree _ ?_)
      rw [ByteRange.contains_iff]
      omega

/-- A byte outside the range keeps its name in the text, if no cut goes through a character. -/
theorem contains_updated_of_outside (hadmits : t.Admits (within.getD t.extent))
    (hat : t.nameAt? offset = some name) (houtside : ¬ (within.getD t.extent).contains offset) :
    ((t.updated values within).variableTexts none).contains name := by
  obtain ⟨place, r, hmem, hstart, hstop, hname⟩ := exists_mem_ranges_of_nameAt? hat
  obtain ⟨out, hedited, hsub⟩ := exists_edited_of_mem_ranges values within hmem
  have hrewritten := (pending_edits values hadmits).rewritten hmem hedited
  have hkept : ∀ {cs : List Char}, cs ≠ [] → (∀ w ∈ r.remainder cs, w ∈ out) →
      ((t.updated values within).variableTexts none).contains name := by
    intro cs hcs hpart
    refine contains_iff_exists_run.2 ⟨{ r with text := String.ofList cs }, hsub _ (hpart _ ?_), ?_,
      hname⟩
    · rw [Run.remainder, if_neg hcs]
      exact List.mem_singleton_self _
    · rw [Run.isEmpty_iff, Run.chars_mk, String.toList_ofList]
      exact hcs
  cases hrewritten with
  | kept =>
    have hne := (not_isEmpty_iff_of_mem_ranges hmem).2 (by omega)
    refine hkept (mt Run.isEmpty_iff.2 hne) ?_
    rw [Run.remainder_chars hne]
    exact fun w hw => hw
  | @cut e left old right mem meets only split start stop =>
    obtain ⟨whole, hrange, hle, hle'⟩ := (mem_edits_iff_isClip.1 mem).exists_whole hmem meets
    have hclip : e.range.start = max whole.start (within.getD t.extent).start ∧
        e.range.stop = min whole.stop (within.getD t.extent).stop := by
      rw [hrange]
      exact ⟨rfl, rfl⟩
    rw [ByteRange.contains_iff] at houtside
    -- What is outside of the range is in front of the clip or behind it, and stays there.
    by_cases hbefore : offset < (within.getD t.extent).start
    · have hleft : left ≠ [] := by
        rintro rfl
        rw [Chars.byteLength_nil] at start
        omega
      exact hkept hleft fun w hw => by simp [hw]
    · have hright : right ≠ [] := by
        rintro rfl
        rw [Chars.byteLength_nil] at stop
        omega
      exact hkept hright fun w hw => by simp [hw]

/-- No name is new after an update, and a name goes away only if its new value is empty and the
range holds all of its variable. -/
theorem updated_keeps_names (t : Text) (values : OrderedMap String String)
    (within : Option ByteRange) : t.KeepsNames values within where
  old _ := contains_of_contains_updated
  kept _ := contains_updated_of_ne_empty
  emptied _ := exists_outside_of_contains_updated
  outside hadmits _ _ := contains_updated_of_outside hadmits

/-- A variable that takes the empty value is gone. -/
theorem template_loses_name :
    ((template "Ada" "name").variableTexts none).contains "name" ∧
      ¬ (((template "Ada" "name").updated (.ofList [("name", "")]) none).variableTexts
        none).contains "name" := by
  decide

end Text

end StyledText
