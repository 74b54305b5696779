import StyledText.Proofs.Variable.Content
import StyledText.Proofs.Variable.Names

/-!
# Reading and updating one range

The variables in a range are read in one pass and updated in another. Both find the same stretches,
those with a byte in the range.

* `get?_variableTexts_eq_some_iff`: a name shows what lies in the range of its last stretch there.
* `runs_updated_eq`: the runs of an updated text are what is left of the old ones, and new ones.
* `new_mem_pieces_iff`: a new run is written for each clip, in the run where it starts.
* `updated_inserts_what_is_read` is the result for all ranges that cut the text at boundaries.
-/

namespace StyledText

open Variable

theorem ByteRange.not_isEmpty_inter_iff {r s : ByteRange} :
    ¬ (r.inter s).isEmpty ↔ r.Meets s := by
  rw [not_isEmpty_iff, meets_iff]
  rfl

/-! ## Pieces of an updated text -/

/-- A run that an update writes. -/
inductive Variable.Piece where
  /-- What is left of an old run, or all of it. -/
  | left (r : Run)
  /-- A new value, in the place of a clip. -/
  | new (r : Run)

def Variable.Piece.run : Piece → Run
  | .left r => r
  | .new r => r

/-- What is written for a run that stands at `place`. -/
def Run.pieces (clips : List Edit) (place : ByteRange) (r : Run) : List Piece :=
  match clips.find? fun e => e.range.Meets place with
  | none => [.left r]
  | some e =>
    (if place.contains e.range.start then
        (r.between place.start place.start e.range.start).map .left ++
          [.new (r.withValue e.value)]
      else []) ++
      (r.between place.start (min place.stop e.range.stop) place.stop).map .left

namespace Run

variable {clips : List Edit} {place : ByteRange} {r w : Run} {out : List Run}

theorem map_run_left (l : List Run) : (l.map Piece.left).map Piece.run = l := by
  rw [List.map_map]
  exact List.map_id l

/-- What comes of a run is its pieces. -/
theorem Edited.eq_map_pieces (h : r.Edited clips place out) :
    out = (r.pieces clips place).map Piece.run := by
  cases h with
  | kept apart =>
    have hnone : clips.find? (fun e => e.range.Meets place) = none :=
      List.find?_eq_none.2 fun e he => by simpa using apart e he
    rw [pieces, hnone]
    rfl
  | @cut e mem meets only =>
    have hfound : clips.find? (fun e => e.range.Meets place) = some e :=
      Text.find?_of_only mem (decide_eq_true meets) fun f hf hmeets =>
        only f hf (of_decide_eq_true hmeets)
    rw [pieces, hfound]
    simp only [List.map_append, map_run_left]
    split
    · rw [List.map_append, map_run_left]
      rfl
    · rfl

/-- Of a run, a new one is made where a clip starts in it. -/
theorem new_mem_pieces_iff : .new w ∈ r.pieces clips place ↔
    ∃ e, clips.find? (fun e => e.range.Meets place) = some e ∧ place.contains e.range.start ∧
      w = r.withValue e.value := by
  rw [pieces]
  cases clips.find? fun e => e.range.Meets place with
  | none => simp
  | some e => by_cases hin : place.contains e.range.start <;> simp [hin]

end Run

namespace Text

variable {t : Text} {name shown : String} {range whole : ByteRange} {w : Run}
  {values : OrderedMap String String} {within : Option ByteRange}

/-- What an update writes, from left to right. -/
def pieces (t : Text) (values : OrderedMap String String) (within : Option ByteRange) :
    List Piece :=
  t.ranges.flatMap fun p => p.2.pieces (t.edits values (within.getD t.extent)) p.1

/-- The runs of an update are its pieces, without their origin. -/
theorem runs_updated_eq (t : Text) (values : OrderedMap String String)
    (within : Option ByteRange) :
    (t.updated values within).runs = (t.pieces values within).map Piece.run := by
  obtain ⟨parts, hruns, hparts⟩ := exists_parts_updated t values within
  have hpieces : List.Forall₂ Eq (t.ranges.map fun p =>
      (p.2.pieces (t.edits values (within.getD t.extent)) p.1).map Piece.run) parts :=
    List.forall₂_map_left_iff.2 (hparts.imp fun _ _ hedited => hedited.eq_map_pieces.symm)
  rw [List.forall₂_eq_eq_eq] at hpieces
  rw [hruns, pieces, List.map_flatMap, List.flatMap_def, hpieces]

/-- A new run is written for each clip, in the run where it starts. -/
theorem new_mem_pieces_iff : .new w ∈ t.pieces values within ↔
    ∃ place r e, (place, r) ∈ t.ranges ∧ t.IsClip values (within.getD t.extent) e ∧
      place.contains e.range.start ∧ w = r.withValue e.value := by
  simp only [pieces, List.mem_flatMap, Run.new_mem_pieces_iff]
  constructor
  · rintro ⟨⟨place, r⟩, hmem, e, hfound, hin, rfl⟩
    exact ⟨place, r, e, hmem, mem_edits_iff_isClip.1 (List.mem_of_find?_eq_some hfound), hin, rfl⟩
  · rintro ⟨place, r, e, hmem, he, hin, rfl⟩
    have hmeets := he.meets_of_starts hin
    refine ⟨(place, r), hmem, e, ?_, hin, rfl⟩
    refine find?_of_only (mem_edits_iff_isClip.2 he) (decide_eq_true hmeets) fun f hf hmeets' => ?_
    exact he.eq_of_meets (mem_edits_iff_isClip.1 hf) hmem hmeets (of_decide_eq_true hmeets')

/-- An update writes a new run for the name. -/
def Inserts (t : Text) (values : OrderedMap String String) (within : Option ByteRange)
    (name : String) : Prop :=
  ∃ w, .new w ∈ t.pieces values within ∧ w.variableName? = some name

/-- The new run of a name shows its new value. -/
theorem get?_of_new_mem_pieces (hw : .new w ∈ t.pieces values within)
    (hname : w.variableName? = some name) : values.get? name = some w.text := by
  obtain ⟨place, r, e, hmem, he, hin, rfl⟩ := new_mem_pieces_iff.1 hw
  rw [Run.variableName?_withValue] at hname
  exact (he.get?_of_meets hmem (he.meets_of_starts hin) hname).1

/-- Names with a new value and a byte in the range get new runs, wherever the range cuts. -/
theorem inserts_iff : t.Inserts values within name ↔ values.contains name ∧
    ∃ offset, t.nameAt? offset = some name ∧ (within.getD t.extent).contains offset := by
  constructor
  · rintro ⟨w, hw, hname⟩
    refine ⟨?_, ?_⟩
    · rw [OrderedMap.contains, get?_of_new_mem_pieces hw hname, Option.isSome_some]
    · obtain ⟨place, r, e, hmem, he, hin, rfl⟩ := new_mem_pieces_iff.1 hw
      rw [Run.variableName?_withValue] at hname
      have hplace := ByteRange.contains_iff.1 hin
      exact ⟨e.range.start, (nameAt?_of_mem_ranges hmem hplace.1 hplace.2).trans hname,
        he.starts_inside⟩
  · rintro ⟨hcontains, offset, hat, hin⟩
    obtain ⟨value, hvalue⟩ := Option.isSome_iff_exists.1 hcontains
    obtain ⟨e, he, htaken⟩ := exists_clip hat hvalue hin
    -- The value goes into the run where the clip starts, which belongs to the same stretch.
    obtain ⟨name', hvalue', hnamed⟩ := he.exists_name
    have hsame : name' = name := Option.some.inj ((hnamed offset htaken).symm.trans hat)
    obtain ⟨place, r, hmem, hle, hlt, hname⟩ :=
      exists_mem_ranges_of_nameAt? (hnamed _ he.contains_start)
    refine ⟨r.withValue e.value, ?_, ?_⟩
    · exact new_mem_pieces_iff.2
        ⟨place, r, e, hmem, he, ByteRange.contains_iff.2 ⟨hle, hlt⟩, rfl⟩
    · rw [Run.variableName?_withValue, hname, hsame]

/-! ## What is read -/

/-- The last stretch of a name with a byte in a range. -/
structure IsLastIn (t : Text) (range : ByteRange) (name : String) (whole : ByteRange) : Prop where
  stretch : t.IsStretch name whole
  meets : whole.Meets range
  last : ∀ other, t.IsStretch name other → other.Meets range → other.start ≤ whole.start

/-- What a stretch shows of its name in a range. -/
theorem shown_eq_some_iff {p : String × ByteRange} :
    (if (p.2.inter range).isEmpty then none else (t.slice? (p.2.inter range)).map (p.1, ·)) =
        some (name, shown) ↔
      p.1 = name ∧ p.2.Meets range ∧ t.slice? (p.2.inter range) = some shown := by
  rw [← ByteRange.not_isEmpty_inter_iff]
  split
  · next hempty => simp [hempty]
  · next hne => simp [hne, and_comm]

/-- A name shows what lies in the range of its last stretch there. -/
theorem get?_variableTexts_eq_some_iff (hadmits : t.Admits (within.getD t.extent)) :
    (t.variableTexts within).get? name = some shown ↔
      ∃ whole, t.IsLastIn (within.getD t.extent) name whole ∧
        t.slice? (whole.inter (within.getD t.extent)) = some shown := by
  rw [variableTexts_eq, OrderedMap.get?_ofList_filterMap_eq_some_iff t.stretches_sorted
    fun _ _ => Nat.lt_asymm]
  simp only [shown_eq_some_iff]
  -- Every stretch with a byte in the range is read, as the range cuts through no character.
  constructor
  · rintro ⟨⟨_, whole⟩, hmem, ⟨rfl, hmeets, hshown⟩, hlast⟩
    refine ⟨whole, ⟨mem_stretches_iff.1 hmem, hmeets, ?_⟩, hshown⟩
    intro other hother hmeets'
    obtain ⟨s, hs⟩ := hother.exists_slice hadmits (ByteRange.not_isEmpty_inter_iff.2 hmeets')
    exact Nat.le_of_not_lt (hlast _ (mem_stretches_iff.2 hother) s ⟨rfl, hmeets', hs⟩)
  · rintro ⟨whole, ⟨hwhole, hmeets, hlast⟩, hshown⟩
    refine ⟨(name, whole), mem_stretches_iff.2 hwhole, ⟨rfl, hmeets, hshown⟩, ?_⟩
    rintro ⟨_, other⟩ hother s ⟨rfl, hmeets', -⟩
    exact Nat.not_lt_of_le (hlast other (mem_stretches_iff.1 hother) hmeets')

/-- The names in a range are those of the stretches with a byte there. -/
theorem contains_variableTexts_iff_exists_stretch (hadmits : t.Admits (within.getD t.extent)) :
    (t.variableTexts within).contains name ↔
      ∃ whole, t.IsStretch name whole ∧ whole.Meets (within.getD t.extent) := by
  rw [contains_variableTexts_iff hadmits]
  constructor
  · rintro ⟨offset, hat, hin⟩
    obtain ⟨s, hs, rfl, hstart, hstop⟩ := nameAt?_eq_some_iff.1 hat
    exact ⟨s.range, isStretch_of_mem_spans hs, offset,
      ByteRange.contains_iff.2 ⟨hstart, hstop⟩, hin⟩
  · rintro ⟨whole, hwhole, offset, hin, hin'⟩
    rw [ByteRange.contains_iff] at hin
    exact ⟨offset, hwhole.named offset hin.1 hin.2, hin'⟩

/-! ## Both -/

/-- What is read in a range, and what an update of the same range writes. -/
structure InsertsWhatIsRead (t : Text) (within : Option ByteRange) : Prop where
  /-- The names are those of the stretches with a byte in the range. -/
  names : ∀ name, (t.variableTexts within).contains name ↔
    ∃ whole, t.IsStretch name whole ∧ whole.Meets (within.getD t.extent)
  /-- Each shows what lies in the range of its last stretch there. -/
  shown : ∀ name shown, (t.variableTexts within).get? name = some shown ↔
    ∃ whole, t.IsLastIn (within.getD t.extent) name whole ∧
      t.slice? (whole.inter (within.getD t.extent)) = some shown
  /-- An update leaves parts of the old runs, and inserts new ones. -/
  runs : ∀ values, (t.updated values within).runs = (t.pieces values within).map Piece.run
  /-- New runs are for the names that are read and have a new value. -/
  inserted : ∀ values name, t.Inserts values within name ↔
    values.contains name ∧ (t.variableTexts within).contains name
  /-- They show that value. -/
  value : ∀ values name w, .new w ∈ t.pieces values within → w.variableName? = some name →
    values.get? name = some w.text

/-- Where a range cuts a text at boundaries, an update inserts new runs for just the names that are
read there. -/
theorem updated_inserts_what_is_read (t : Text) (within : Option ByteRange)
    (h : ∀ r, within = some r → t.Admits r) : t.InsertsWhatIsRead within := by
  have hadmits : t.Admits (within.getD t.extent) := by
    cases within with
    | none => exact t.admits_extent
    | some r => exact h r rfl
  refine ⟨?_, ?_, ?_, ?_, ?_⟩
  · exact fun _ => contains_variableTexts_iff_exists_stretch hadmits
  · exact fun _ _ => get?_variableTexts_eq_some_iff hadmits
  · exact fun values => runs_updated_eq t values within
  · intro values name
    rw [inserts_iff, contains_variableTexts_iff hadmits]
  · exact fun _ _ _ => get?_of_new_mem_pieces

/-- From inside the first variable of a letter into the second one. -/
theorem letter_inserts_what_is_read :
    letter.Admits ⟨4, 8⟩ ∧ letter.InsertsWhatIsRead (some ⟨4, 8⟩) := by
  have hadmits : letter.Admits ⟨4, 8⟩ := .inr ⟨.inl (by decide), .inl (by decide)⟩
  refine ⟨hadmits, updated_inserts_what_is_read letter (some ⟨4, 8⟩) ?_⟩
  rintro _ ⟨⟩
  exact hadmits

end Text

end StyledText
