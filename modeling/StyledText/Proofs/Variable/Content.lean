import StyledText.Proofs.Text.Content
import StyledText.Proofs.Variable.Clip
import StyledText.Text.Variable.Reading
import Mathlib.Data.List.Sort

/-!
# Variables are content

What is read of the variables does not depend on how a text is cut into runs.

* A byte finds the same texts among its attributes in texts of the same content
  (`SameContent.textAt?_eq`), so it has the same name in both.
* Names decide on the stretches, so texts of the same content have the same ones
  (`SameContent.stretches_eq`).
* All that is read is said by stretches and characters (`SameContent.variableTexts_eq`,
  `SameContent.nextVariable?_eq`), and so are the edits of an update (`SameContent.edits_eq`).
-/

namespace StyledText.Text

open Variable

/-! ## Attributes of bytes -/

/-- The attributes of the byte at `offset`, in runs that start at `base`. -/
def attributesFrom? (base : Nat) (runs : List Run) (offset : Nat) : Option Attributes :=
  ((locate base runs).find? fun e => e.1.contains offset).map (·.2.attributes)

def textAt? (t : Text) (key : Attribute.Key) (offset : Nat) : Option String :=
  (t.runAt? offset).bind (·.attributes.text? key)

theorem textAt?_eq (t : Text) (key : Attribute.Key) (offset : Nat) :
    t.textAt? key offset = (attributesFrom? 0 t.runs offset).bind (·.text? key) := by
  unfold textAt? runAt? attributesFrom? ranges
  rw [Option.bind_map, Option.bind_map]
  rfl

/-- An offset is in the first run or behind it. -/
theorem attributesFrom?_cons (base : Nat) (r : Run) (rest : List Run) (offset : Nat) :
    attributesFrom? base (r :: rest) offset =
      if base ≤ offset ∧ offset < base + r.length then some r.attributes
      else attributesFrom? (base + r.length) rest offset := by
  unfold attributesFrom?
  rw [locate, List.find?_cons]
  split
  · next hin =>
    rw [ByteRange.contains_iff] at hin
    rw [if_pos hin]
    rfl
  · next hout =>
    have hnot : ¬ (base ≤ offset ∧ offset < base + r.length) := by
      intro h
      have hin := ByteRange.contains_iff (r := ⟨base, base + r.length⟩) |>.2 h
      rw [hin] at hout
      cases hout
    rw [if_neg hnot]

/-- Characters of one style give it to all their bytes. -/
theorem attributesFrom?_spell (base : Nat) (a : Attributes) (cs : List Char) (rest : List Run)
    (offset : Nat) :
    attributesFrom? base (Run.spell a cs ++ rest) offset =
      if base ≤ offset ∧ offset < base + Chars.byteLength cs then some a
      else attributesFrom? (base + Chars.byteLength cs) rest offset := by
  -- All characters of a run have its attributes, be it one run or many.
  induction cs generalizing base with
  | nil =>
    rw [Chars.byteLength_nil, if_neg (by omega)]
    rfl
  | cons c cs ih =>
    have hlen : Run.length { text := c.toString, attributes := a } = c.utf8Size := by
      simp [Run.length, Run.chars, Char.toString, Chars.byteLength]
    rw [Run.spell_cons, List.cons_append, attributesFrom?_cons, ih, hlen, Chars.byteLength,
      ← Nat.add_assoc]
    by_cases hfirst : base ≤ offset ∧ offset < base + c.utf8Size
    · rw [if_pos hfirst, if_pos (by omega)]
    · rw [if_neg hfirst]
      exact if_congr (by omega) rfl rfl

/-- The bytes of the items have the attributes of the runs. -/
theorem attributesFrom?_items (base : Nat) (runs : List Run) (offset : Nat) :
    attributesFrom? base (runs.flatMap Run.items) offset = attributesFrom? base runs offset := by
  induction runs generalizing base with
  | nil => rfl
  | cons r rest ih =>
    rw [List.flatMap_cons, attributesFrom?_cons]
    cases h : r.attributes.attachment? with
    | some =>
      rw [Run.items_of_attachment h, List.singleton_append, attributesFrom?_cons, ih]
    | none => rw [Run.items_of_no_attachment h, attributesFrom?_spell, ih, ← Run.length]

/-- Rows of runs that agree give their bytes attributes that agree. -/
theorem attributesFrom?_agree {l m : List Run} (h : Run.Agree l m) (base offset : Nat) :
    Option.Rel (fun a b => Attributes.alike a b) (attributesFrom? base l offset)
      (attributesFrom? base m offset) := by
  unfold Run.Agree at h
  induction h generalizing base with
  | nil => exact .none
  | @cons r s _ _ hrs _ ih =>
    rw [attributesFrom?_cons, attributesFrom?_cons, Run.length_eq_of_alike hrs]
    split
    · exact .some (Run.alike_iff.1 hrs).2
    · exact ih _

/-! ## Stretches -/

/-- The stretches of a text, from left to right. -/
def stretches (t : Text) : List (String × ByteRange) := t.spans.map fun s => (s.name, s.range)

/-- The list has all stretches. -/
theorem mem_stretches_iff {t : Text} {name : String} {range : ByteRange} :
    (name, range) ∈ t.stretches ↔ t.IsStretch name range := by
  simp [stretches, ← mem_spans_iff_isStretch]

/-- Stretches start one after the other. -/
theorem stretches_sorted (t : Text) :
    t.stretches.Pairwise fun p q => p.2.start < q.2.start := by
  unfold stretches
  rw [List.pairwise_map]
  refine t.spans_sorted.imp_of_mem ?_
  intro a b ha _ hab
  have hne := (isStretch_of_mem_spans ha).nonempty
  exact Nat.lt_of_lt_of_le hne hab.1

/-- Stretches are a matter of names. -/
theorem stretches_eq_of_nameAt? {s t : Text} (h : ∀ offset, s.nameAt? offset = t.nameAt? offset) :
    s.stretches = t.stretches := by
  have hstretch : ∀ name range, s.IsStretch name range ↔ t.IsStretch name range := by
    intro name range
    constructor
    · rintro ⟨hne, hnamed, hleft, hright⟩
      simp only [h] at hnamed hleft hright
      exact ⟨hne, hnamed, hleft, hright⟩
    · rintro ⟨hne, hnamed, hleft, hright⟩
      simp only [← h] at hnamed hleft hright
      exact ⟨hne, hnamed, hleft, hright⟩
  -- The starts put both rows in the same order, so equal members make equal rows.
  have hirrefl : Std.Irrefl fun p q : String × ByteRange => p.2.start < q.2.start :=
    ⟨fun _ => Nat.lt_irrefl _⟩
  have hantisymm : Std.Antisymm fun p q : String × ByteRange => p.2.start < q.2.start :=
    ⟨fun _ _ hlt hgt => absurd hlt (Nat.lt_asymm hgt)⟩
  refine s.stretches_sorted.eq_of_mem_iff t.stretches_sorted ?_
  rintro ⟨name, range⟩
  rw [mem_stretches_iff, mem_stretches_iff, hstretch]

/-! ## What is read off the stretches -/

/-- There are variables if there are stretches. -/
theorem hasVariables_eq (t : Text) : t.hasVariables = !t.stretches.isEmpty := by
  rw [hasVariables, stretches, List.isEmpty_map]

theorem variableTexts_eq (t : Text) (range : Option ByteRange) :
    t.variableTexts range = .ofList (t.stretches.filterMap fun p =>
      let clip := p.2.inter (range.getD t.extent)
      if clip.isEmpty then none else (t.slice? clip).map (p.1, ·)) := by
  rw [variableTexts, stretches, List.filterMap_map]
  rfl

theorem edits_eq (t : Text) (values : OrderedMap String String) (range : ByteRange) :
    t.edits values range = t.stretches.filterMap fun p =>
      let clip := p.2.inter range
      (values.get? p.1).bind fun value => if clip.isEmpty then none else some ⟨clip, value⟩ := by
  rw [edits, stretches, List.filterMap_map]
  rfl

/-- The nearest stretch in one direction, and the part of it that is looked at. -/
def nextStretch? (t : Text) (offset : Nat) : Direction → Option (String × ByteRange)
  | .forward =>
    (t.stretches.find? fun p => offset < p.2.stop).map fun p =>
      (p.1, ⟨max p.2.start offset, p.2.stop⟩)
  | .backward =>
    (t.stretches.reverse.find? fun p => p.2.start < offset).map fun p =>
      (p.1, ⟨p.2.start, min p.2.stop offset⟩)

theorem nextStretch?_eq (t : Text) (offset : Nat) (direction : Direction) :
    t.nextStretch? offset direction =
      (t.nextSpan? offset direction).map fun e => (e.1.name, e.2) := by
  cases direction with
  | forward =>
    rw [nextStretch?, nextSpan?, stretches, List.find?_map, Option.map_map, Option.map_map]
    rfl
  | backward =>
    rw [nextStretch?, nextSpan?, stretches, ← List.map_reverse, List.find?_map, Option.map_map,
      Option.map_map]
    rfl

/-- The next variable is told by its stretch. -/
theorem nextVariable?_eq (t : Text) (offset : Nat) (direction : Direction) :
    t.nextVariable? offset direction = (t.nextStretch? offset direction).bind fun p =>
      (t.textAt? .variableValue p.2.start <|> t.slice? p.2).map (p.1, ·) := by
  rw [nextStretch?_eq, Option.bind_map]
  rfl

/-! ## Texts of the same content -/

namespace SameContent

variable {s t : Text}

theorem textAt?_eq (h : s.SameContent t) (key : Attribute.Key) (offset : Nat) :
    s.textAt? key offset = t.textAt? key offset := by
  have hattributes := attributesFrom?_agree h 0 offset
  rw [items, items, attributesFrom?_items, attributesFrom?_items] at hattributes
  rw [Text.textAt?_eq, Text.textAt?_eq]
  generalize attributesFrom? 0 s.runs offset = a at hattributes
  generalize attributesFrom? 0 t.runs offset = b at hattributes
  cases hattributes with
  | none => rfl
  | some halike => exact Attributes.text?_eq_of_alike halike key

theorem stretches_eq (h : s.SameContent t) : s.stretches = t.stretches :=
  stretches_eq_of_nameAt? (h.textAt?_eq .variableName)

theorem slice?_eq (h : s.SameContent t) (range : ByteRange) : s.slice? range = t.slice? range := by
  rw [slice?, slice?, h.chars_eq]

theorem extent_eq (h : s.SameContent t) : s.extent = t.extent := by
  rw [extent, extent, length_eq_byteLength, length_eq_byteLength, h.chars_eq]

theorem admits_iff (h : s.SameContent t) (range : ByteRange) : s.Admits range ↔ t.Admits range := by
  unfold Admits CutsAt
  rw [length_eq_byteLength, length_eq_byteLength, h.chars_eq]

theorem hasVariables_eq (h : s.SameContent t) : s.hasVariables = t.hasVariables := by
  rw [Text.hasVariables_eq, Text.hasVariables_eq, h.stretches_eq]

theorem variableTexts_eq (h : s.SameContent t) (range : Option ByteRange) :
    s.variableTexts range = t.variableTexts range := by
  rw [Text.variableTexts_eq, Text.variableTexts_eq, h.stretches_eq, h.extent_eq]
  simp only [h.slice?_eq]

theorem nextVariable?_eq (h : s.SameContent t) (offset : Nat) (direction : Direction) :
    s.nextVariable? offset direction = t.nextVariable? offset direction := by
  have hnext : s.nextStretch? offset direction = t.nextStretch? offset direction := by
    cases direction <;> rw [nextStretch?, nextStretch?, h.stretches_eq]
  rw [Text.nextVariable?_eq, Text.nextVariable?_eq, hnext]
  simp only [h.textAt?_eq, h.slice?_eq]

/-- An update replaces the same bytes by the same values. -/
theorem edits_eq (h : s.SameContent t) (values : OrderedMap String String) (range : ByteRange) :
    s.edits values range = t.edits values range := by
  rw [Text.edits_eq, Text.edits_eq, h.stretches_eq]

end SameContent

end StyledText.Text
