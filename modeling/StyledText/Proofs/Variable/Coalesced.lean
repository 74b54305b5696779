import StyledText.Proofs.Variable.Content
import StyledText.Proofs.Variable.Update

/-!
# Updates of coalesced texts

Coalescing moves all borders of runs, and an update works run by run. Still it does not matter which
comes first.

* An update can be written out character by character (`respell`), with only the runs that carry an
  attachment taken as a whole (`itemsWritten`). What it leaves has the items said there
  (`items_editRuns`), whether it is made of the runs or of the items (`items_updated_spelled`).
* So texts of the same content have the same content after an update (`SameContent.updated`).
* `coalesced_isInvisible` is the result.
-/

namespace StyledText

open Variable

namespace Run

variable {clips : List Edit} {a : Attributes} {base : Nat} {r s : Run}

/-! ## Characters of one style -/

/-- What is left of characters of one style, the first of which is the byte `base`: the value of a
clip where the clip starts, none of its characters, and all others. -/
def respell (clips : List Edit) (a : Attributes) (base : Nat) : List Char → List Run
  | [] => []
  | c :: cs =>
    (match clips.find? fun e => e.range.contains base with
      | none => [{ text := c.toString, attributes := a }]
      | some e =>
        if e.range.start = base then (withValue { attributes := a } e.value).items else []) ++
      respell clips a (base + c.utf8Size) cs

theorem respell_append (cs ds : List Char) : respell clips a base (cs ++ ds) =
    respell clips a base cs ++ respell clips a (base + Chars.byteLength cs) ds := by
  induction cs generalizing base with
  | nil => simp [respell]
  | cons c cs ih =>
    rw [List.cons_append, respell, respell, ih, List.append_assoc, Chars.byteLength,
      ← Nat.add_assoc]

/-- Outside of the clips, characters stay. -/
theorem respell_of_outside (base : Nat) {cs : List Char}
    (h : ∀ offset, base ≤ offset → offset < base + Chars.byteLength cs →
      ∀ e ∈ clips, ¬ e.range.contains offset) : respell clips a base cs = spell a cs := by
  induction cs generalizing base with
  | nil => rfl
  | cons c cs ih =>
    have hpos := c.utf8Size_pos
    rw [Chars.byteLength] at h
    have hnone : clips.find? (fun e => e.range.contains base) = none :=
      List.find?_eq_none.2 (h base (Nat.le_refl _) (by omega))
    have hrest := ih (base + c.utf8Size) fun offset hle hlt => h offset (by omega) (by omega)
    rw [respell, hnone, hrest]
    rfl

/-- Inside of a clip, nothing stays, and its value stands at its start. -/
theorem respell_of_inside (a : Attributes) (base : Nat) {e : Edit} {cs : List Char} (he : e ∈ clips)
    (h : ∀ offset, base ≤ offset → offset < base + Chars.byteLength cs →
      e.range.contains offset ∧ ∀ f ∈ clips, f.range.contains offset → f = e) :
    respell clips a base cs =
      if cs ≠ [] ∧ e.range.start = base then (withValue { attributes := a } e.value).items
      else [] := by
  -- The value is written at the first character, and all others are inside of the clip too.
  induction cs generalizing base with
  | nil => simp [respell]
  | cons c cs ih =>
    have hpos := c.utf8Size_pos
    rw [Chars.byteLength] at h
    obtain ⟨hin, honly⟩ := h base (Nat.le_refl _) (by omega)
    have hfind : clips.find? (fun e => e.range.contains base) = some e := by
      cases hfound : clips.find? fun e => e.range.contains base with
      | none => exact absurd hin (List.find?_eq_none.1 hfound e he)
      | some f =>
        have hholds : f.range.contains base :=
          List.find?_some (p := fun e : Edit => e.range.contains base) hfound
        rw [honly f (List.mem_of_find?_eq_some hfound) hholds]
    have hrest := ih (base + c.utf8Size) fun offset hle hlt => h offset (by omega) (by omega)
    rw [ByteRange.contains_iff] at hin
    rw [respell, hfind, hrest, if_neg (by omega), List.append_nil]
    simp

/-- What remains of a run is spelled with its attributes. -/
theorem items_remainder (hnone : r.attributes.attachment? = none) (cs : List Char) :
    (r.remainder cs).flatMap items = spell r.attributes cs := by
  unfold remainder
  split
  · next hnil => rw [hnil, List.flatMap_nil, spell_nil]
  · have hitems := items_of_no_attachment (r := { r with text := String.ofList cs }) hnone
    rw [List.flatMap_singleton, hitems, chars, String.toList_ofList]

/-- What becomes of a run without an attachment can be said character by character. -/
theorem items_of_rewritten {out : List Run} (hnone : r.attributes.attachment? = none)
    (h : r.Rewritten clips ⟨base, base + r.length⟩ out) :
    out.flatMap items = respell clips r.attributes base r.chars := by
  cases h with
  | kept apart =>
    have houtside : respell clips r.attributes base r.chars = spell r.attributes r.chars := by
      refine respell_of_outside _ ?_
      intro offset hle hlt e he hin
      exact apart e he ⟨offset, hin, ByteRange.contains_iff.2 ⟨hle, hlt⟩⟩
    rw [List.flatMap_singleton, items_of_no_attachment hnone, houtside]
  | @cut e left old right mem meets only split start stop =>
    have hlen : r.length =
        Chars.byteLength left + Chars.byteLength old + Chars.byteLength right := by
      rw [length, split, Chars.byteLength_append, Chars.byteLength_append]
    have honly : ∀ offset, base ≤ offset → offset < base + r.length → ∀ f ∈ clips,
        f.range.contains offset → f = e := by
      intro offset hle hlt f hf hin
      exact only f hf ⟨offset, hin, ByteRange.contains_iff.2 ⟨hle, hlt⟩⟩
    rw [ByteRange.meets_iff] at meets
    simp only at meets start stop
    have hleft : respell clips r.attributes base left = spell r.attributes left := by
      refine respell_of_outside _ ?_
      intro offset hle hlt f hf hin
      rw [honly offset hle (by omega) f hf hin, ByteRange.contains_iff] at hin
      omega
    have hright : respell clips r.attributes
        (base + Chars.byteLength left + Chars.byteLength old) right =
          spell r.attributes right := by
      refine respell_of_outside _ ?_
      intro offset hle hlt f hf hin
      rw [honly offset (by omega) (by omega) f hf hin, ByteRange.contains_iff] at hin
      omega
    have hinside : ∀ offset, base + Chars.byteLength left ≤ offset →
        offset < base + Chars.byteLength left + Chars.byteLength old →
        e.range.contains offset ∧ ∀ f ∈ clips, f.range.contains offset → f = e :=
      fun offset hle hlt =>
        ⟨ByteRange.contains_iff.2 (by omega), honly offset (by omega) (by omega)⟩
    have hold := respell_of_inside r.attributes _ mem hinside
    -- the clip starts in this run exactly if it starts where its characters do
    have hstarts : (old ≠ [] ∧ e.range.start = base + Chars.byteLength left) ↔
        ByteRange.contains ⟨base, base + r.length⟩ e.range.start := by
      have hne : old ≠ [] := by
        rintro rfl
        rw [Chars.byteLength_nil] at hlen
        omega
      rw [ByteRange.contains_iff, and_iff_right hne]
      simp only
      omega
    rw [split, respell_append, respell_append, Chars.byteLength_append, ← Nat.add_assoc, hleft,
      hright, hold, if_congr hstarts rfl rfl, List.flatMap_append, List.flatMap_append,
      items_remainder hnone, items_remainder hnone]
    split <;> simp [withValue]

/-! ## Runs that agree -/

/-- Runs that are alike are cut alike. -/
theorem between_agree (h : r.alike s) (base start stop : Nat) :
    Agree (r.between base start stop) (s.between base start stop) := by
  obtain ⟨htext, hattributes⟩ := alike_iff.1 h
  unfold between
  rw [chars, chars, htext]
  split
  · exact .cons (alike_iff.2 ⟨rfl, hattributes⟩) .nil
  · exact .nil

theorem withValue_alike (h : r.alike s) (value : String) :
    (r.withValue value).alike (s.withValue value) :=
  alike_iff.2 ⟨rfl, Attributes.alike_insert (alike_iff.1 h).2 _ rfl⟩

end Run

namespace Text

variable {base : Nat} {runs : List Run} {clips : List Edit} {s t : Text}

/-! ## Rows of runs -/

/-- Runs that agree come out alike. -/
theorem editRun_agree {r r' : Run} (h : r.alike r') (base stop cursor : Nat) (edits : List Edit) :
    Run.Agree (editRun r base stop cursor edits).1 (editRun r' base stop cursor edits).1 ∧
      (editRun r base stop cursor edits).2 = (editRun r' base stop cursor edits).2 := by
  induction edits generalizing cursor with
  | nil => exact ⟨Run.between_agree h base cursor stop, rfl⟩
  | cons e rest ih =>
    obtain ⟨hmore, hleft⟩ := ih (max cursor (min e.range.stop stop))
    have hbetween := Run.between_agree h base
    have hwritten : Run.Agree
        (if cursor ≤ e.range.start then
          r.between base cursor e.range.start ++ [r.withValue e.value] else [])
        (if cursor ≤ e.range.start then
          r'.between base cursor e.range.start ++ [r'.withValue e.value] else []) := by
      split
      · exact (hbetween _ _).append (.cons (Run.withValue_alike h e.value) .nil)
      · exact .nil
    rw [editRun, editRun]
    split
    · exact ⟨hbetween cursor stop, rfl⟩
    · dsimp only
      split
      · exact ⟨hwritten.append (hbetween _ stop), rfl⟩
      · exact ⟨hwritten.append hmore, hleft⟩

/-- Runs that agree are edited alike. -/
theorem editRuns_agree {runs' : List Run} (h : Run.Agree runs runs') (base : Nat)
    (edits : List Edit) : Run.Agree (editRuns base edits runs) (editRuns base edits runs') := by
  unfold Run.Agree at h
  induction h generalizing base edits with
  | nil => exact .nil
  | @cons r r' _ _ hr _ ih =>
    obtain ⟨hwritten, hleft⟩ := editRun_agree hr base (base + r'.length) base edits
    rw [editRuns, editRuns, Run.isEmpty_eq_of_alike hr, Run.length_eq_of_alike hr]
    split
    · exact .cons hr (ih base edits)
    · dsimp only
      rw [hleft]
      exact hwritten.append (ih _ _)

/-- Texts that are alike are updated alike. -/
theorem updated_alike (h : s.alike t) (values : OrderedMap String String)
    (range : Option ByteRange) : (s.updated values range).alike (t.updated values range) := by
  have hcontent := SameContent.of_alike h
  rw [updated, updated, hcontent.extent_eq, hcontent.edits_eq]
  exact alike_iff.2 (editRuns_agree (alike_iff.1 h) 0 _)

/-- Updating keeps attributes numeric. -/
theorem isNumeric_updated (h : t.isNumeric) (values : OrderedMap String String)
    (range : Option ByteRange) : (t.updated values range).isNumeric :=
  alike_self_iff.1 (updated_alike (alike_self_iff.2 h) values range)

/-! ## Item by item -/

/-- The items that clips leave of runs that start at `base`. -/
def itemsWritten (clips : List Edit) : Nat → List Run → List Run
  | _, [] => []
  | base, r :: rest =>
    (if r.attributes.attachment?.isSome then
        (editRuns base (openAt base clips) [r]).flatMap Run.items
      else Run.respell clips r.attributes base r.chars) ++
      itemsWritten clips (base + r.length) rest

/-- Item by item, edited runs are what is written for them. -/
theorem items_editRuns (h : Pending base runs (openAt base clips)) :
    (editRuns base (openAt base clips) runs).flatMap Run.items =
      itemsWritten clips base runs := by
  induction runs generalizing base with
  | nil => rfl
  | cons r rest ih =>
    have htail := h.tail
    rw [openAt_openAt] at htail
    have hmore := ih htail
    by_cases hr : r.isEmpty
    · -- an empty run is copied and shows at most its attachment
      have hlen := Run.length_of_isEmpty hr
      rw [hlen, Nat.add_zero] at hmore
      rw [itemsWritten, editRuns, if_pos hr, hlen, Nat.add_zero, List.flatMap_cons, hmore]
      congr 1
      split
      · rw [editRuns, if_pos hr, editRuns, List.flatMap_singleton]
      · next hnone =>
        rw [Option.not_isSome_iff_eq_none] at hnone
        rw [Run.items_of_no_attachment hnone, Run.isEmpty_iff.1 hr]
        rfl
    · -- what the cursor writes of this run does not depend on the runs behind it
      obtain ⟨written, hrun, hwritten⟩ := editRun_spec h hr
      rw [openAt_openAt] at hrun
      have halone : editRuns base (openAt base clips) [r] = written := by
        rw [editRuns, if_neg hr]
        simp only [hrun, editRuns, List.append_nil]
      rw [itemsWritten, editRuns, if_neg hr]
      simp only [hrun, List.flatMap_append, hmore]
      congr 1
      split
      · rw [halone]
      · next hnone =>
        rw [Option.not_isSome_iff_eq_none] at hnone
        exact Run.items_of_rewritten hnone
          (hwritten.congr fun e => mem_openAt_iff_of_meets (Nat.le_refl _))

/-- What is written for spelled characters comes from the characters one by one. -/
theorem itemsWritten_spell {a : Attributes} (hnone : a.attachment? = none) (cs : List Char)
    (rest : List Run) : itemsWritten clips base (Run.spell a cs ++ rest) =
      Run.respell clips a base cs ++ itemsWritten clips (base + Chars.byteLength cs) rest := by
  -- each character is a run, so it is an item by itself
  induction cs generalizing base with
  | nil => simp [Run.respell]
  | cons c cs ih =>
    have hchars : Run.chars { text := c.toString, attributes := a } = [c] := by
      simp [Run.chars, Char.toString]
    have hone : Run.respell clips a base (c :: cs) =
        Run.respell clips a base [c] ++ Run.respell clips a (base + c.utf8Size) cs := by
      rw [← List.singleton_append, Run.respell_append]
      simp [Chars.byteLength]
    rw [Run.spell_cons, List.cons_append, itemsWritten, hnone, hone, Run.length, hchars, ih,
      Chars.byteLength, List.append_assoc]
    simp [Chars.byteLength, Nat.add_assoc]

/-- It makes no difference whether the clips meet the runs or their items. -/
theorem itemsWritten_items (base : Nat) (runs : List Run) :
    itemsWritten clips base (runs.flatMap Run.items) = itemsWritten clips base runs := by
  induction runs generalizing base with
  | nil => rfl
  | cons r rest ih =>
    rw [List.flatMap_cons, itemsWritten]
    cases h : r.attributes.attachment? with
    | some =>
      rw [Run.items_of_attachment h, List.singleton_append, itemsWritten, h, ih]
    | none =>
      rw [Run.items_of_no_attachment h, itemsWritten_spell h, ih, ← Run.length]
      rfl

/-- An update item by item. -/
theorem items_updated {values : OrderedMap String String} {range : Option ByteRange}
    (h : t.Admits (range.getD t.extent)) : (t.updated values range).items =
      itemsWritten (t.edits values (range.getD t.extent)) 0 t.runs := by
  have hpending := pending_edits values h
  have hopen := openAt_eq_self hpending.opened
  rw [← hopen] at hpending
  have hitems := items_editRuns hpending
  rwa [hopen] at hitems

/-- Spelling out a text makes no difference to an update. -/
theorem items_updated_spelled (hnumeric : t.isNumeric) {values : OrderedMap String String}
    {range : Option ByteRange} (h : t.Admits (range.getD t.extent)) :
    (t.spelled.updated values range).items = (t.updated values range).items := by
  have hcontent := SameContent.spelled hnumeric
  have hspelled : t.spelled.Admits (range.getD t.spelled.extent) := by
    rwa [hcontent.extent_eq, hcontent.admits_iff]
  rw [items_updated h, items_updated hspelled, hcontent.extent_eq, hcontent.edits_eq]
  exact itemsWritten_items 0 t.runs

/-- The same update leaves the same content. -/
theorem SameContent.updated (hs : s.isNumeric) (ht : t.isNumeric) (hcontent : s.SameContent t)
    (values : OrderedMap String String) {range : Option ByteRange}
    (h : t.Admits (range.getD t.extent)) :
    (s.updated values range).SameContent (t.updated values range) := by
  have hadmits : s.Admits (range.getD s.extent) := by
    rwa [hcontent.extent_eq, hcontent.admits_iff]
  have hspelled := SameContent.of_alike (updated_alike hcontent.alike_spelled values range)
  rwa [SameContent, items_updated_spelled hs hadmits, items_updated_spelled ht h] at hspelled

/-! ## Coalescing -/

/-- Nothing that is read of the variables or written to them tells whether the text was coalesced
before. -/
theorem coalesced_isInvisible (t : Text) (h : t.isNumeric) :
    t.coalesced.hasVariables = t.hasVariables ∧
      (∀ range, t.coalesced.variableTexts range = t.variableTexts range) ∧
      (∀ offset direction,
        t.coalesced.nextVariable? offset direction = t.nextVariable? offset direction) ∧
      ∀ values range, (∀ r, range = some r → t.Admits r) →
        (t.updated values range).coalesced.alike (t.coalesced.updated values range).coalesced := by
  have hcontent := coalesced_sameContent h
  refine ⟨hcontent.hasVariables_eq, hcontent.variableTexts_eq, hcontent.nextVariable?_eq, ?_⟩
  intro values range hrange
  have hadmits : t.Admits (range.getD t.extent) := by
    cases range with
    | none => exact t.admits_extent
    | some r => exact hrange r rfl
  have hcoalesced := isNumeric_coalesced h
  refine (alike_coalesced_iff (isNumeric_updated h values range)
    (isNumeric_updated hcoalesced values range)).2 ?_
  exact (SameContent.updated hcoalesced h hcontent values hadmits).symm

/-- Of the letter, two runs become one, and an update that starts inside of it and ends in the next
variable makes the same of both. -/
theorem letter_coalesced_isInvisible :
    letter.isNumeric ∧ letter.Admits ⟨4, 8⟩ ∧ letter.coalesced.runs.length = 3 ∧
      letter.coalesced.hasVariables = letter.hasVariables ∧
      letter.coalesced.variableTexts (some ⟨4, 8⟩) = letter.variableTexts (some ⟨4, 8⟩) ∧
      letter.coalesced.nextVariable? 4 .backward = letter.nextVariable? 4 .backward ∧
      (letter.updated (.ofList [("name", "Al"), ("amount", "")]) (some ⟨4, 8⟩)).coalesced.alike
        (letter.coalesced.updated (.ofList [("name", "Al"), ("amount", "")])
          (some ⟨4, 8⟩)).coalesced := by
  have hnumeric : letter.isNumeric := by decide
  have hadmits : letter.Admits ⟨4, 8⟩ := .inr ⟨.inl (by decide), .inl (by decide)⟩
  obtain ⟨hvariables, htexts, hnext, hupdated⟩ := coalesced_isInvisible letter hnumeric
  refine ⟨hnumeric, hadmits, by decide, hvariables, htexts _, hnext _ _, hupdated _ _ ?_⟩
  rintro _ ⟨⟩
  exact hadmits

end Text

end StyledText
