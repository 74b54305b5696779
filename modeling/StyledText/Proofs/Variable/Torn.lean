import StyledText.Proofs.Chars.Places
import StyledText.Proofs.Variable.Names

/-!
# Ranges that cut through characters

The range of an update may start or end inside a character. What lies in the run on the far side
of such a cut cannot be sliced off, and is lost.

* `splice` replaces clips character by character: each value stands where its clip starts, and some
  characters go.
* A character goes if a clip has a byte of it (`Touched`), or if it is torn off (`Torn`): it stands
  in the run of a clip, on a side where the clip cuts through a character.
* `Run.Edited.chars_eq_splice` says so of one run, `chars_updated` of a text.
* `keepsOutside_iff`: no more is lost than what the clips touch, exactly if nothing is torn off.
* `updated_loses_torn` is the result for all ranges.
-/

namespace StyledText

open Variable

namespace Text

/-! ## Characters before and after -/

/-- The value of the clip that starts in a place. -/
def valueAt (clips : List Edit) (place : ByteRange) : List Char :=
  match clips.find? fun e => place.contains e.range.start with
  | some e => e.value.toList
  | none => []

/-- The characters from byte `base` on, with the value of each clip where it starts, and without the
characters that go. -/
def splice (clips : List Edit) (goes : ByteRange → Bool) (base : Nat) (cs : List Char) :
    List Char :=
  (Chars.locate base cs).flatMap fun p =>
    valueAt clips p.1 ++ if goes p.1 then [] else [p.2]

/-- Some clip has a byte in the place. -/
def Touched (clips : List Edit) (place : ByteRange) : Prop := ∃ e ∈ clips, e.range.Meets place

/-- A clip has a byte in the run around the place, and it starts behind the place, or ends before
it, inside a character. -/
def Torn (t : Text) (clips : List Edit) (place : ByteRange) : Prop :=
  ∃ p ∈ t.ranges, p.1.start ≤ place.start ∧ place.stop ≤ p.1.stop ∧
    ∃ e ∈ clips, e.range.Meets p.1 ∧
      (place.stop ≤ e.range.start ∧ ¬ Chars.isBoundary e.range.start t.chars ∨
        e.range.stop ≤ place.start ∧ ¬ Chars.isBoundary e.range.stop t.chars)

instance (clips : List Edit) (place : ByteRange) : Decidable (Touched clips place) :=
  inferInstanceAs (Decidable (∃ e ∈ clips, e.range.Meets place))

instance (t : Text) (clips : List Edit) (place : ByteRange) : Decidable (t.Torn clips place) :=
  inferInstanceAs (Decidable (∃ p ∈ t.ranges, p.1.start ≤ place.start ∧ place.stop ≤ p.1.stop ∧
    ∃ e ∈ clips, e.range.Meets p.1 ∧
      (place.stop ≤ e.range.start ∧ ¬ Chars.isBoundary e.range.start t.chars ∨
        e.range.stop ≤ place.start ∧ ¬ Chars.isBoundary e.range.stop t.chars)))

/-- Only characters with a byte in a clip are lost. All others are there in their order, around the
values of the clips. -/
def KeepsOutside (t : Text) (clips : List Edit) (t' : Text) : Prop :=
  ∃ goes : ByteRange → Bool, (∀ place, goes place → Touched clips place) ∧
    t'.chars = splice clips goes 0 t.chars

section Splice

variable {clips : List Edit} {goes goes' : ByteRange → Bool} {base : Nat} {cs : List Char}

/-- Characters are spliced one after the other. -/
theorem splice_append (cs ds : List Char) : splice clips goes base (cs ++ ds) =
    splice clips goes base cs ++ splice clips goes (base + Chars.byteLength cs) ds := by
  rw [splice, Chars.locate_append, List.flatMap_append, splice, splice]

theorem splice_cons (c : Char) (cs : List Char) : splice clips goes base (c :: cs) =
    valueAt clips ⟨base, base + c.utf8Size⟩ ++
      (if goes ⟨base, base + c.utf8Size⟩ then [] else [c]) ++
      splice clips goes (base + c.utf8Size) cs := rfl

/-- Where no clip starts, no value is written. -/
theorem valueAt_of_none {place : ByteRange}
    (h : ∀ e ∈ clips, ¬ place.contains e.range.start) : valueAt clips place = [] := by
  have hnone := List.find?_eq_none.2 h
  rw [valueAt, hnone]

/-- Where one clip starts, its value is written. -/
theorem valueAt_of_only {place : ByteRange} {e : Edit} (he : e ∈ clips)
    (hin : place.contains e.range.start)
    (only : ∀ f ∈ clips, place.contains f.range.start → f = e) :
    valueAt clips place = e.value.toList := by
  have hfound : clips.find? (fun f => place.contains f.range.start) = some e :=
    find?_of_only he hin only
  rw [valueAt, hfound]

/-- Where no clip starts and nothing goes, all stays. -/
theorem splice_of_stays
    (h : ∀ p ∈ Chars.locate base cs, valueAt clips p.1 = [] ∧ goes p.1 = false) :
    splice clips goes base cs = cs := by
  induction cs generalizing base with
  | nil => rfl
  | cons c cs ih =>
    rw [Chars.locate, List.forall_mem_cons] at h
    rw [splice_cons, h.1.1, h.1.2, ih h.2]
    rfl

/-- Where no clip starts and all goes, nothing stays. -/
theorem splice_of_goes
    (h : ∀ p ∈ Chars.locate base cs, valueAt clips p.1 = [] ∧ goes p.1) :
    splice clips goes base cs = [] := by
  rw [splice, List.flatMap_eq_nil_iff]
  intro p hp
  rw [(h p hp).1, if_pos (h p hp).2]
  rfl

/-- Where no clip starts and the characters share one fate, all stay or all go. -/
theorem splice_of_uniform {stays : Bool}
    (h : ∀ p ∈ Chars.locate base cs, valueAt clips p.1 = [] ∧ (goes p.1 ↔ ¬ stays)) :
    splice clips goes base cs = if stays then cs else [] := by
  cases stays with
  | true => exact splice_of_stays fun p hp => ⟨(h p hp).1, by simpa using (h p hp).2⟩
  | false => exact splice_of_goes fun p hp => ⟨(h p hp).1, (h p hp).2.2 Bool.false_ne_true⟩

/-- What counts is which of the characters go. -/
theorem splice_congr (h : ∀ p ∈ Chars.locate base cs, goes p.1 = goes' p.1) :
    splice clips goes base cs = splice clips goes' base cs := by
  unfold splice
  refine List.flatMap_congr fun p hp => ?_
  rw [h p hp]

/-- What stays and what goes are all characters, beside the values. -/
theorem length_splice (clips : List Edit) (goes : ByteRange → Bool) (base : Nat) (cs : List Char) :
    (splice clips goes base cs).length +
        ((Chars.locate base cs).filter fun p => goes p.1).length =
      ((Chars.locate base cs).flatMap fun p => valueAt clips p.1).length + cs.length := by
  induction cs generalizing base with
  | nil => rfl
  | cons c cs ih =>
    have hrest := ih (base + c.utf8Size)
    rw [splice_cons, Chars.locate, List.filter_cons, List.flatMap_cons]
    cases goes ⟨base, base + c.utf8Size⟩ <;>
      simp only [Bool.false_eq_true, if_true, if_false, List.length_append, List.length_cons,
        List.length_nil] <;> omega

/-- If more goes, the result is another one. -/
theorem goes_of_splice_eq (h : splice clips goes base cs = splice clips goes' base cs)
    (hsub : ∀ place, goes place → goes' place) :
    ∀ p ∈ Chars.locate base cs, goes' p.1 → goes p.1 := by
  have hlen := length_splice clips goes base cs
  have hlen' := length_splice clips goes' base cs
  rw [← h] at hlen'
  have hfilter : (Chars.locate base cs).filter (fun p => goes p.1) =
      (Chars.locate base cs).filter fun p => goes' p.1 :=
    (List.monotone_filter_right _ fun p : ByteRange × Char => hsub p.1).eq_of_length (by omega)
  intro p hp hgoes
  have hmem : p ∈ (Chars.locate base cs).filter fun p => goes' p.1 :=
    List.mem_filter.2 ⟨hp, hgoes⟩
  rw [← hfilter] at hmem
  exact (List.mem_filter.1 hmem).2

end Splice

end Text

/-! ## One run -/

namespace Run

variable {t : Text} {clips : List Edit} {goes : ByteRange → Bool} {place q : ByteRange} {r : Run}
  {out : List Run} {base start stop : Nat}

/-- Nothing comes of a part with an end inside a character. -/
theorem between_of_not_isBoundary (h : ¬ Chars.isBoundary (start - base) r.chars ∨
    ¬ Chars.isBoundary (stop - base) r.chars) : r.between base start stop = [] := by
  unfold between
  cases hslice : Chars.slice? (start - base) (stop - base) r.chars with
  | none => rfl
  | some part =>
    obtain ⟨before, after, hsplit, hlen, hlen'⟩ := Chars.slice?_eq_some_iff.1 hslice
    rcases h with h | h
    · refine absurd (Chars.isBoundary_iff.2 ⟨before, part ++ after, ?_, hlen⟩) h
      rw [hsplit, List.append_assoc]
    · refine absurd (Chars.isBoundary_iff.2 ⟨before ++ part, after, hsplit, ?_⟩) h
      rw [Chars.byteLength_append]
      omega

/-- The clips that touch or tear a character have a byte in its run. -/
theorem exists_meets_of_goes (hmem : (place, r) ∈ t.ranges) (hstart : place.start ≤ q.start)
    (hlt : q.start < q.stop) (hstop : q.stop ≤ place.stop)
    (h : Text.Touched clips q ∨ t.Torn clips q) : ∃ e ∈ clips, e.range.Meets place := by
  rcases h with ⟨e, he, hmeets⟩ | ⟨p, hp, hle, hle', e, he, hmeets, -⟩
  · exact ⟨e, he, hmeets.of_within hstart hstop⟩
  · have hsame := Text.eq_of_mem_ranges q.start hp hmem
      (ByteRange.contains_iff.2 (by omega)) (ByteRange.contains_iff.2 (by simp only; omega))
    rw [hsame] at hmeets
    exact ⟨e, he, hmeets⟩

/-- If one clip alone has a byte in a run, it alone decides on the characters of the run. -/
theorem goes_iff_of_only {e : Edit} (hmem : (place, r) ∈ t.ranges) (he : e ∈ clips)
    (hmeets : e.range.Meets place) (only : ∀ f ∈ clips, f.range.Meets place → f = e)
    (hstart : place.start ≤ q.start) (hlt : q.start < q.stop) (hstop : q.stop ≤ place.stop) :
    Text.Touched clips q ∨ t.Torn clips q ↔ e.range.Meets q ∨
      q.stop ≤ e.range.start ∧ ¬ Chars.isBoundary e.range.start t.chars ∨
      e.range.stop ≤ q.start ∧ ¬ Chars.isBoundary e.range.stop t.chars := by
  refine or_congr ⟨?_, fun h => ⟨e, he, h⟩⟩ ⟨?_, ?_⟩
  · rintro ⟨f, hf, hmeets'⟩
    rwa [← only f hf (hmeets'.of_within hstart hstop)]
  · rintro ⟨p, hp, hle, hle', f, hf, hmeets', htorn⟩
    have hsame := Text.eq_of_mem_ranges q.start hp hmem
      (ByteRange.contains_iff.2 (by omega)) (ByteRange.contains_iff.2 (by simp only; omega))
    rw [hsame] at hmeets'
    rwa [← only f hf hmeets']
  · exact fun htorn => ⟨(place, r), hmem, hstart, hstop, e, he, hmeets, htorn⟩

/-- A clip starts at a character of a run only if it has a byte in the run. -/
theorem valueAt_of_not_start (hne : ∀ e ∈ clips, e.range.start < e.range.stop)
    (hstart : place.start ≤ q.start) (hstop : q.stop ≤ place.stop)
    (h : ∀ e ∈ clips, e.range.Meets place → ¬ q.contains e.range.start) :
    Text.valueAt clips q = [] := by
  refine Text.valueAt_of_none fun f hf hin => h f hf ?_ hin
  exact (ByteRange.meets_of_contains_start (hne f hf) hin).of_within hstart hstop

/-- A clip that alone has a byte in a run, with the characters of the run around it. -/
structure CutsOut (t : Text) (clips : List Edit) (goes : ByteRange → Bool) (place : ByteRange)
    (r : Run) (e : Edit) (left mid right : List Char) : Prop where
  run_mem : (place, r) ∈ t.ranges
  mem : e ∈ clips
  meets : e.range.Meets place
  only : ∀ f ∈ clips, f.range.Meets place → f = e
  nonempty : ∀ f ∈ clips, f.range.start < f.range.stop
  goes_iff : ∀ q, goes q ↔ Text.Touched clips q ∨ t.Torn clips q
  split : r.chars = left ++ mid ++ right
  around : Chars.Around place.start e.range left mid right

namespace CutsOut

variable {e : Edit} {left mid right cs : List Char} {p : ByteRange × Char}

/-- A run that a clip cuts has three parts. -/
theorem stop_eq (h : CutsOut t clips goes place r e left mid right) :
    place.stop = place.start + Chars.byteLength (left ++ mid ++ right) := by
  rw [← h.split]
  exact Text.stop_of_mem_locate h.run_mem

/-- What becomes of a character of the run. -/
theorem goes_char_iff (h : CutsOut t clips goes place r e left mid right)
    (hstart : place.start ≤ q.start) (hlt : q.start < q.stop) (hstop : q.stop ≤ place.stop) :
    goes q ↔ e.range.Meets q ∨ q.stop ≤ e.range.start ∧ ¬ Chars.isBoundary e.range.start t.chars ∨
      e.range.stop ≤ q.start ∧ ¬ Chars.isBoundary e.range.stop t.chars :=
  (h.goes_iff q).trans
    (goes_iff_of_only h.run_mem h.mem h.meets h.only hstart hlt hstop)

theorem valueAt_eq_nil (h : CutsOut t clips goes place r e left mid right)
    (hstart : place.start ≤ q.start) (hstop : q.stop ≤ place.stop)
    (hout : ¬ q.contains e.range.start) : Text.valueAt clips q = [] :=
  valueAt_of_not_start h.nonempty hstart hstop fun f hf hmeets => by rwa [h.only f hf hmeets]

/-- The clip cannot start at a character of which it has no byte. -/
theorem valueAt_of_apart (h : CutsOut t clips goes place r e left mid right)
    (hstart : place.start ≤ q.start) (hstop : q.stop ≤ place.stop) (hapart : ¬ e.range.Meets q) :
    Text.valueAt clips q = [] :=
  h.valueAt_eq_nil hstart hstop fun hin =>
    hapart (ByteRange.meets_of_contains_start (h.nonempty e h.mem) hin)

/-- What ends before the clip stays if the clip starts at a boundary. -/
theorem splice_left (h : CutsOut t clips goes place r e left mid right) :
    Text.splice clips goes place.start left =
      if Chars.isBoundary e.range.start t.chars then left else [] := by
  have hplace := h.stop_eq
  rw [Chars.byteLength_append, Chars.byteLength_append] at hplace
  -- No clip starts here, and the characters all stay or all go.
  refine Text.splice_of_uniform fun p hp => ?_
  obtain ⟨hstart, hlt, hstop⟩ := Chars.of_mem_locate hp
  have hle : p.1.stop ≤ e.range.start := by
    rcases h.around.before with rfl | hle
    · cases hp
    · omega
  have hne := h.nonempty e h.mem
  have hapart : ¬ e.range.Meets p.1 := by
    rw [ByteRange.meets_iff]
    omega
  have hlate : ¬ e.range.stop ≤ p.1.start := by omega
  refine ⟨h.valueAt_of_apart hstart (by omega) hapart, ?_⟩
  simp [h.goes_char_iff hstart hlt (by omega), hapart, hle, hlate]

/-- What starts behind the clip stays if the clip ends at a boundary. -/
theorem splice_right (h : CutsOut t clips goes place r e left mid right) :
    Text.splice clips goes (place.start + Chars.byteLength (left ++ mid)) right =
      if Chars.isBoundary e.range.stop t.chars then right else [] := by
  have hplace := h.stop_eq
  rw [Chars.byteLength_append] at hplace
  -- Likewise behind the clip.
  refine Text.splice_of_uniform fun p hp => ?_
  obtain ⟨hstart, hlt, hstop⟩ := Chars.of_mem_locate hp
  have hle : e.range.stop ≤ p.1.start := by
    rcases h.around.behind with rfl | hle
    · cases hp
    · omega
  have hne := h.nonempty e h.mem
  have hapart : ¬ e.range.Meets p.1 := by
    rw [ByteRange.meets_iff]
    omega
  have hearly : ¬ p.1.stop ≤ e.range.start := by omega
  refine ⟨h.valueAt_of_apart (by omega) (by omega) hapart, ?_⟩
  simp [h.goes_char_iff (by omega) hlt (by omega), hapart, hle, hearly]

/-- The first character of the clip has the value before it if the clip starts in this run. -/
theorem valueAt_first {c : Char} {rest : List Char}
    (h : CutsOut t clips goes place r e left (c :: rest) right)
    (hfirst : e.range.start < place.start + Chars.byteLength left + c.utf8Size) :
    Text.valueAt clips ⟨place.start + Chars.byteLength left,
      place.start + Chars.byteLength left + c.utf8Size⟩ =
        if place.contains e.range.start then e.value.toList else [] := by
  have hplace := h.stop_eq
  rw [Chars.byteLength_append, Chars.byteLength_append, Chars.byteLength_cons] at hplace
  split
  · next hin =>
    rw [ByteRange.contains_iff] at hin
    refine Text.valueAt_of_only h.mem (ByteRange.contains_iff.2 ⟨?_, hfirst⟩) ?_
    · rcases h.around.before with rfl | hle
      · exact hin.1
      · exact hle
    · intro f hf hstarts
      have hmeets := ByteRange.meets_of_contains_start (h.nonempty f hf) hstarts
      exact h.only f hf (hmeets.of_within (by simp only; omega) (by simp only; omega))
  · next hout =>
    refine h.valueAt_eq_nil (by simp only; omega) (by simp only; omega) ?_
    intro hstarts
    rw [ByteRange.contains_iff] at hout hstarts
    simp only at hstarts
    omega

/-- Of the clip itself, the value is there if the clip starts in this run. -/
theorem splice_mid (h : CutsOut t clips goes place r e left mid right) :
    Text.splice clips goes (place.start + Chars.byteLength left) mid =
      if place.contains e.range.start then e.value.toList else [] := by
  have hplace := h.stop_eq
  rw [Chars.byteLength_append, Chars.byteLength_append] at hplace
  obtain ⟨c, rest, rfl, hfirst⟩ := h.around.first
  have hgone : ∀ p ∈ Chars.locate (place.start + Chars.byteLength left) (c :: rest),
      goes p.1 := by
    intro p hp
    obtain ⟨hstart, hlt, hstop⟩ := Chars.of_mem_locate hp
    obtain ⟨hbehind, hbefore⟩ := h.around.mid_lt hp
    have hne := h.nonempty e h.mem
    rw [h.goes_char_iff (by omega) hlt (by omega), ByteRange.meets_iff]
    omega
  rw [Chars.locate, List.forall_mem_cons] at hgone
  rw [Chars.byteLength_cons] at hplace
  -- no clip starts at the characters behind the first one
  have hrest : Text.splice clips goes (place.start + Chars.byteLength left + c.utf8Size) rest =
      [] := by
    refine Text.splice_of_goes fun p hp => ⟨?_, hgone.2 p hp⟩
    obtain ⟨hstart, hlt, hstop⟩ := Chars.of_mem_locate hp
    refine h.valueAt_eq_nil (by omega) (by omega) ?_
    rw [ByteRange.contains_iff]
    omega
  rw [Text.splice_cons, hgone.1, if_pos rfl, hrest, h.valueAt_first hfirst, List.append_nil,
    List.append_nil]

/-- The part before the clip is left if the clip starts at a boundary. -/
theorem chars_between_left (h : CutsOut t clips goes place r e left mid right)
    (hin : place.contains e.range.start) :
    (r.between place.start place.start e.range.start).flatMap chars =
      if Chars.isBoundary e.range.start t.chars then left else [] := by
  rw [ByteRange.contains_iff] at hin
  have hsame := Text.isBoundary_iff_of_mem_ranges h.run_mem hin.1 (Nat.le_of_lt hin.2)
  split
  · next hb =>
    rw [hsame, h.split] at hb
    have hstart := h.around.start_eq hin.1 hb
    have hsplit : r.chars = [] ++ left ++ (mid ++ right) := by simp [h.split]
    rw [between_eq_remainder hsplit (by simp) hstart.symm, flatMap_chars_remainder]
  · next hb =>
    rw [hsame] at hb
    rw [between_of_not_isBoundary (.inr hb), List.flatMap_nil]

/-- The part behind the clip is left if the clip ends at a boundary. -/
theorem chars_between_right (h : CutsOut t clips goes place r e left mid right) :
    (r.between place.start (min place.stop e.range.stop) place.stop).flatMap chars =
      if Chars.isBoundary e.range.stop t.chars then right else [] := by
  have hplace := h.stop_eq
  have hmeets := h.meets
  rw [ByteRange.meets_iff] at hmeets
  have hsplit : r.chars = (left ++ mid) ++ right ++ [] := by simp [h.split]
  rw [Chars.byteLength_append] at hplace
  by_cases hends : e.range.stop < place.stop
  · have hsame : Chars.isBoundary e.range.stop t.chars ↔
        Chars.isBoundary (e.range.stop - place.start) r.chars :=
      Text.isBoundary_iff_of_mem_ranges h.run_mem (by omega) (by omega)
    rw [Nat.min_eq_right (Nat.le_of_lt hends)]
    split
    · next hb =>
      rw [hsame, h.split] at hb
      have hstop := h.around.stop_eq (by omega) (by rw [Chars.byteLength_append]; omega) hb
      rw [between_eq_remainder hsplit hstop.symm (by omega), flatMap_chars_remainder]
    · next hb =>
      rw [hsame] at hb
      rw [between_of_not_isBoundary (.inl hb), List.flatMap_nil]
  · -- the clip goes on behind the run, so nothing of it is left
    have hnil : right = [] := by
      rcases h.around.behind with rfl | hle
      · rfl
      · exact Chars.byteLength_eq_zero_iff.1 (by omega)
    rw [hnil] at hsplit hplace
    rw [Nat.min_eq_left (Nat.not_lt.1 hends), hnil, ite_self,
      between_eq_remainder hsplit hplace (by simp), flatMap_chars_remainder]

end CutsOut

/-- An edited run is its characters, spliced. -/
theorem Edited.chars_eq_splice (h : r.Edited clips place out) (hmem : (place, r) ∈ t.ranges)
    (hne : ∀ e ∈ clips, e.range.start < e.range.stop)
    (hgoes : ∀ q, goes q ↔ Text.Touched clips q ∨ t.Torn clips q) :
    out.flatMap chars = Text.splice clips goes place.start r.chars := by
  have hplace := Text.stop_of_mem_locate hmem
  rw [length] at hplace
  cases h with
  | kept apart =>
    -- no clip has a byte in the run, so none touches or tears a character of it
    rw [List.flatMap_singleton, Text.splice_of_stays]
    intro p hp
    obtain ⟨hstart, hlt, hstop⟩ := Chars.of_mem_locate hp
    refine ⟨valueAt_of_not_start hne hstart (by omega) fun e he hmeets _ => apart e he hmeets, ?_⟩
    rw [Bool.eq_false_iff, ne_eq, hgoes]
    intro hgone
    obtain ⟨e, he, hmeets⟩ := exists_meets_of_goes hmem hstart hlt (by omega) hgone
    exact apart e he hmeets
  | @cut e mem meets only =>
    have hmeets := ByteRange.meets_iff.1 meets
    obtain ⟨left, mid, right, hsplit, haround⟩ :=
      Chars.exists_around place.start e.range r.chars (by omega)
    have hcut : CutsOut t clips goes place r e left mid right :=
      ⟨hmem, mem, meets, only, hne, hgoes, hsplit, haround⟩
    rw [List.flatMap_append, hcut.chars_between_right, hsplit, Text.splice_append,
      Text.splice_append, hcut.splice_left, hcut.splice_mid, hcut.splice_right]
    congr 1
    split
    · next hin =>
      rw [List.flatMap_append, hcut.chars_between_left hin]
      simp [withValue, chars]
    · next hout =>
      -- the clip started before the run, so no character comes before it
      have hnil : left = [] := by
        rcases haround.before with rfl | hle
        · rfl
        · rw [ByteRange.contains_iff] at hout
          exact Chars.byteLength_eq_zero_iff.1 (by omega)
      rw [hnil, ite_self]
      rfl

end Run

/-! ## The whole text -/

namespace Text

variable {t : Text} {clips : List Edit} {goes : ByteRange → Bool}
  {values : OrderedMap String String} {within : Option ByteRange}

/-- Runs may be spliced apart. -/
theorem splice_of_forall₂ {base : Nat} {runs : List Run} {parts : List (List Run)}
    (h : List.Forall₂ (fun p out => out.flatMap Run.chars = splice clips goes p.1.start p.2.chars)
      (locate base runs) parts) :
    parts.flatten.flatMap Run.chars = splice clips goes base (runs.flatMap Run.chars) := by
  induction runs generalizing base parts with
  | nil =>
    cases h
    rfl
  | cons r rest ih =>
    cases h with
    | cons hfirst hrest =>
      rw [List.flatten_cons, List.flatMap_append, hfirst, ih hrest, List.flatMap_cons,
        splice_append, Run.length]

/-- An update takes away what a clip touches and what it tears off. -/
theorem chars_updated (t : Text) (values : OrderedMap String String) (within : Option ByteRange) :
    (t.updated values within).chars = splice (t.edits values (within.getD t.extent))
      (fun place => Touched (t.edits values (within.getD t.extent)) place ∨
        t.Torn (t.edits values (within.getD t.extent)) place) 0 t.chars := by
  obtain ⟨parts, hruns, hparts⟩ := exists_parts_updated t values within
  rw [chars, hruns]
  refine splice_of_forall₂ ?_
  have hboth := (List.forall₂_and_left (p := (· ∈ t.ranges)) _ _).2 ⟨fun _ hp => hp, hparts⟩
  refine hboth.imp ?_
  rintro ⟨place, r⟩ out ⟨hmem, hedited⟩
  exact hedited.chars_eq_splice hmem (fun e he => (mem_edits_iff_isClip.1 he).nonempty)
    fun q => decide_eq_true_iff

/-- The clip that tears a character off has no byte of it, and no other clip has. -/
theorem not_touched_of_torn {place : ByteRange} (hlt : place.start < place.stop)
    (h : t.Torn (t.edits values (within.getD t.extent)) place) :
    ¬ Touched (t.edits values (within.getD t.extent)) place := by
  obtain ⟨p, hp, hstart, hstop, e, he, hmeets, hside⟩ := h
  rintro ⟨f, hf, hmeets'⟩
  have hrun := hmeets'.of_within hstart hstop
  have hsame := (mem_edits_iff_isClip.1 he).eq_of_meets (mem_edits_iff_isClip.1 hf) hp hmeets hrun
  rw [hsame, ByteRange.meets_iff] at hmeets'
  omega

/-- Nothing is torn off if the range cuts the text at boundaries. -/
theorem not_torn_of_admits (h : t.Admits (within.getD t.extent)) {place : ByteRange}
    (hlt : place.start < place.stop) :
    ¬ t.Torn (t.edits values (within.getD t.extent)) place := by
  rintro ⟨⟨q, r⟩, hq, hstart, hstop, e, he, hmeets, hside⟩
  have hclip := mem_edits_iff_isClip.1 he
  have hmeets' := ByteRange.meets_iff.1 hmeets
  simp only at hstart hstop hmeets'
  rcases hside with ⟨hle, hb⟩ | ⟨hle, hb⟩
  · rw [isBoundary_iff_of_mem_ranges hq (by omega) (by omega)] at hb
    exact hb (hclip.isBoundary_start h hq hmeets (by omega))
  · rw [isBoundary_iff_of_mem_ranges hq (by omega) (by omega)] at hb
    exact hb (hclip.isBoundary_stop h hq hmeets (by omega))

/-- No more is lost than what the clips touch, exactly if nothing is torn off. -/
theorem keepsOutside_iff (t : Text) (values : OrderedMap String String)
    (within : Option ByteRange) :
    t.KeepsOutside (t.edits values (within.getD t.extent)) (t.updated values within) ↔
      ∀ p ∈ Chars.locate 0 t.chars, ¬ t.Torn (t.edits values (within.getD t.extent)) p.1 := by
  have hchars := chars_updated t values within
  constructor
  · -- The characters that go are fewer, but both ways leave the same ones.
    rintro ⟨goes, hgoes, hkept⟩ p hp htorn
    have hgone := goes_of_splice_eq (hkept.symm.trans hchars)
      (fun place h => decide_eq_true (.inl (hgoes place h))) p hp (decide_eq_true (.inr htorn))
    exact not_touched_of_torn (Chars.of_mem_locate hp).2.1 htorn (hgoes p.1 hgone)
  · intro hnone
    refine ⟨fun place => Touched (t.edits values (within.getD t.extent)) place,
      fun place => of_decide_eq_true, hchars.trans (splice_congr fun p hp => ?_)⟩
    simp [hnone p hp]

/-- A character outside all clips is still there. -/
theorem KeepsOutside.mem_chars {t' : Text} (h : t.KeepsOutside clips t') {p : ByteRange × Char}
    (hp : p ∈ Chars.locate 0 t.chars) (hout : ¬ Touched clips p.1) : p.2 ∈ t'.chars := by
  obtain ⟨goes, hgoes, hchars⟩ := h
  rw [hchars, splice, List.mem_flatMap]
  refine ⟨p, hp, List.mem_append_right _ ?_⟩
  rw [if_neg fun hgone => hout (hgoes p.1 hgone)]
  exact List.mem_singleton_self _

/-- What an update loses of the characters of a text. -/
structure LosesTorn (t : Text) (clips : List Edit) (t' : Text) : Prop where
  /-- What a clip touches goes and what it tears off. All else stays, around the values. -/
  chars : t'.chars =
    splice clips (fun place => Touched clips place ∨ t.Torn clips place) 0 t.chars
  /-- So only characters with a byte in a clip are lost exactly if none is torn off. -/
  outside : t.KeepsOutside clips t' ↔ ∀ p ∈ Chars.locate 0 t.chars, ¬ t.Torn clips p.1

/-- Wherever the range of an update cuts a text, beside the clips only what they tear off is lost,
and that is nothing if it cuts at boundaries. -/
theorem updated_loses_torn (t : Text) (values : OrderedMap String String)
    (within : Option ByteRange) :
    ∃ clips, (∀ e, e ∈ clips ↔ t.IsClip values (within.getD t.extent) e) ∧
      t.LosesTorn clips (t.updated values within) ∧
      (t.Admits (within.getD t.extent) → t.KeepsOutside clips (t.updated values within)) := by
  have houtside := keepsOutside_iff t values within
  refine ⟨t.edits values (within.getD t.extent), fun e => mem_edits_iff_isClip,
    ⟨chars_updated t values within, houtside⟩, ?_⟩
  intro hadmits
  exact houtside.2 fun p hp => not_torn_of_admits hadmits (Chars.of_mem_locate hp).2.1

/-- A name with a letter of two bytes, and a mark behind it. -/
def signature : Text :=
  ⟨[{ text := "Zo\u00eb!", attributes := .ofList [(.variableName, .text "name")] }]⟩

/-- If the range ends inside the letter, the mark outside the range is lost. -/
theorem signature_loses_mark :
    ¬ ∃ clips, (∀ e, e ∈ clips ↔ signature.IsClip (.ofList [("name", "Al")]) ⟨0, 3⟩ e) ∧
      signature.KeepsOutside clips
        (signature.updated (.ofList [("name", "Al")]) (some ⟨0, 3⟩)) := by
  rintro ⟨clips, hclips, hkeeps⟩
  have hmark : (⟨4, 5⟩, '!') ∈ Chars.locate 0 signature.chars := by decide
  -- The clip ends inside of the character before, so the mark is outside of it.
  have hout : ¬ Touched clips ⟨4, 5⟩ := by
    rintro ⟨e, he, hmeets⟩
    obtain ⟨-, name, whole, -, -, hrange⟩ := (hclips e).1 he
    rw [hrange, ByteRange.meets_iff] at hmeets
    simp only [ByteRange.inter] at hmeets
    omega
  have hmem := hkeeps.mem_chars hmark hout
  have hlost : '!' ∉ (signature.updated (.ofList [("name", "Al")]) (some ⟨0, 3⟩)).chars := by
    decide
  exact hlost hmem

end Text

end StyledText
