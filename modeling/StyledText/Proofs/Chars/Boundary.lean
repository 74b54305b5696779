import StyledText.Chars.Offset

/-!
# Cuts at byte offsets

Each way to cut a list of characters at byte offsets is a way to split the list.

* `dropBytes?_eq_some_iff`, `takeBytes?_eq_some_iff`, `slice?_eq_some_iff`: a cut succeeds exactly
  when the list splits at the offsets.
* `isBoundary_append_left`, `isBoundary_append_right`: the boundaries of a concatenation.
-/

namespace StyledText.Chars

theorem byteLength_eq_zero_iff {cs : List Char} : byteLength cs = 0 ↔ cs = [] := by
  constructor
  · intro h
    cases cs with
    | nil => rfl
    | cons c cs =>
      have hpos := c.utf8Size_pos
      rw [byteLength_cons] at h
      omega
  · intro h
    rw [h, byteLength_nil]

/-! ## Cuts as splits -/

theorem dropBytes?_zero_eq_some_iff {cs rest : List Char} :
    dropBytes? 0 cs = some rest ↔ ∃ before, cs = before ++ rest ∧ byteLength before = 0 := by
  simp only [dropBytes?, Option.some.injEq, byteLength_eq_zero_iff]
  constructor
  · rintro rfl
    exact ⟨[], rfl, rfl⟩
  · rintro ⟨before, rfl, rfl⟩
    rfl

/-- Dropping succeeds exactly where a character starts, and leaves what comes from there on. -/
theorem dropBytes?_eq_some_iff {n : Nat} {cs rest : List Char} :
    dropBytes? n cs = some rest ↔ ∃ before, cs = before ++ rest ∧ byteLength before = n := by
  induction cs generalizing n with
  | nil =>
    cases n with
    | zero => exact dropBytes?_zero_eq_some_iff
    | succ n =>
      simp only [dropBytes?, reduceCtorEq, false_iff]
      rintro ⟨before, h, hlen⟩
      rcases List.append_eq_nil_iff.1 h.symm with ⟨rfl, -⟩
      simp at hlen
  | cons c cs ih =>
    have hpos := c.utf8Size_pos
    cases n with
    | zero => exact dropBytes?_zero_eq_some_iff
    | succ n =>
      unfold dropBytes?
      split
      · next hfit =>
        rw [ih]
        constructor
        · rintro ⟨before, rfl, hlen⟩
          exact ⟨c :: before, rfl, by rw [byteLength_cons]; omega⟩
        · rintro ⟨before, h, hlen⟩
          cases before with
          | nil => simp at hlen
          | cons d before =>
            rcases List.cons.inj h with ⟨rfl, rfl⟩
            rw [byteLength_cons] at hlen
            exact ⟨before, rfl, by omega⟩
      · next hfit =>
        -- The cut would go through `c`.
        simp only [reduceCtorEq, false_iff]
        rintro ⟨before, h, hlen⟩
        cases before with
        | nil => simp at hlen
        | cons d before =>
          rcases List.cons.inj h with ⟨rfl, -⟩
          rw [byteLength_cons] at hlen
          omega

theorem takeBytes?_zero_eq_some_iff {cs taken : List Char} :
    takeBytes? 0 cs = some taken ↔ ∃ rest, cs = taken ++ rest ∧ byteLength taken = 0 := by
  simp only [takeBytes?, Option.some.injEq, byteLength_eq_zero_iff]
  constructor
  · rintro rfl
    exact ⟨cs, rfl, rfl⟩
  · rintro ⟨rest, -, rfl⟩
    rfl

/-- Taking succeeds exactly where a character starts, and gives what comes before it. -/
theorem takeBytes?_eq_some_iff {n : Nat} {cs taken : List Char} :
    takeBytes? n cs = some taken ↔ ∃ rest, cs = taken ++ rest ∧ byteLength taken = n := by
  induction cs generalizing n taken with
  | nil =>
    cases n with
    | zero => exact takeBytes?_zero_eq_some_iff
    | succ n =>
      simp only [takeBytes?, reduceCtorEq, false_iff]
      rintro ⟨rest, h, hlen⟩
      rcases List.append_eq_nil_iff.1 h.symm with ⟨rfl, -⟩
      simp at hlen
  | cons c cs ih =>
    -- no character is empty, so nothing but nothing is taken with zero bytes
    have hpos := c.utf8Size_pos
    cases n with
    | zero => exact takeBytes?_zero_eq_some_iff
    | succ n =>
      unfold takeBytes?
      split
      · -- the offset lies behind the first character
        next hfit =>
        simp only [Option.map_eq_some_iff, ih]
        constructor
        · rintro ⟨taken, ⟨rest, rfl, hlen⟩, rfl⟩
          exact ⟨rest, rfl, by rw [byteLength_cons]; omega⟩
        · rintro ⟨rest, h, hlen⟩
          cases taken with
          | nil => simp at hlen
          | cons d taken =>
            rcases List.cons.inj h with ⟨rfl, rfl⟩
            rw [byteLength_cons] at hlen
            exact ⟨taken, ⟨rest, rfl, by omega⟩, rfl⟩
      · next hfit =>
        simp only [reduceCtorEq, false_iff]
        rintro ⟨rest, h, hlen⟩
        cases taken with
        | nil => simp at hlen
        | cons d taken =>
          rcases List.cons.inj h with ⟨rfl, -⟩
          rw [byteLength_cons] at hlen
          omega

/-- A slice stands between two parts of the text, whose lengths are told by the offsets. -/
theorem slice?_eq_some_iff {start stop : Nat} {cs part : List Char} :
    slice? start stop cs = some part ↔
      ∃ before after, cs = before ++ part ++ after ∧ byteLength before = start ∧
        start + byteLength part = stop := by
  unfold slice?
  split
  · -- no slice is taken between offsets that are reversed
    next hle =>
    simp only [Option.bind_eq_some_iff, dropBytes?_eq_some_iff, takeBytes?_eq_some_iff]
    constructor
    · rintro ⟨_, ⟨before, rfl, hbefore⟩, after, rfl, hpart⟩
      exact ⟨before, after, by simp, hbefore, by omega⟩
    · rintro ⟨before, after, rfl, hbefore, hpart⟩
      exact ⟨part ++ after, ⟨before, by simp, hbefore⟩, after, rfl, by omega⟩
  · next hle =>
    simp only [reduceCtorEq, false_iff]
    rintro ⟨before, after, -, -, hpart⟩
    omega

/-! ## Boundaries -/

/-- A boundary cuts the text in two. -/
theorem isBoundary_iff {offset : Nat} {cs : List Char} :
    isBoundary offset cs ↔ ∃ before after, cs = before ++ after ∧ byteLength before = offset := by
  unfold isBoundary
  rw [Option.isSome_iff_exists]
  simp only [dropBytes?_eq_some_iff]
  exact exists_comm

theorem isBoundary_zero (cs : List Char) : isBoundary 0 cs :=
  isBoundary_iff.2 ⟨[], cs, rfl, rfl⟩

theorem isBoundary_byteLength (cs : List Char) : isBoundary (byteLength cs) cs :=
  isBoundary_iff.2 ⟨cs, [], by simp, rfl⟩

/-- Up to its end, the first part of a concatenation decides on the boundaries. -/
theorem isBoundary_append_left {offset : Nat} {cs ds : List Char} (h : offset ≤ byteLength cs) :
    isBoundary offset (cs ++ ds) ↔ isBoundary offset cs := by
  rw [isBoundary_iff, isBoundary_iff]
  constructor
  · rintro ⟨before, after, happ, hlen⟩
    rcases List.append_eq_append_iff.1 happ with ⟨mid, hbefore, -⟩ | ⟨mid, hcs, -⟩
    · -- all of `cs` lies before the cut, which is then its end
      rw [hbefore, byteLength_append] at hlen
      have hmid : mid = [] := byteLength_eq_zero_iff.1 (by omega)
      rw [hmid, byteLength_nil] at hlen
      exact ⟨cs, [], by simp, by omega⟩
    · exact ⟨before, mid, hcs, hlen⟩
  · rintro ⟨before, after, rfl, hlen⟩
    exact ⟨before, after ++ ds, by simp, hlen⟩

/-- Behind its first part, the second part of a concatenation decides on the boundaries. -/
theorem isBoundary_append_right {offset : Nat} {cs ds : List Char} :
    isBoundary (byteLength cs + offset) (cs ++ ds) ↔ isBoundary offset ds := by
  rw [isBoundary_iff, isBoundary_iff]
  constructor
  · rintro ⟨before, after, happ, hlen⟩
    rcases List.append_eq_append_iff.1 happ with ⟨mid, hbefore, hds⟩ | ⟨mid, hcs, hafter⟩
    · rw [hbefore, byteLength_append] at hlen
      exact ⟨mid, after, hds, by omega⟩
    · -- the cut lies in `cs`, but not before its end
      rw [hcs, byteLength_append] at hlen
      have hmid : mid = [] := byteLength_eq_zero_iff.1 (by omega)
      rw [hmid, byteLength_nil] at hlen
      exact ⟨[], ds, rfl, by rw [byteLength_nil]; omega⟩
  · rintro ⟨before, after, rfl, hlen⟩
    exact ⟨cs ++ before, after, by simp, by rw [byteLength_append, hlen]⟩

/-- Two boundaries cut a list into three parts. -/
theorem exists_split_of_isBoundary {start stop : Nat} {cs : List Char}
    (hstart : isBoundary start cs) (hstop : isBoundary stop cs) (hle : start ≤ stop) :
    ∃ left mid right, cs = left ++ mid ++ right ∧ byteLength left = start ∧
      start + byteLength mid = stop := by
  rcases isBoundary_iff.1 hstart with ⟨left, rest, rfl, hleft⟩
  rcases Nat.exists_eq_add_of_le hle with ⟨gap, rfl⟩
  rw [← hleft, isBoundary_append_right] at hstop
  rcases isBoundary_iff.1 hstop with ⟨mid, right, rfl, hmid⟩
  exact ⟨left, mid, right, by simp, hleft, by rw [hmid]⟩

end StyledText.Chars
