import StyledText.Proofs.Chars.Boundary
import StyledText.Text.ByteRange

/-!
# Places of characters

`Chars.locate` gives each character the bytes it takes. A boundary is an offset that no character
lies across (`stop_le_of_isBoundary`). Any range splits a list into what lies before it, what has a
byte in it and what lies behind (`exists_around`), also where it starts or ends inside a character.
-/

namespace StyledText.Chars

variable {base offset : Nat} {cs ds : List Char} {p : ByteRange × Char}

/-- The characters with the bytes they take, the first one starting at `base`. -/
def locate (base : Nat) : List Char → List (ByteRange × Char)
  | [] => []
  | c :: cs => (⟨base, base + c.utf8Size⟩, c) :: locate (base + c.utf8Size) cs

/-- The characters behind others have their places moved by the length of these. -/
theorem locate_append (base : Nat) (cs ds : List Char) :
    locate base (cs ++ ds) = locate base cs ++ locate (base + byteLength cs) ds := by
  induction cs generalizing base with
  | nil => rfl
  | cons c cs ih =>
    rw [List.cons_append, locate, locate, ih, List.cons_append, byteLength_cons, Nat.add_assoc]

/-- A character takes at least one byte, and its bytes are among those of the list. -/
theorem of_mem_locate (h : p ∈ locate base cs) :
    base ≤ p.1.start ∧ p.1.start < p.1.stop ∧ p.1.stop ≤ base + byteLength cs := by
  induction cs generalizing base with
  | nil => cases h
  | cons c cs ih =>
    have hpos := c.utf8Size_pos
    rw [byteLength_cons]
    rcases List.mem_cons.1 h with rfl | hmem
    · exact ⟨Nat.le_refl _, by simp only; omega, by simp only; omega⟩
    · obtain ⟨hstart, hlt, hstop⟩ := ih hmem
      exact ⟨by omega, hlt, by omega⟩

/-- No character lies across a boundary. -/
theorem stop_le_of_isBoundary (hb : isBoundary (offset - base) cs) (hle : base ≤ offset)
    (h : p ∈ locate base cs) (hstart : p.1.start < offset) : p.1.stop ≤ offset := by
  obtain ⟨before, after, rfl, hlen⟩ := isBoundary_iff.1 hb
  rw [locate_append] at h
  rcases List.mem_append.1 h with hmem | hmem
  · have hstop := (of_mem_locate hmem).2.2
    omega
  · have hfirst := (of_mem_locate hmem).1
    omega

/-- The characters that end before a byte, and those behind. -/
theorem exists_split_before (base offset : Nat) (cs : List Char) : ∃ before after,
    cs = before ++ after ∧ (before = [] ∨ base + byteLength before ≤ offset) ∧
      ∀ c rest, after = c :: rest → offset < base + byteLength before + c.utf8Size := by
  induction cs generalizing base with
  | nil => exact ⟨[], [], rfl, .inl rfl, by simp⟩
  | cons c cs ih =>
    -- induction on the characters: the first one fits before the offset or not
    by_cases hfits : base + c.utf8Size ≤ offset
    · obtain ⟨before, after, rfl, hbefore, hnext⟩ := ih (base + c.utf8Size)
      refine ⟨c :: before, after, rfl, .inr ?_, ?_⟩
      · rw [byteLength_cons]
        rcases hbefore with rfl | hle
        · rwa [byteLength_nil]
        · omega
      · intro d rest hafter
        have hlt := hnext d rest hafter
        rw [byteLength_cons]
        omega
    · refine ⟨[], c :: cs, rfl, .inl rfl, ?_⟩
      rintro d rest ⟨⟩
      rw [byteLength_nil]
      omega

/-- The characters that start before a byte, and those behind. -/
theorem exists_split_from (base offset : Nat) (cs : List Char) : ∃ before after,
    cs = before ++ after ∧ (after = [] ∨ offset ≤ base + byteLength before) ∧
      ∀ p ∈ locate base before, p.1.start < offset := by
  induction cs generalizing base with
  | nil => exact ⟨[], [], rfl, .inl rfl, by simp [locate]⟩
  | cons c cs ih =>
    by_cases hpast : offset ≤ base
    · exact ⟨[], c :: cs, rfl, .inr hpast, by simp [locate]⟩
    · obtain ⟨before, after, rfl, hafter, hstarts⟩ := ih (base + c.utf8Size)
      refine ⟨c :: before, after, rfl, ?_, ?_⟩
      · rw [byteLength_cons, ← Nat.add_assoc]
        exact hafter
      · rw [locate, List.forall_mem_cons]
        exact ⟨by simp only; omega, hstarts⟩

/-- Characters that all end before a byte take no more bytes than there are. -/
theorem byteLength_le_of_forall_stop_le (hle : base ≤ offset)
    (h : ∀ p ∈ locate base cs, p.1.stop ≤ offset) : base + byteLength cs ≤ offset := by
  induction cs generalizing base with
  | nil => exact hle
  | cons c cs ih =>
    rw [locate, List.forall_mem_cons] at h
    have hrest := ih h.1 h.2
    rwa [byteLength_cons, ← Nat.add_assoc]

/-! ## Characters around a range -/

/-- A list that starts at byte `base`, split into what ends before a range, what has a byte in it,
and what starts behind it. -/
structure Around (base : Nat) (range : ByteRange) (left mid right : List Char) : Prop where
  before : left = [] ∨ base + byteLength left ≤ range.start
  first : ∃ c rest, mid = c :: rest ∧ range.start < base + byteLength left + c.utf8Size
  starts : ∀ p ∈ locate base (left ++ mid), p.1.start < range.stop
  behind : right = [] ∨ range.stop ≤ base + byteLength (left ++ mid)

/-- A range that overlaps some characters cuts them in three: those before it, those it touches and
those behind it. -/
theorem exists_around (base : Nat) (range : ByteRange) (cs : List Char)
    (h : max base range.start < min (base + byteLength cs) range.stop) :
    ∃ left mid right, cs = left ++ mid ++ right ∧ Around base range left mid right := by
  obtain ⟨left, rest, rfl, hbefore, hnext⟩ := exists_split_before base range.start cs
  rw [byteLength_append] at h
  -- the range starts inside the characters, as it overlaps them
  cases rest with
  | nil =>
    rw [byteLength_nil] at h
    rcases hbefore with rfl | hle
    · rw [byteLength_nil] at h
      omega
    · omega
  | cons c rest =>
    have hfirst := hnext c rest rfl
    obtain ⟨mid, right, rfl, hbehind, hstarts⟩ :=
      exists_split_from (base + byteLength left + c.utf8Size) range.stop rest
    refine ⟨left, c :: mid, right, by simp, hbefore, ⟨c, mid, rfl, hfirst⟩, ?_, ?_⟩
    · -- the touched part is the character the range starts in, and all that start before its end
      rw [locate_append, locate]
      intro p hp
      rcases List.mem_append.1 hp with hp | hp
      · obtain ⟨-, hlt, hstop⟩ := of_mem_locate hp
        rcases hbefore with rfl | hle
        · cases hp
        · omega
      · rcases List.mem_cons.1 hp with rfl | hp
        · rcases hbefore with rfl | hle
          · rw [byteLength_nil]
            simp only
            omega
          · simp only
            omega
        · exact hstarts p hp
    · rw [byteLength_append, byteLength_cons, ← Nat.add_assoc, ← Nat.add_assoc]
      exact hbehind

namespace Around

variable {range : ByteRange} {left mid right : List Char}

/-- Each character in the middle has a byte in the range. -/
theorem mid_lt (h : Around base range left mid right)
    (hp : p ∈ locate (base + byteLength left) mid) :
    range.start < p.1.stop ∧ p.1.start < range.stop := by
  constructor
  · obtain ⟨c, rest, rfl, hfirst⟩ := h.first
    rcases List.mem_cons.1 hp with rfl | hp
    · exact hfirst
    · obtain ⟨hle, hlt, -⟩ := of_mem_locate hp
      omega
  · refine h.starts p ?_
    rw [locate_append]
    exact List.mem_append_right _ hp

/-- If the range starts at a boundary, so does the middle. -/
theorem start_eq (h : Around base range left mid right) (hle : base ≤ range.start)
    (hb : isBoundary (range.start - base) (left ++ mid ++ right)) :
    base + byteLength left = range.start := by
  obtain ⟨c, rest, rfl, hfirst⟩ := h.first
  have hmem : (⟨base + byteLength left, base + byteLength left + c.utf8Size⟩, c) ∈
      locate base (left ++ c :: rest ++ right) := by
    rw [locate_append, locate_append, locate]
    simp
  have hstop := stop_le_of_isBoundary hb hle hmem
  simp only at hstop
  rcases h.before with rfl | hbefore
  · rw [byteLength_nil] at hstop hfirst ⊢
    omega
  · omega

/-- If the range ends at a boundary, so does the middle. -/
theorem stop_eq (h : Around base range left mid right) (hle : base ≤ range.stop)
    (hin : range.stop ≤ base + byteLength (left ++ mid ++ right))
    (hb : isBoundary (range.stop - base) (left ++ mid ++ right)) :
    base + byteLength (left ++ mid) = range.stop := by
  have hstops : base + byteLength (left ++ mid) ≤ range.stop := by
    refine byteLength_le_of_forall_stop_le hle fun p hp => ?_
    refine stop_le_of_isBoundary hb hle ?_ (h.starts p hp)
    rw [locate_append]
    exact List.mem_append_left _ hp
  rcases h.behind with rfl | hbehind
  · rw [List.append_nil] at hin
    omega
  · omega

end Around

end StyledText.Chars
