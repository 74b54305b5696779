/-!
# Font sizes

A size is an IEEE 754 number of single precision, kept as its bit pattern.

* Equality (`=`) tells all bit patterns apart, the two zeros and every NaN included.
* `alike` compares as numbers: the two zeros are alike, and a NaN is unlike everything. It is
  symmetric and transitive, and reflexive exactly on the sizes that are numbers
  (`alike_self`).
-/

namespace StyledText.Font

/-- A size in points. -/
structure Size where
  /-- Sign, exponent and fraction, highest bit first. -/
  bits : UInt32
deriving DecidableEq, Repr, Inhabited

namespace Size

/-- The bit pattern without its sign. -/
def magnitude (s : Size) : UInt32 := s.bits &&& 0x7FFFFFFF

/-- Whether the pattern stands for no number: all exponent bits set and some fraction bit. -/
def isNaN (s : Size) : Bool := 0x7F800000 < s.magnitude

def isZero (s : Size) : Bool := s.magnitude = 0

/-- Whether two sizes are the same number. -/
def alike (s t : Size) : Bool := !s.isNaN && (s.bits = t.bits || s.isZero && t.isZero)

/-- The rounded product. -/
instance : Mul Size := ⟨fun s t => ⟨(Float32.ofBits s.bits * Float32.ofBits t.bits).toBits⟩⟩

/-- The size nearest to a decimal number. -/
instance : OfScientific Size := ⟨fun m s e => ⟨(OfScientific.ofScientific m s e : Float32).toBits⟩⟩

/-! ## Comparison as numbers -/

theorem isNaN_of_isZero {s : Size} (h : s.isZero) : s.isNaN = false := by
  simp only [isZero, decide_eq_true_eq] at h
  simp [isNaN, h]

/-- The comparison is reflexive but for values that are no number. -/
theorem alike_self {s : Size} : s.alike s = !s.isNaN := by
  simp [alike]

theorem alike_comm {s t : Size} : s.alike t = t.alike s := by
  by_cases h : s = t
  · rw [h]
  · have hb : s.bits ≠ t.bits := fun hb => h (by cases s; cases t; simp_all)
    have hb' : t.bits ≠ s.bits := hb.symm
    cases hs : s.isZero <;> cases ht : t.isZero <;>
      simp [alike, hb, hb', hs, ht, isNaN_of_isZero]

/-- Both zeros count as one value, so a chain of comparisons may go from one to the other. -/
theorem alike_trans {s t u : Size} (h : s.alike t) (h' : t.alike u) : s.alike u := by
  simp only [alike, Bool.and_eq_true, Bool.or_eq_true, decide_eq_true_eq] at h h' ⊢
  refine ⟨h.1, ?_⟩
  rcases h.2 with hb | ⟨hs, ht⟩
  · have hst : s = t := by cases s; cases t; simp_all
    exact hst ▸ h'.2
  · rcases h'.2 with hb | ⟨_, hu⟩
    · have htu : t = u := by cases t; cases u; simp_all
      exact .inr ⟨hs, htu ▸ ht⟩
    · exact .inr ⟨hs, hu⟩

end Size

end StyledText.Font
