import StyledText.OrderedMap.Lemmas
import StyledText.Text.Basic
import Mathlib.Data.List.Forall2

/-!
# Agreement

Values, sets of attributes, runs and texts agree (`alike`) if nothing but the bit patterns of font
sizes tells them apart.

* Agreement is symmetric and transitive. A size that is NaN does not even agree with itself, so it
  is reflexive only on what is free of those (`Text.alike_self_iff`).
* The readers of attributes find the same in sets that agree (`Attributes.get?_cases_of_alike`),
  also after a write (`Attributes.alike_insert`).
-/

namespace StyledText

open Attribute

/-! ## Rows -/

/-- The test on lists as a relation, which the lemmas on `List.Forall₂` apply to. -/
theorem isEqv_iff_forall₂ {α : Type} {r : α → α → Bool} {l m : List α} :
    l.isEqv m r ↔ List.Forall₂ (fun a b => r a b) l m := by
  induction l generalizing m with
  | nil => cases m <;> simp [List.isEqv]
  | cons a l ih => cases m <;> simp [List.isEqv, ih]

/-- What two members of rows have in common, the rows have in common. -/
theorem forall₂_symm {α : Type} {R : α → α → Prop} (hsymm : ∀ a b, R a b → R b a)
    {l m : List α} (h : List.Forall₂ R l m) : List.Forall₂ R m l := by
  induction h with
  | nil => exact .nil
  | cons hab _ ih => exact .cons (hsymm _ _ hab) ih

theorem forall₂_trans {α : Type} {R : α → α → Prop} (htrans : ∀ a b c, R a b → R b c → R a c)
    {l m n : List α} (h : List.Forall₂ R l m) (h' : List.Forall₂ R m n) : List.Forall₂ R l n := by
  induction h generalizing n with
  | nil => exact h'
  | cons hab _ ih =>
    cases h' with
    | cons hbc hrest => exact .cons (htrans _ _ _ hab hbc) (ih hrest)

/-! ## Values -/

namespace Font

theorem alike_comm (f g : Font) : f.alike g = g.alike f := by
  have hfamily : (f.family = g.family : Bool) = (g.family = f.family : Bool) :=
    decide_eq_decide.2 eq_comm
  have htraits : (f.traits = g.traits : Bool) = (g.traits = f.traits : Bool) :=
    decide_eq_decide.2 eq_comm
  rw [alike, alike, Size.alike_comm, hfamily, htraits]

/-- Agreement of fonts is transitive, as that of their sizes is. -/
theorem alike_trans {f g h : Font} (hfg : f.alike g) (hgh : g.alike h) : f.alike h := by
  simp only [alike, Bool.and_eq_true, decide_eq_true_eq] at hfg hgh ⊢
  exact ⟨⟨hfg.1.1.trans hgh.1.1, Size.alike_trans hfg.1.2 hgh.1.2⟩, hfg.2.trans hgh.2⟩

end Font

namespace Attribute.Value

/-- Whether the value is not a font with a size that is NaN. -/
def isNumeric : Value → Bool
  | .font f => !f.size.isNaN
  | _ => true

/-- A value agrees with itself unless it is a font whose size is no number. -/
theorem alike_self_iff {v : Value} : v.alike v ↔ v.isNumeric := by
  cases v <;> simp [isNumeric, alike, Font.alike, Font.Size.alike_self]

theorem alike_comm (v w : Value) : v.alike w = w.alike v := by
  cases v <;> cases w <;> simp [alike, Font.alike_comm, eq_comm]

/-- Agreement of values is transitive. -/
theorem alike_trans {v w x : Value} (h : v.alike w) (h' : w.alike x) : v.alike x := by
  -- only fonts are not compared by equality
  cases v with
  | font f =>
    cases w with
    | font g =>
      cases x with
      | font k => exact Font.alike_trans h h'
      | _ => simp [alike] at h'
    | _ => simp [alike] at h
  | _ =>
    cases w with
    | font => simp [alike] at h
    | _ =>
      simp only [alike, decide_eq_true_eq] at h
      rw [h]
      exact h'

end Attribute.Value

/-! ## Sets -/

namespace Attributes

/-- Whether no value is a font with a size that is NaN. -/
def isNumeric (a : Attributes) : Bool := a.entries.all (·.2.isNumeric)

/-- Sets agree when they have the same keys in the same order, and values that agree. -/
theorem alike_iff {a b : Attributes} : a.alike b ↔
    List.Forall₂ (fun e f => e.1 = f.1 ∧ e.2.alike f.2) a.entries b.entries := by
  simp [alike, isEqv_iff_forall₂]

theorem alike_self_iff {a : Attributes} : a.alike a ↔ a.isNumeric := by
  simp [alike_iff, List.forall₂_same, Value.alike_self_iff, isNumeric]

theorem alike_symm {a b : Attributes} (h : a.alike b) : b.alike a := by
  rw [alike_iff] at h ⊢
  refine forall₂_symm ?_ h
  intro e f hef
  exact ⟨hef.1.symm, by rw [Value.alike_comm]; exact hef.2⟩

theorem alike_trans {a b c : Attributes} (h : a.alike b) (h' : b.alike c) : a.alike c := by
  rw [alike_iff] at h h' ⊢
  refine forall₂_trans ?_ h h'
  intro e f g hef hfg
  exact ⟨hef.1.trans hfg.1, Value.alike_trans hef.2 hfg.2⟩

variable {a b : Attributes}

/-- Under a key, sets that agree hold values that agree. -/
theorem get?_alike (h : a.alike b) (key : Key) :
    Option.Rel (fun v w => v.alike w) (a.get? key) (b.get? key) := by
  rw [alike_iff] at h
  unfold OrderedMap.get?
  generalize a.entries = l at h
  generalize b.entries = m at h
  induction h with
  | nil => exact .none
  | @cons e f _ _ hef _ ih =>
    rw [OrderedMap.lookup, OrderedMap.lookup, hef.1]
    split
    · exact .some hef.2
    · exact ih

/-- Sets that agree hold the same keys. Under each, both hold values that agree, or neither holds
any. -/
theorem get?_cases_of_alike (h : a.alike b) (key : Key) :
    (a.get? key = none ∧ b.get? key = none) ∨
      ∃ v w, a.get? key = some v ∧ b.get? key = some w ∧ v.alike w := by
  have hvalues := get?_alike h key
  generalize a.get? key = v at hvalues ⊢
  generalize b.get? key = w at hvalues ⊢
  cases hvalues with
  | none => exact .inl ⟨rfl, rfl⟩
  | some hvw => exact .inr ⟨_, _, rfl, rfl, hvw⟩

/-- Besides fonts, what is read from sets that agree is the same. -/
theorem text?_eq_of_alike (h : a.alike b) (key : Key) : a.text? key = b.text? key := by
  unfold text?
  rcases get?_cases_of_alike h key with ⟨ha, hb⟩ | ⟨v, w, ha, hb, hvw⟩
  · rw [ha, hb]
  · rw [ha, hb]
    cases v <;> cases w <;> simp_all [Value.alike]

theorem color?_eq_of_alike (h : a.alike b) (key : Key) : a.color? key = b.color? key := by
  unfold color?
  rcases get?_cases_of_alike h key with ⟨ha, hb⟩ | ⟨v, w, ha, hb, hvw⟩
  · rw [ha, hb]
  · rw [ha, hb]
    cases v <;> cases w <;> simp_all [Value.alike]

theorem attachment?_eq_of_alike (h : a.alike b) : a.attachment? = b.attachment? := by
  unfold attachment?
  rcases get?_cases_of_alike h .attachment with ⟨ha, hb⟩ | ⟨v, w, ha, hb, hvw⟩
  · rw [ha, hb]
  · rw [ha, hb]
    cases v <;> cases w <;> simp_all [Value.alike]

theorem link?_eq_of_alike (h : a.alike b) : a.link? = b.link? := by
  unfold link?
  rcases get?_cases_of_alike h .link with ⟨ha, hb⟩ | ⟨v, w, ha, hb, hvw⟩
  · rw [ha, hb]
  · rw [ha, hb]
    cases v <;> cases w <;> simp_all [Value.alike]

/-- Fonts that agree may have sizes with different bits, but not different traits. -/
theorem traits_eq_of_alike (h : a.alike b) :
    a.font?.map Font.traits = b.font?.map Font.traits := by
  unfold font?
  rcases get?_cases_of_alike h .font with ⟨ha, hb⟩ | ⟨v, w, ha, hb, hvw⟩
  · rw [ha, hb]
  · rw [ha, hb]
    cases v <;> cases w <;> simp_all [Value.alike, Font.alike]

/-- The same write leaves sets that agree. -/
theorem alike_insert (h : a.alike b) (key : Key) {value : Value} (hvalue : value.isNumeric) :
    Attributes.alike (a.insert key value) (b.insert key value) := by
  have hself := Value.alike_self_iff.2 hvalue
  rw [alike_iff] at h ⊢
  simp only [OrderedMap.insert]
  generalize a.entries = l at h
  generalize b.entries = m at h
  induction h with
  | nil => exact .cons ⟨rfl, hself⟩ .nil
  | @cons e f _ _ hef hrest ih =>
    rw [OrderedMap.insertEntry, OrderedMap.insertEntry, hef.1]
    split
    · exact .cons ⟨rfl, hself⟩ (.cons hef hrest)
    · exact .cons ⟨rfl, hself⟩ hrest
    · exact .cons hef ih

end Attributes

/-! ## Runs and texts -/

namespace Run

theorem alike_iff {r s : Run} : r.alike s ↔ r.text = s.text ∧ r.attributes.alike s.attributes := by
  simp [alike]

theorem alike_self_iff {r : Run} : r.alike r ↔ r.attributes.isNumeric := by
  rw [alike_iff, Attributes.alike_self_iff, and_iff_right rfl]

theorem alike_symm {r s : Run} (h : r.alike s) : s.alike r := by
  rw [alike_iff] at h ⊢
  exact ⟨h.1.symm, Attributes.alike_symm h.2⟩

/-- Agreement of runs is transitive. -/
theorem alike_trans {r s u : Run} (h : r.alike s) (h' : s.alike u) : r.alike u := by
  rw [alike_iff] at h h' ⊢
  exact ⟨h.1.trans h'.1, Attributes.alike_trans h.2 h'.2⟩

/-- Runs that agree have one text, so whatever is told by the text is the same for both. -/
theorem isEmpty_eq_of_alike {r s : Run} (h : r.alike s) : r.isEmpty = s.isEmpty := by
  rw [isEmpty, isEmpty, (alike_iff.1 h).1]

theorem length_eq_of_alike {r s : Run} (h : r.alike s) : r.length = s.length := by
  rw [length, length, chars, chars, (alike_iff.1 h).1]

/-- Rows of runs agree one by one. -/
def Agree (l m : List Run) : Prop := List.Forall₂ (fun r s => r.alike s) l m

namespace Agree

variable {l l' m m' n : List Run}

/-- Agreement run by run is reflexive where no font has a size that is no number. -/
theorem refl (h : ∀ r ∈ l, r.attributes.isNumeric) : Agree l l := by
  unfold Agree
  rw [List.forall₂_same]
  exact fun r hr => alike_self_iff.2 (h r hr)

theorem symm (h : Agree l m) : Agree m l := by
  unfold Agree at h ⊢
  exact forall₂_symm (fun _ _ => alike_symm) h

theorem trans (h : Agree l m) (h' : Agree m n) : Agree l n := by
  unfold Agree at h h' ⊢
  refine forall₂_trans ?_ h h'
  exact fun _ _ _ => alike_trans

theorem append (h : Agree l m) (h' : Agree l' m') : Agree (l ++ l') (m ++ m') :=
  List.rel_append h h'

end Agree

end Run

namespace Text

/-- Whether no run has a font with a size that is NaN. -/
def isNumeric (t : Text) : Bool := t.runs.all (·.attributes.isNumeric)

theorem isNumeric_iff {t : Text} : t.isNumeric ↔ ∀ r ∈ t.runs, r.attributes.isNumeric := by
  simp [isNumeric]

/-- Texts agree when their runs do, one by one. -/
theorem alike_iff {s t : Text} : s.alike t ↔ Run.Agree s.runs t.runs := isEqv_iff_forall₂

theorem alike_self_iff {t : Text} : t.alike t ↔ t.isNumeric := by
  rw [alike_iff, Run.Agree, List.forall₂_same, isNumeric_iff]
  exact forall₂_congr fun _ _ => Run.alike_self_iff

end Text

end StyledText
