import StyledText.Chars.Blank
import Mathlib.Data.List.Basic

/-!
# Ink

The ink of a text is what is left of it without the blanks. Cutting a text, taking out some of the
cuts and setting blanks between the rest (`squeeze` does all of that) leaves the ink as it was.
-/

namespace StyledText.Chars

universe u v

/-! ## Cutting -/

section Cutting

variable {α : Type u} {β : Type v}

theorem flatten_modifyHead_append (xs : List α) {parts : List (List α)} (h : parts ≠ []) :
    (parts.modifyHead (xs ++ ·)).flatten = xs ++ parts.flatten := by
  cases parts with
  | nil => exact absurd rfl h
  | cons part rest => simp

/-- Cutting loses nothing but the places of the cuts. -/
theorem flatten_splitOnP (p : α → Bool) (xs : List α) :
    (xs.splitOnP p).flatten = xs.filter (!p ·) := by
  induction xs with
  | nil => rfl
  | cons x xs ih =>
    rw [List.splitOnP_cons_eq_if_modifyHead]
    by_cases hx : p x
    · simp [hx, ih]
    · have hhead := flatten_modifyHead_append [x] (List.splitOnP_ne_nil p xs)
      rw [ih] at hhead
      rw [if_neg (by simpa using hx)]
      simpa [hx] using hhead

/-- What is cut out of the parts is in none of them. -/
theorem not_of_mem_splitOnP {p : α → Bool} {xs part : List α} (hpart : part ∈ xs.splitOnP p) :
    ∀ x ∈ part, p x = false := by
  induction xs generalizing part with
  | nil =>
    rw [List.splitOnP_nil, List.mem_singleton] at hpart
    simp [hpart]
  | cons x xs ih =>
    rw [List.splitOnP_cons_eq_if_modifyHead] at hpart
    split at hpart
    · rcases List.mem_cons.1 hpart with rfl | hpart
      · simp
      · exact ih hpart
    · -- the element goes to the front of the first part behind it
      next hx =>
      obtain ⟨first, rest, hparts⟩ := List.exists_cons_of_ne_nil (List.splitOnP_ne_nil p xs)
      rw [hparts, List.modifyHead_cons] at hpart
      rw [hparts] at ih
      rcases List.mem_cons.1 hpart with rfl | hpart
      · exact List.forall_mem_cons.2 ⟨by simpa using hx, ih List.mem_cons_self⟩
      · exact ih (List.mem_cons_of_mem _ hpart)

/-- There is one part more than there are cuts. -/
theorem length_splitOnP (p : α → Bool) (xs : List α) :
    (xs.splitOnP p).length = xs.countP p + 1 := by
  induction xs with
  | nil => rfl
  | cons x xs ih =>
    rw [List.splitOnP_cons_eq_if_modifyHead, List.countP_cons]
    split
    · rw [List.length_cons, ih]
    · rw [List.length_modifyHead, ih]

variable [BEq α] [LawfulBEq α] [BEq β] [LawfulBEq β]

/-- What has no cut goes to the front of the first part. -/
theorem splitOn_append_of_not_mem {b : β} {ys : List β} (h : b ∉ ys) (zs : List β) :
    (ys ++ zs).splitOn b = (zs.splitOn b).modifyHead (ys ++ ·) := by
  induction ys with
  | nil => cases hzs : zs.splitOn b <;> simp [hzs]
  | cons y ys ih =>
    simp only [List.mem_cons, not_or] at h
    rw [List.cons_append, List.splitOn_cons_eq_if_modifyHead, if_neg (by simpa using Ne.symm h.1),
      ih h.2, List.modifyHead_modifyHead]
    rfl

/-- What is put in place of single elements can be put in place before or after cutting, if it is
cut nowhere but where it stands for the same cut. -/
theorem splitOn_flatMap {f : α → List β} {a : α} {b : β} (ha : f a = [b])
    (hf : ∀ x, x ≠ a → b ∉ f x) (xs : List α) :
    (xs.flatMap f).splitOn b = (xs.splitOn a).map (·.flatMap f) := by
  induction xs with
  | nil => simp
  | cons x xs ih =>
    rw [List.flatMap_cons, List.splitOn_cons_eq_if_modifyHead x xs]
    by_cases hx : x = a
    · subst hx
      simp [ha, List.splitOn_cons_eq_if_modifyHead, ih]
    · -- what stands for `x` goes to the front of the first part, as `x` itself does
      rw [if_neg (by simpa using hx), splitOn_append_of_not_mem (hf x hx), ih]
      cases xs.splitOn a <;> simp

/-- What is not cut at can be left out before or after cutting. -/
theorem splitOn_filter {p : α → Bool} {a : α} (ha : p a) (xs : List α) :
    (xs.filter p).splitOn a = (xs.splitOn a).map (·.filter p) := by
  have hfilter : ∀ ys : List α, ys.filter p = ys.flatMap fun x => if p x then [x] else [] := by
    intro ys
    induction ys with
    | nil => rfl
    | cons y ys ih => by_cases hy : p y <;> simp [hy, ih]
  have hcut : ∀ x, x ≠ a → a ∉ if p x then [x] else [] := by
    intro x hx
    split <;> simp [Ne.symm hx]
  simp only [hfilter]
  exact splitOn_flatMap (by simp [ha]) hcut xs

end Cutting

/-! ## Ink -/

/-- The characters that are not blank. -/
def ink (cs : List Char) : List Char := cs.filter (!isBlank ·)

@[simp] theorem ink_nil : ink [] = [] := rfl

@[simp] theorem ink_append (cs ds : List Char) : ink (cs ++ ds) = ink cs ++ ink ds := by
  simp [ink]

theorem ink_flatten (parts : List (List Char)) : ink parts.flatten = parts.flatMap ink := by
  rw [ink, List.filter_flatten, List.flatMap_def]
  rfl

/-- Whether a text has any ink. -/
theorem any_not_isBlank_iff (cs : List Char) : cs.any (!isBlank ·) = true ↔ ink cs ≠ [] := by
  simp [ink, List.filter_eq_nil_iff]

/-- Parts without ink do not count. -/
theorem flatMap_ink_filter (parts : List (List Char)) :
    (parts.filter (·.any (!isBlank ·))).flatMap ink = parts.flatMap ink := by
  induction parts with
  | nil => rfl
  | cons part parts ih =>
    rw [List.filter_cons, List.flatMap_cons]
    split
    · rw [List.flatMap_cons, ih]
    · rename_i hblank
      rw [any_not_isBlank_iff, not_not] at hblank
      rw [hblank, ih, List.nil_append]

/-- Ink is not changed by taking out blanks. -/
theorem ink_filter_blank {p : Char → Bool} (h : ∀ c, p c = false → isBlank c) (cs : List Char) :
    ink (cs.filter p) = ink cs := by
  rw [ink, ink, List.filter_filter]
  congr 1
  funext c
  cases hp : p c with
  | true => simp
  | false => simp [h c hp]

/-- Nor is it changed by what stands between the parts, if that is blank. -/
theorem ink_intercalate {separator : List Char} (h : ink separator = [])
    (parts : List (List Char)) :
    ink (List.intercalate separator parts) = parts.flatMap ink := by
  induction parts with
  | nil => rfl
  | cons part rest ih =>
    cases rest with
    | nil => simp
    | cons next rest =>
      rw [List.intercalate_cons_cons, ink_append, ink_append, h, ih]
      simp

/-- Cutting at blanks keeps all ink. -/
theorem ink_flatten_splitOnP {p : Char → Bool} (h : ∀ c, p c → isBlank c) (cs : List Char) :
    (cs.splitOnP p).flatMap ink = ink cs := by
  rw [← ink_flatten, flatten_splitOnP, ink_filter_blank]
  intro c hc
  exact h c (by simpa using hc)

/-- Squeezing leaves the ink as it was. -/
theorem ink_squeeze (cs : List Char) : ink (squeeze cs) = ink cs := by
  unfold squeeze words
  rw [ink_intercalate (by decide), ← ink_flatten, List.flatten_filter_ne_nil, ink_flatten]
  exact ink_flatten_splitOnP (fun c hc => hc) cs

end StyledText.Chars
