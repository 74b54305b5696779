import Mathlib.Data.List.Induction
import StyledText.Proofs.Chars.Ink

/-!
# Cutting from one end

What cutting does at the two ends of a list: the first part ends at the first cut
(`exists_first_cut`), and the last part is open for what is put behind it (`exists_last_part`).
-/

namespace StyledText.Chars

universe u

variable {α : Type u}

/-- A list falls into two parts where a property of its elements first fails. -/
theorem exists_span (p : α → Bool) (xs : List α) :
    ∃ front rest, xs = front ++ rest ∧ (∀ x ∈ front, p x) ∧ ∀ x ∈ rest.head?, p x = false := by
  refine ⟨xs.takeWhile p, xs.dropWhile p, List.takeWhile_append_dropWhile.symm,
    List.all_eq_true.1 List.all_takeWhile, ?_⟩
  intro x hx
  have hnot := List.head?_dropWhile_not p xs
  rwa [Option.mem_def.1 hx] at hnot

/-- The first part ends at the first cut. -/
theorem exists_first_cut {p : α → Bool} {xs part next : List α} {rest : List (List α)}
    (h : xs.splitOnP p = part :: next :: rest) :
    ∃ x behind, xs = part ++ x :: behind ∧ p x ∧ behind.splitOnP p = next :: rest := by
  obtain ⟨front, tail, rfl, hfront, htail⟩ := exists_span (!p ·) xs
  have hfront : ∀ x ∈ front, p x = false := fun x hx => by simpa using hfront x hx
  cases tail with
  | nil =>
    rw [List.append_nil, List.splitOnP_eq_singleton hfront] at h
    cases h
  | cons x behind =>
    have hx : p x := by simpa using htail x rfl
    rw [List.splitOnP_append_cons_of_forall_mem hfront x hx] at h
    obtain ⟨rfl, hbehind⟩ := List.cons.inj h
    exact ⟨x, behind, rfl, hx, hbehind⟩

/-- What is not cut is its only part. -/
theorem eq_of_splitOnP_eq_singleton {p : α → Bool} {xs part : List α}
    (h : xs.splitOnP p = [part]) : xs = part := by
  have hnone : xs.countP p = 0 := by
    have hlength := length_splitOnP p xs
    rw [h, List.length_singleton] at hlength
    omega
  have hxs : ∀ x ∈ xs, p x = false := by simpa [List.countP_eq_zero] using hnone
  rw [List.splitOnP_eq_singleton hxs] at h
  exact (List.cons.inj h).1

/-- What is put behind a list goes to its last part, up to the next cut. -/
theorem exists_last_part (p : α → Bool) (xs : List α) :
    ∃ init last, xs.splitOnP p = init ++ [last] ∧
      ∀ ys, (∀ y ∈ ys, p y = false) → (xs ++ ys).splitOnP p = init ++ [last ++ ys] := by
  induction xs using List.reverseRecOn with
  | nil => exact ⟨[], [], rfl, fun ys hys => List.splitOnP_eq_singleton hys⟩
  | append_singleton xs x ih =>
    by_cases hx : p x
    · refine ⟨xs.splitOnP p, [], List.splitOnP_append_cons xs [] hx, ?_⟩
      intro ys hys
      rw [List.append_assoc, List.singleton_append, List.splitOnP_append_cons xs ys hx,
        List.splitOnP_eq_singleton hys, List.nil_append]
    · obtain ⟨init, last, -, hmore⟩ := ih
      refine ⟨init, last ++ [x], hmore [x] (by simpa using hx), ?_⟩
      intro ys hys
      rw [List.append_assoc, hmore _ (by simpa [hx] using hys), List.append_assoc]

end StyledText.Chars
