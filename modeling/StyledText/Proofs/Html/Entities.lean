import StyledText.Markdown.Html.Escape
import Mathlib.Data.List.Basic
import Mathlib.Data.List.Induction

/-!
# Reading entities

`decode` looks for one entity after the other. That comes to the same as one pass from left to right
in which every entity is read where it stands (`Reads`): no round puts in a character that belongs
to an entity of a later round, and no entity starts inside another. So what one entity stands for is
never read again, and `decode` undoes `escape`.
-/

namespace StyledText.Markdown.Html

open Chars (replaceAll replaceFrom)

/-! ## Replacing -/

section Replacing

variable {pattern replacement : List Char}

/-- Characters to be skipped are dropped, and the search goes on behind them. -/
theorem replaceFrom_append (skipped rest : List Char) :
    replaceFrom pattern replacement skipped.length (skipped ++ rest) =
      replaceAll pattern replacement rest := by
  induction skipped with
  | nil => rfl
  | cons c skipped ih => exact ih

/-- An occurrence in front is replaced. -/
theorem replaceAll_occurrence (h : pattern ≠ []) (rest : List Char) :
    replaceAll pattern replacement (pattern ++ rest) =
      replacement ++ replaceAll pattern replacement rest := by
  cases pattern with
  | nil => exact absurd rfl h
  | cons c pattern =>
    have hfound : (c :: pattern).isPrefixOf (c :: (pattern ++ rest)) = true := by
      simp [List.isPrefixOf_iff_prefix]
    rw [List.cons_append, replaceAll, replaceFrom, if_pos hfound]
    congr 1
    exact replaceFrom_append pattern rest

/-- A character at which the pattern does not begin stays. -/
theorem replaceAll_cons {c : Char} {rest : List Char}
    (h : pattern.isPrefixOf (c :: rest) = false) :
    replaceAll pattern replacement (c :: rest) = c :: replaceAll pattern replacement rest := by
  rw [replaceAll, replaceFrom, h]
  rfl

end Replacing

/-! ## Entities -/

def entity (name : List Char) : List Char := '&' :: (name ++ [';'])

/-- Whether these characters can be the name of an entity. -/
def IsName (name : List Char) : Prop := '&' ∉ name ∧ ';' ∉ name

instance (name : List Char) : Decidable (IsName name) := inferInstanceAs (Decidable (_ ∧ _))

def IsEntity (pattern : List Char) : Prop := ∃ name, IsName name ∧ pattern = entity name

/-- An entity ends at its semicolon, so none starts with another. -/
theorem IsEntity.eq_of_prefix {pattern other rest : List Char} (h : IsEntity pattern)
    (hother : IsEntity other) (hbegins : other <+: pattern ++ rest) : pattern = other := by
  obtain ⟨name, hname, rfl⟩ := h
  obtain ⟨start, hstart, rfl⟩ := hother
  obtain ⟨more, hmore⟩ := hbegins
  simp only [entity, List.cons_append, List.append_assoc, List.nil_append, List.cons.injEq,
    true_and] at hmore
  -- Both sides have their first semicolon at the end of the name.
  have hends := congrArg (List.takeWhile (· ≠ ';')) hmore
  have hall : ∀ part : List Char, ';' ∉ part → ∀ d ∈ part, decide (d ≠ ';') = true := by
    intro part hpart d hd
    simp only [decide_eq_true_eq]
    rintro rfl
    exact hpart hd
  rw [List.takeWhile_append_of_pos (hall start hstart.2),
    List.takeWhile_append_of_pos (hall name hname.2)] at hends
  have hnames : start = name := by simpa using hends
  rw [hnames]

/-! ## One pass -/

/-- A text is read in one pass from left to right: an entity of the table as what it stands for, and
any other character as itself. What was put out is not read again. -/
inductive Reads (table : List (List Char × Char)) : List Char → List Char → Prop
  | nil : Reads table [] []
  | entry {e : List Char × Char} {rest out : List Char} :
    e ∈ table → Reads table rest out → Reads table (e.1 ++ rest) (e.2 :: out)
  | char {c : Char} {rest out : List Char} :
    (∀ e ∈ table, ¬ e.1 <+: c :: rest) → Reads table rest out → Reads table (c :: rest) (c :: out)

section Reads

variable {table : List (List Char × Char)} {cs rest out : List Char}

/-- Without a table, everything is read as it stands. -/
theorem reads_nil (h : Reads [] cs out) : cs = out := by
  induction h with
  | nil => rfl
  | entry he => exact absurd he List.not_mem_nil
  | char _ _ ih => rw [ih]

/-- Every text can be read. -/
theorem exists_reads (hentities : ∀ e ∈ table, IsEntity e.1) (cs : List Char) :
    ∃ out, Reads table cs out := by
  -- What follows an entity is shorter, but no tail: the induction is on the length.
  induction hlength : cs.length using Nat.strongRecOn generalizing cs with
  | ind n ih =>
    cases cs with
    | nil => exact ⟨[], .nil⟩
    | cons c rest =>
      by_cases hstarts : ∃ e ∈ table, e.1 <+: c :: rest
      · obtain ⟨e, he, more, hmore⟩ := hstarts
        obtain ⟨name, -, hname⟩ := hentities e he
        have hshort : more.length < n := by
          rw [← hlength, ← hmore, List.length_append, hname]
          simp [entity]
        obtain ⟨out, hout⟩ := ih more.length hshort more rfl
        rw [← hmore]
        exact ⟨_, .entry he hout⟩
      · have hshort : rest.length < n := by rw [← hlength]; exact Nat.lt_succ_self _
        obtain ⟨out, hout⟩ := ih rest.length hshort rest rfl
        exact ⟨_, .char (fun e he hbegins => hstarts ⟨e, he, hbegins⟩) hout⟩

/-- What begins no entity is read as it stands. -/
theorem reads_cons (hentities : ∀ e ∈ table, IsEntity e.1) {c : Char} (hc : c ≠ '&')
    (h : Reads table rest out) : Reads table (c :: rest) (c :: out) := by
  refine .char ?_ h
  intro e he hbegins
  obtain ⟨name, -, hname⟩ := hentities e he
  rw [hname, entity, List.cons_prefix_cons] at hbegins
  exact hc hbegins.1.symm

/-- Without an ampersand there is nothing to read. -/
theorem reads_append (hentities : ∀ e ∈ table, IsEntity e.1) {passed : List Char}
    (hpassed : '&' ∉ passed) (h : Reads table rest out) :
    Reads table (passed ++ rest) (passed ++ out) := by
  induction passed with
  | nil => exact h
  | cons c passed ih =>
    rw [List.mem_cons, not_or] at hpassed
    exact reads_cons hentities (Ne.symm hpassed.1) (ih hpassed.2)

/-- What is read for entities makes no pattern that was not there before. -/
theorem Reads.prefix_of_prefix (h : Reads table cs out) {pattern : List Char}
    (hpattern : ∀ e ∈ table, e.2 ∉ pattern) (hbegins : pattern <+: out) : pattern <+: cs := by
  -- An entry reads as a character that the pattern does not have, so what begins the output was
  -- read as it stands.
  induction h generalizing pattern with
  | nil => exact hbegins
  | @entry e _ _ he _ _ =>
    cases pattern with
    | nil => exact List.nil_prefix
    | cons d pattern =>
      rw [List.cons_prefix_cons] at hbegins
      rw [hbegins.1] at hpattern
      exact absurd List.mem_cons_self (hpattern e he)
  | char _ _ ih =>
    cases pattern with
    | nil => exact List.nil_prefix
    | cons d pattern =>
      rw [List.cons_prefix_cons] at hbegins ⊢
      exact ⟨hbegins.1, ih (fun e he hmem => hpattern e he (List.mem_cons_of_mem d hmem)) hbegins.2⟩

/-- One more entity can be read in the same pass, or in a round of its own after it. -/
theorem Reads.exists_round {e : List Char × Char} (h : Reads (table ++ [e]) cs out)
    (hentities : ∀ f ∈ table, IsEntity f.1) (he : IsEntity e.1)
    (hapart : ∀ f ∈ table, f.1 ≠ e.1 ∧ f.2 ∉ e.1) :
    ∃ mid, Reads table cs mid ∧ replaceAll e.1 [e.2] mid = out := by
  obtain ⟨name, hname, hpattern⟩ := id he
  induction h with
  | nil => exact ⟨[], .nil, rfl⟩
  | @entry f rest out hf _ ih =>
    obtain ⟨mid, hmid, hround⟩ := ih
    rcases List.mem_append.1 hf with hf | hf
    · -- what stands for an earlier entity does not start the new one
      have hhead : e.1.isPrefixOf (f.2 :: mid) = false := by
        rw [Bool.eq_false_iff, ne_eq, List.isPrefixOf_iff_prefix]
        intro hbegins
        rw [hpattern, entity, List.cons_prefix_cons] at hbegins
        refine (hapart f hf).2 ?_
        rw [hpattern, ← hbegins.1]
        exact List.mem_cons_self
      exact ⟨f.2 :: mid, .entry hf hmid, by rw [replaceAll_cons hhead, hround]⟩
    · -- the pass over the earlier ones leaves the new entity as it is
      rw [List.mem_singleton] at hf
      subst hf
      refine ⟨f.1 ++ mid, ?_, ?_⟩
      · have htail : '&' ∉ name ++ [';'] := by simp [hname.1]
        have hrest := reads_append hentities htail hmid
        rw [hpattern]
        refine .char ?_ hrest
        intro g hg hbegins
        have hstarts : g.1 <+: f.1 ++ rest := by
          rw [hpattern]
          exact hbegins
        exact (hapart g hg).1 (he.eq_of_prefix (hentities g hg) hstarts).symm
      · rw [replaceAll_occurrence (by simp [hpattern, entity]), hround]
        rfl
  | @char c rest out hnone _ ih =>
    obtain ⟨mid, hmid, hround⟩ := ih
    rw [List.forall_mem_append] at hnone
    have hread : Reads table (c :: rest) (c :: mid) := .char hnone.1 hmid
    have hhead : e.1.isPrefixOf (c :: mid) = false := by
      rw [Bool.eq_false_iff, ne_eq, List.isPrefixOf_iff_prefix]
      intro hbegins
      exact hnone.2 e List.mem_cons_self
        (hread.prefix_of_prefix (fun f hf => (hapart f hf).2) hbegins)
    exact ⟨c :: mid, hread, by rw [replaceAll_cons hhead, hround]⟩

/-- Rounds, one for each entity, read what one pass reads. -/
theorem Reads.foldl_eq (h : Reads table cs out) (hentities : ∀ e ∈ table, IsEntity e.1)
    (hapart : table.Pairwise fun e f => e.1 ≠ f.1 ∧ e.2 ∉ f.1) :
    table.foldl (fun cs e => replaceAll e.1 [e.2] cs) cs = out := by
  -- The rounds run from the first entry to the last, so the last round is split off.
  induction table using List.reverseRecOn generalizing out with
  | nil => exact reads_nil h
  | append_singleton table e ih =>
    rw [List.forall_mem_append] at hentities
    rw [List.pairwise_append] at hapart
    obtain ⟨mid, hmid, hround⟩ := h.exists_round hentities.1 (hentities.2 e List.mem_cons_self)
      fun f hf => hapart.2.2 f hf e List.mem_cons_self
    rw [List.foldl_append, ih hmid hentities.1 hapart.1]
    exact hround

end Reads

/-- All that `decode` looks for are entities. -/
theorem isEntity_of_mem_entities : ∀ e ∈ entities, IsEntity e.1 := by
  intro e he
  simp only [entities, List.mem_cons, List.not_mem_nil, or_false] at he
  rcases he with rfl | rfl | rfl | rfl | rfl | rfl
  · exact ⟨"lt".toList, by decide, by decide⟩
  · exact ⟨"gt".toList, by decide, by decide⟩
  · exact ⟨"quot".toList, by decide, by decide⟩
  · exact ⟨"apos".toList, by decide, by decide⟩
  · exact ⟨"#39".toList, by decide, by decide⟩
  · exact ⟨"amp".toList, by decide, by decide⟩

/-- The ampersand comes last: until then, no round makes an entity for a later one. -/
theorem decode_of_reads {cs out : List Char} (h : Reads entities cs out) : decode cs = out :=
  h.foldl_eq isEntity_of_mem_entities (by decide)

/-- The rounds of replacements read each entity once. -/
theorem reads_decode (cs : List Char) : Reads entities cs (decode cs) := by
  obtain ⟨out, hout⟩ := exists_reads isEntity_of_mem_entities cs
  rwa [decode_of_reads hout]

/-! ## Escaped texts -/

/-- Escaping leaves no character that could start or end a tag or a quoted value. -/
theorem not_mem_escapeChars {c : Char} (h : c = '<' ∨ c = '>' ∨ c = '"') (cs : List Char) :
    c ∉ escapeChars cs := by
  rw [escapeChars, List.mem_flatMap]
  rintro ⟨d, -, hd⟩
  unfold escapeChar at hd
  split at hd
  case h_5 =>
    rw [List.mem_singleton] at hd
    subst hd
    rcases h with rfl | rfl | rfl <;> simp_all
  all_goals rcases h with rfl | rfl | rfl <;> simp at hd

/-- What escaping adds is ASCII. -/
theorem not_mem_escapeChar {c d : Char} (h : 128 ≤ c.toNat) (hd : d ≠ c) : c ∉ escapeChar d := by
  have hascii : ∀ written ∈ ["&amp;".toList, "&lt;".toList, "&gt;".toList, "&quot;".toList],
      ∀ e ∈ written, e.toNat < 128 := by simp
  intro hc
  unfold escapeChar at hc
  split at hc
  case h_5 => exact hd (List.mem_singleton.mp hc).symm
  all_goals
    have := hascii _ (by simp) c hc
    omega

/-- Strings may be escaped apart. -/
theorem escape_append (s t : String) : escape (s ++ t) = escape s ++ escape t := by
  simp [escape, escapeChars]

@[simp] theorem toList_escape (s : String) : (escape s).toList = escapeChars s.toList := by
  simp [escape]

/-- Digits are not escaped. -/
theorem escape_digits (n : Nat) : escape n.repr = n.repr := by
  have hself : ∀ c ∈ n.repr.toList, escapeChar c = [c] := by
    intro c hc
    rw [Nat.toList_repr] at hc
    have hdigit := Nat.isDigit_of_mem_toDigits (by decide) (by decide) hc
    unfold escapeChar
    split <;> simp_all
  rw [escape, escapeChars, List.flatMap_congr hself, List.flatMap_singleton', String.ofList_toList]

/-- Each character is read from what it is written as. -/
theorem reads_escapeChars (cs : List Char) : Reads entities (escapeChars cs) cs := by
  induction cs with
  | nil => exact .nil
  | cons c cs ih =>
    rw [escapeChars, List.flatMap_cons]
    unfold escapeChar
    split
    · exact .entry (e := ("&amp;".toList, '&')) (by decide) ih
    · exact .entry (e := ("&lt;".toList, '<')) (by decide) ih
    · exact .entry (e := ("&gt;".toList, '>')) (by decide) ih
    · exact .entry (e := ("&quot;".toList, '"')) (by decide) ih
    · next hne _ _ _ => exact reads_cons isEntity_of_mem_entities hne ih

/-- What has been escaped is read back as it was. -/
theorem decode_escapeChars (cs : List Char) : decode (escapeChars cs) = cs :=
  decode_of_reads (reads_escapeChars cs)

/-- Reading one entity after the other is one pass over the text, in which nothing is read twice.
So it undoes escaping. -/
theorem decode_reads_once (s : String) :
    (∀ out, Reads entities s.toList out ↔ decode s.toList = out) ∧
      decode (escape s).toList = s.toList := by
  refine ⟨?_, ?_⟩
  · intro out
    constructor
    · exact decode_of_reads
    · rintro rfl
      exact reads_decode s.toList
  · rw [toList_escape, decode_escapeChars]

/-- An entity in an entity, one that is cut short, and one that another one seems to complete. -/
example : decode "&amp;lt;&l&lt;t;&amp;amp&#39".toList = "&lt;&l<t;&amp&#39".toList := by decide

end StyledText.Markdown.Html
