import StyledText.Proofs.Attribute.Alike
import StyledText.Proofs.Text.Locate
import StyledText.Text.Coalesced
import Mathlib.Data.List.Chain

/-!
# Styled content

What a text shows does not depend on how it is cut into runs. Its *items* are its single characters
and its runs with an attachment, each with its attributes (`Text.items`); two texts have the same
content if their items agree one by one (`Text.SameContent`).

* Coalescing keeps the content (`coalesced_sameContent`), and what it makes of a text can be read
  off the items (`coalesced_spelled`). So it gives two texts the same form exactly if they have the
  same content (`alike_coalesced_iff`).
* A coalesced text has no run that shows nothing and no two neighbours that could be one
  (`Text.IsCompact`), and a text without those is left as it is (`coalesced_of_isCompact`).
* `coalesced_isCanonical` is the result.
-/

namespace StyledText

/-! ## Items -/

namespace Run

/-- Characters of one style, each as a run. -/
def spell (attributes : Attributes) (cs : List Char) : List Run :=
  cs.map fun c => { text := c.toString, attributes }

@[simp] theorem spell_nil (a : Attributes) : spell a [] = [] := rfl

@[simp] theorem spell_cons (a : Attributes) (c : Char) (cs : List Char) :
    spell a (c :: cs) = { text := c.toString, attributes := a } :: spell a cs := rfl

theorem spell_append (a : Attributes) (cs ds : List Char) :
    spell a (cs ++ ds) = spell a cs ++ spell a ds := List.map_append

/-- The parts of a run that are never cut: all of it if it carries an attachment, and else its
characters. -/
def items (r : Run) : List Run :=
  if r.attributes.attachment?.isSome then [r] else spell r.attributes r.chars

/-- A run with an attachment is one item. -/
theorem items_of_attachment {r : Run} {a : Attachment} (h : r.attributes.attachment? = some a) :
    r.items = [r] := by
  rw [items, h]
  rfl

/-- All other runs are spelled. -/
theorem items_of_no_attachment {r : Run} (h : r.attributes.attachment? = none) :
    r.items = spell r.attributes r.chars := by
  rw [items, h]
  rfl

/-- The items of a run have its characters. -/
theorem flatMap_chars_items (r : Run) : r.items.flatMap Run.chars = r.chars := by
  cases h : r.attributes.attachment? with
  | some => simp [items, h]
  | none => simp [items_of_no_attachment h, spell, List.flatMap_map, chars, Char.toString]

/-- The items of an item are the item itself. -/
theorem items_of_mem_items {r i : Run} (hi : i ∈ r.items) : i.items = [i] := by
  cases h : r.attributes.attachment? with
  | some =>
    rw [items_of_attachment h, List.mem_singleton] at hi
    rw [hi, items_of_attachment h]
  | none =>
    rw [items_of_no_attachment h] at hi
    obtain ⟨c, -, rfl⟩ := List.mem_map.1 hi
    have hitem := items_of_no_attachment (r := { text := c.toString, attributes := r.attributes }) h
    rw [hitem]
    simp [chars, Char.toString]

/-- Items have the attributes of their run. -/
theorem isNumeric_of_mem_items {r i : Run} (h : r.attributes.isNumeric) (hi : i ∈ r.items) :
    i.attributes.isNumeric := by
  unfold items at hi
  split at hi
  · rw [List.mem_singleton.1 hi]
    exact h
  · obtain ⟨c, -, rfl⟩ := List.mem_map.1 hi
    exact h

/-- Runs that agree have items that agree. -/
theorem items_alike {r s : Run} (h : r.alike s) : Agree r.items s.items := by
  obtain ⟨htext, hattributes⟩ := alike_iff.1 h
  unfold items
  rw [← Attributes.attachment?_eq_of_alike hattributes, chars, chars, ← htext]
  split
  · exact .cons h .nil
  · unfold Agree spell
    rw [List.forall₂_map_left_iff, List.forall₂_map_right_iff, List.forall₂_same]
    intro c _
    exact alike_iff.2 ⟨rfl, hattributes⟩

/-- Rows of runs that agree have items that agree. -/
theorem flatMap_items_agree {l m : List Run} (h : Agree l m) :
    Agree (l.flatMap items) (m.flatMap items) :=
  List.rel_flatMap h fun _ _ => items_alike

end Run

namespace Text

/-- All that a text shows: its characters and its runs with an attachment, in order. -/
def items (t : Text) : List Run := t.runs.flatMap Run.items

/-- The text with a run for each item. -/
def spelled (t : Text) : Text := ⟨t.items⟩

/-- Spelling out a text keeps its items. -/
theorem items_spelled (t : Text) : t.spelled.items = t.items := by
  have hitem : ∀ i ∈ t.items, i.items = [i] := by
    intro i hi
    obtain ⟨r, -, hi⟩ := List.mem_flatMap.1 hi
    exact Run.items_of_mem_items hi
  rw [items, spelled, List.flatMap_congr hitem, List.flatMap_singleton']

/-- Two texts show the same in the same style. -/
def SameContent (s t : Text) : Prop := Run.Agree s.items t.items

theorem isNumeric_of_mem_items {t : Text} {i : Run} (h : t.isNumeric) (hi : i ∈ t.items) :
    i.attributes.isNumeric := by
  obtain ⟨r, hr, hi⟩ := List.mem_flatMap.1 hi
  exact Run.isNumeric_of_mem_items (isNumeric_iff.1 h r hr) hi

namespace SameContent

variable {s t u : Text}

/-- A text with numeric attributes shows the same as itself. -/
theorem refl (h : t.isNumeric) : t.SameContent t :=
  Run.Agree.refl fun _ hi => isNumeric_of_mem_items h hi

theorem symm (h : s.SameContent t) : t.SameContent s := Run.Agree.symm h

theorem trans (h : s.SameContent t) (h' : t.SameContent u) : s.SameContent u :=
  Run.Agree.trans h h'

/-- Texts that agree run by run have the same content. -/
theorem of_alike (h : s.alike t) : s.SameContent t := Run.flatMap_items_agree (alike_iff.1 h)

/-- The items, written as runs, have the same content. -/
theorem spelled (h : t.isNumeric) : t.spelled.SameContent t := by
  rw [SameContent, items_spelled]
  exact refl h

/-- What has the same content is spelled the same way. -/
theorem alike_spelled (h : s.SameContent t) : s.spelled.alike t.spelled := alike_iff.2 h

/-- Texts of the same content have the same characters. -/
theorem chars_eq (h : s.SameContent t) : s.chars = t.chars := by
  have hitems : ∀ t : Text, t.items.flatMap Run.chars = t.chars := by
    intro t
    rw [items, List.flatMap_assoc, chars]
    exact List.flatMap_congr fun r _ => r.flatMap_chars_items
  rw [← hitems s, ← hitems t]
  unfold SameContent Run.Agree at h
  generalize s.items = is at h
  generalize t.items = js at h
  induction h with
  | nil => rfl
  | cons hij _ ih =>
    rw [List.flatMap_cons, List.flatMap_cons, ih, Run.chars, Run.chars, (Run.alike_iff.1 hij).1]

end SameContent

/-! ## Coalescing the items -/

section Coalesce

variable {current r : Run} {runs rest : List Run}

/-- What is invisible has neither characters nor an attachment. -/
theorem isInvisible_iff : isInvisible r ↔ r.isEmpty ∧ r.attributes.attachment? = none := by
  simp [isInvisible]

/-- A run takes in what has like attributes, if it has no attachment. -/
theorem absorbs_iff : absorbs current r ↔
    current.attributes.alike r.attributes ∧ current.attributes.attachment? = none := by
  simp [absorbs]

/-- A run that is taken in has no attachment, as the one that takes it in has none. -/
theorem attachment?_of_absorbs (h : absorbs current r) : r.attributes.attachment? = none := by
  obtain ⟨halike, hnone⟩ := absorbs_iff.1 h
  rw [← Attributes.attachment?_eq_of_alike halike, hnone]

/-- What comes from runs one by one is the same after coalescing, if nothing comes from a run that
shows nothing, and from a run that takes in another one what comes from both. -/
theorem flatMap_coalesceOnto {α : Type} {f : Run → List α}
    (hinvisible : ∀ r, isInvisible r → f r = [])
    (habsorbs : ∀ current r, absorbs current r →
      f { current with text := current.text ++ r.text } = f current ++ f r)
    (current : Run) (runs : List Run) :
    (coalesceOnto current runs).flatMap f = f current ++ runs.flatMap f := by
  induction runs generalizing current with
  | nil => simp [coalesceOnto]
  | cons r rest ih =>
    rw [coalesceOnto, List.flatMap_cons]
    split
    · next hr => rw [ih, hinvisible r hr, List.nil_append]
    · split
      · next htaken => rw [ih, habsorbs current r htaken, List.append_assoc]
      · rw [List.flatMap_cons, ih]

/-- A run with an attachment. It takes nothing in, so coalescing behind it starts afresh. -/
def barrier : Run := .ofAttachment { name := "" } {}

/-- The barrier takes in nothing. -/
theorem not_absorbs_barrier (r : Run) : ¬ absorbs barrier r := by
  simp [absorbs_iff, barrier, Run.ofAttachment, Attributes.attachment?]

/-- Behind the barrier, runs are coalesced as from the start. -/
theorem coalesceOnto_barrier (runs : List Run) :
    coalesceOnto barrier runs = barrier :: coalesceRuns runs := by
  induction runs with
  | nil => rfl
  | cons r rest ih =>
    rw [coalesceOnto, coalesceRuns, if_neg (not_absorbs_barrier r), ih]
    split <;> rfl

/-- What is kept whenever a run absorbs another is kept by coalescing. -/
theorem flatMap_coalesced {α : Type} {f : Run → List α}
    (hinvisible : ∀ r, isInvisible r → f r = [])
    (habsorbs : ∀ current r, absorbs current r →
      f { current with text := current.text ++ r.text } = f current ++ f r) (t : Text) :
    t.coalesced.runs.flatMap f = t.runs.flatMap f := by
  have hruns := flatMap_coalesceOnto hinvisible habsorbs barrier t.runs
  rw [coalesceOnto_barrier, List.flatMap_cons] at hruns
  exact List.append_cancel_left hruns

/-- Coalescing keeps the characters. -/
theorem chars_coalesced (t : Text) : t.coalesced.chars = t.chars := by
  refine flatMap_coalesced ?_ ?_ t
  · intro r hr
    exact Run.isEmpty_iff.1 (isInvisible_iff.1 hr).1
  · intro current r _
    simp [Run.chars]

/-- A character can be seen. -/
theorem not_isInvisible_char (a : Attributes) (c : Char) :
    ¬ isInvisible { text := c.toString, attributes := a } := by
  simp [isInvisible_iff, Run.isEmpty, Char.toString]

/-- A run takes in characters of its own style one by one. -/
theorem coalesceOnto_spell (current : Run) {a : Attributes} (halike : current.attributes.alike a)
    (hnone : current.attributes.attachment? = none) (cs : List Char) (rest : List Run) :
    coalesceOnto current (Run.spell a cs ++ rest) =
      coalesceOnto { current with text := current.text ++ String.ofList cs } rest := by
  -- After each character the run still has its attributes, so it takes in the next one.
  induction cs generalizing current with
  | nil => simp
  | cons c cs ih =>
    have htaken : absorbs current { text := c.toString, attributes := a } :=
      absorbs_iff.2 ⟨halike, hnone⟩
    have hmore := ih { current with text := current.text ++ c.toString } halike hnone
    have htext : current.text ++ c.toString ++ String.ofList cs =
        current.text ++ String.ofList (c :: cs) := by
      rw [String.append_assoc, Char.toString, String.ofList_cons]
    rw [Run.spell_cons, List.cons_append, coalesceOnto, if_neg (not_isInvisible_char a c),
      if_pos htaken, hmore, htext]

/-- A run without an attachment is written out as its first character that takes in the others. -/
theorem coalesceOnto_first {c : Char} {cs : List Char} (hr : r.attributes.isNumeric)
    (hnone : r.attributes.attachment? = none) (hchars : r.chars = c :: cs) (rest : List Run) :
    coalesceOnto { r with text := c.toString } (Run.spell r.attributes cs ++ rest) =
      coalesceOnto r rest := by
  have htext : c.toString ++ String.ofList cs = r.text := by
    rw [← String.ofList_toList (s := r.text), ← Run.chars, hchars]
    simp [Char.toString]
  have hfirst := coalesceOnto_spell { r with text := c.toString } (Attributes.alike_self_iff.2 hr)
    hnone cs rest
  rw [hfirst, htext]

/-- Behind a run, the items of the next one count as much as that run. -/
theorem coalesceOnto_items (hr : r.attributes.isNumeric) (current : Run) (rest : List Run) :
    coalesceOnto current (r.items ++ rest) = coalesceOnto current (r :: rest) := by
  cases hnone : r.attributes.attachment? with
  | some =>
    rw [Run.items_of_attachment hnone]
    rfl
  | none =>
    rw [Run.items_of_no_attachment hnone]
    cases hchars : r.chars with
    | nil =>
      have hinvisible : isInvisible r := isInvisible_iff.2 ⟨Run.isEmpty_iff.2 hchars, hnone⟩
      rw [coalesceOnto, if_pos hinvisible]
      rfl
    | cons c cs =>
      have hvisible : ¬ isInvisible r := by
        rw [isInvisible_iff, Run.isEmpty_iff, hchars]
        simp
      rw [coalesceOnto, if_neg hvisible]
      by_cases htaken : absorbs current r
      · obtain ⟨halike, hempty⟩ := absorbs_iff.1 htaken
        rw [if_pos htaken, ← hchars, coalesceOnto_spell current halike hempty, Run.chars,
          String.ofList_toList]
      · -- the first character starts a run of its own
        have hfirst : ¬ absorbs current { r with text := c.toString } := htaken
        rw [if_neg htaken, Run.spell_cons, List.cons_append, coalesceOnto,
          if_neg (not_isInvisible_char r.attributes c), if_neg hfirst,
          coalesceOnto_first hr hnone hchars]

/-- Spelling out runs makes no difference to coalescing. -/
theorem coalesceOnto_flatMap_items (h : ∀ r ∈ runs, r.attributes.isNumeric) (current : Run) :
    coalesceOnto current (runs.flatMap Run.items) = coalesceOnto current runs := by
  induction runs generalizing current with
  | nil => rfl
  | cons r rest ih =>
    rw [List.forall_mem_cons] at h
    rw [List.flatMap_cons, coalesceOnto_items h.1]
    simp only [coalesceOnto, ih h.2]

/-- Coalescing can start from the items. -/
theorem coalesced_spelled {t : Text} (h : t.isNumeric) : t.spelled.coalesced = t.coalesced := by
  have hruns := coalesceOnto_flatMap_items (isNumeric_iff.1 h) barrier
  rw [coalesceOnto_barrier, coalesceOnto_barrier, List.cons.injEq] at hruns
  exact congrArg Text.mk hruns.2

/-! ## The content is kept -/

/-- Rows of runs that agree are coalesced alike. -/
theorem coalesceOnto_alike {next : Run} {runs' : List Run} (hcurrent : current.alike next)
    (h : Run.Agree runs runs') :
    Run.Agree (coalesceOnto current runs) (coalesceOnto next runs') := by
  unfold Run.Agree at h ⊢
  induction h generalizing current next with
  | nil => exact .cons hcurrent .nil
  | @cons r s _ _ hrs _ ih =>
    obtain ⟨htext, hattributes⟩ := Run.alike_iff.1 hrs
    obtain ⟨htext', hattributes'⟩ := Run.alike_iff.1 hcurrent
    -- Both tests of the loop come out the same for runs that agree.
    have hinvisible : isInvisible s ↔ isInvisible r := by
      rw [isInvisible_iff, isInvisible_iff, Run.isEmpty_eq_of_alike hrs,
        Attributes.attachment?_eq_of_alike hattributes]
    have habsorbs : absorbs next s ↔ absorbs current r := by
      rw [absorbs_iff, absorbs_iff, Attributes.attachment?_eq_of_alike hattributes']
      refine and_congr_left fun _ => ⟨fun h => ?_, fun h => ?_⟩
      · exact Attributes.alike_trans (Attributes.alike_trans hattributes' h)
          (Attributes.alike_symm hattributes)
      · exact Attributes.alike_trans (Attributes.alike_trans (Attributes.alike_symm hattributes') h)
          hattributes
    simp only [coalesceOnto, hinvisible, habsorbs]
    split
    · exact ih hcurrent
    · split
      · exact ih (Run.alike_iff.2 ⟨by rw [htext, htext'], hattributes'⟩)
      · exact .cons hcurrent (ih hrs)

/-- Texts that are alike are coalesced alike. -/
theorem coalesced_alike {s t : Text} (h : s.alike t) : s.coalesced.alike t.coalesced := by
  have hbarrier : barrier.alike barrier := by decide
  have hruns := coalesceOnto_alike hbarrier (alike_iff.1 h)
  rw [coalesceOnto_barrier, coalesceOnto_barrier, Run.Agree, List.forall₂_cons] at hruns
  exact alike_iff.2 hruns.2

/-- Coalescing keeps attributes numeric. -/
theorem isNumeric_coalesced {t : Text} (h : t.isNumeric) : t.coalesced.isNumeric :=
  alike_self_iff.1 (coalesced_alike (alike_self_iff.2 h))

/-- The items of a run that has taken in another one. -/
theorem items_absorbed (h : absorbs current r) :
    Run.items { current with text := current.text ++ r.text } =
      current.items ++ Run.spell current.attributes r.chars := by
  have hnone := (absorbs_iff.1 h).2
  have hlonger := Run.items_of_no_attachment
    (r := { current with text := current.text ++ r.text }) hnone
  rw [hlonger, Run.items_of_no_attachment hnone, ← Run.spell_append]
  simp [Run.chars]

/-- A run that is taken in shows the same in the style of the one that takes it in. -/
theorem spell_alike_items (h : absorbs current r) :
    Run.Agree (Run.spell current.attributes r.chars) r.items := by
  have hstyled : Run.alike { current with text := r.text } r :=
    Run.alike_iff.2 ⟨rfl, (absorbs_iff.1 h).1⟩
  have hitems := Run.items_alike hstyled
  rwa [Run.items_of_no_attachment (r := { current with text := r.text }) (absorbs_iff.1 h).2]
    at hitems

/-- The run written and what follows it show what they showed before. -/
theorem items_coalesceOnto (current : Run) (hcurrent : current.attributes.isNumeric)
    (h : ∀ r ∈ runs, r.attributes.isNumeric) :
    Run.Agree ((coalesceOnto current runs).flatMap Run.items)
      (current.items ++ runs.flatMap Run.items) := by
  -- Like attributes are the same up to the order of keys, so items only agree.
  induction runs generalizing current with
  | nil =>
    rw [coalesceOnto, List.flatMap_singleton, List.flatMap_nil, List.append_nil]
    exact Run.Agree.refl fun _ hi => Run.isNumeric_of_mem_items hcurrent hi
  | cons r rest ih =>
    have hself : Run.Agree current.items current.items :=
      Run.Agree.refl fun _ hi => Run.isNumeric_of_mem_items hcurrent hi
    have hrest : Run.Agree (rest.flatMap Run.items) (rest.flatMap Run.items) :=
      Run.Agree.refl fun _ hi =>
        isNumeric_of_mem_items (t := ⟨rest⟩) (isNumeric_iff.2 fun r hr => h r (.tail _ hr)) hi
    rw [List.forall_mem_cons] at h
    rw [coalesceOnto, List.flatMap_cons]
    split
    · next hinvisible =>
      obtain ⟨hempty, hnone⟩ := isInvisible_iff.1 hinvisible
      rw [Run.items_of_no_attachment hnone, Run.isEmpty_iff.1 hempty]
      exact ih current hcurrent h.2
    · split
      · next htaken =>
        have hmore := ih { current with text := current.text ++ r.text } hcurrent h.2
        rw [items_absorbed htaken, List.append_assoc] at hmore
        exact hmore.trans (hself.append ((spell_alike_items htaken).append hrest))
      · exact hself.append (ih r h.1 h.2)

/-- Coalescing keeps the content. -/
theorem coalesced_sameContent {t : Text} (h : t.isNumeric) : t.coalesced.SameContent t := by
  have hbarrier : barrier.attributes.isNumeric := by decide
  have hitems := items_coalesceOnto barrier hbarrier (isNumeric_iff.1 h)
  rw [coalesceOnto_barrier, List.flatMap_cons] at hitems
  exact (List.forall₂_cons.1 hitems).2

/-! ## Compact texts -/

/-- Coalescing leaves no invisible run. -/
theorem visible_coalesceOnto (runs : List Run) (hcurrent : ¬ isInvisible current) :
    ∀ r ∈ coalesceOnto current runs, ¬ isInvisible r := by
  induction runs generalizing current with
  | nil => simpa [coalesceOnto] using hcurrent
  | cons r rest ih =>
    rw [coalesceOnto]
    split
    · exact ih hcurrent
    · next hvisible =>
      split
      · next htaken =>
        -- what is taken in has characters, as it shows something without an attachment
        have hchars : r.chars ≠ [] := by
          rw [isInvisible_iff, Run.isEmpty_iff] at hvisible
          exact fun hnil => hvisible ⟨hnil, attachment?_of_absorbs htaken⟩
        refine ih ?_
        rw [isInvisible_iff, Run.isEmpty_iff, Run.chars, String.toList_append,
          List.append_eq_nil_iff]
        exact fun hnil => hchars hnil.1.2
      · rw [List.forall_mem_cons]
        exact ⟨hcurrent, ih hvisible⟩

/-- The run written keeps its attributes, and no run written could take in the next one. -/
theorem apart_coalesceOnto (current : Run) (runs : List Run) :
    ∃ text more, coalesceOnto current runs = { current with text } :: more ∧
      (coalesceOnto current runs).IsChain fun r s => ¬ absorbs r s := by
  -- The run in front only gets more text. What decides whether the next is absorbed are its
  -- attributes.
  induction runs generalizing current with
  | nil => exact ⟨current.text, [], rfl, .singleton _⟩
  | cons r rest ih =>
    rw [coalesceOnto]
    split
    · exact ih current
    · split
      · obtain ⟨text, more, hruns, hapart⟩ := ih { current with text := current.text ++ r.text }
        exact ⟨text, more, hruns, hapart⟩
      · next hkept =>
        obtain ⟨text, more, hruns, hapart⟩ := ih r
        refine ⟨current.text, coalesceOnto r rest, rfl, ?_⟩
        rw [hruns] at hapart ⊢
        exact .cons_cons hkept hapart

/-- Where nothing can be left out or taken in, the runs are written as they are. -/
theorem coalesceOnto_eq_self (hvisible : ∀ r ∈ runs, ¬ isInvisible r)
    (hapart : (current :: runs).IsChain fun r s => ¬ absorbs r s) :
    coalesceOnto current runs = current :: runs := by
  induction runs generalizing current with
  | nil => rfl
  | cons r rest ih =>
    rw [List.forall_mem_cons] at hvisible
    rw [List.isChain_cons_cons] at hapart
    rw [coalesceOnto, if_neg hvisible.1, if_neg hapart.1, ih hvisible.2 hapart.2]

end Coalesce

/-- Every run shows something, and neighbours agree in their attributes only if they carry an
attachment. -/
structure IsCompact (t : Text) : Prop where
  visible : ∀ r ∈ t.runs, r.isEmpty → r.attributes.attachment?.isSome
  apart : t.runs.IsChain fun r s => r.attributes.alike s.attributes →
    r.attributes.attachment?.isSome ∧ s.attributes.attachment?.isSome

/-- A text is compact if there is nothing to drop and nothing to absorb. -/
theorem isCompact_iff {t : Text} : t.IsCompact ↔
    (∀ r ∈ t.runs, ¬ isInvisible r) ∧ t.runs.IsChain fun r s => ¬ absorbs r s := by
  have hvisible : ∀ r : Run, (r.isEmpty → r.attributes.attachment?.isSome) ↔ ¬ isInvisible r := by
    intro r
    rw [isInvisible_iff, Option.isSome_iff_ne_none]
    tauto
  have hapart : ∀ r s : Run, (r.attributes.alike s.attributes →
      r.attributes.attachment?.isSome ∧ s.attributes.attachment?.isSome) ↔ ¬ absorbs r s := by
    intro r s
    rw [absorbs_iff, not_and]
    refine forall_congr' fun halike => ?_
    rw [← Attributes.attachment?_eq_of_alike halike, and_self, Option.isSome_iff_ne_none]
  simp only [← hvisible, ← hapart]
  exact ⟨fun h => ⟨h.visible, h.apart⟩, fun h => ⟨h.1, h.2⟩⟩

/-- A coalesced text is compact. -/
theorem isCompact_coalesced (t : Text) : t.coalesced.IsCompact := by
  have hbarrier : ¬ isInvisible barrier := by decide
  have hvisible := visible_coalesceOnto t.runs hbarrier
  obtain ⟨_, _, -, hapart⟩ := apart_coalesceOnto barrier t.runs
  rw [coalesceOnto_barrier] at hvisible hapart
  exact isCompact_iff.2 ⟨(List.forall_mem_cons.1 hvisible).2, hapart.of_cons⟩

/-- A compact text is left as it is. -/
theorem coalesced_of_isCompact {t : Text} (h : t.IsCompact) : t.coalesced = t := by
  obtain ⟨hvisible, hapart⟩ := isCompact_iff.1 h
  have hchain : (barrier :: t.runs).IsChain fun r s => ¬ absorbs r s :=
    List.isChain_cons.2 ⟨fun r _ => not_absorbs_barrier r, hapart⟩
  have hruns := coalesceOnto_eq_self hvisible hchain
  rw [coalesceOnto_barrier, List.cons.injEq] at hruns
  exact congrArg Text.mk hruns.2

/-! ## The canonical form -/

/-- Two texts have the same form exactly if they have the same content. -/
theorem alike_coalesced_iff {s t : Text} (hs : s.isNumeric) (ht : t.isNumeric) :
    s.coalesced.alike t.coalesced ↔ s.SameContent t := by
  constructor
  · intro h
    exact ((coalesced_sameContent hs).symm.trans (.of_alike h)).trans (coalesced_sameContent ht)
  · intro h
    have halike := coalesced_alike h.alike_spelled
    rwa [coalesced_spelled hs, coalesced_spelled ht] at halike

/-- Coalescing gives a text the canonical form of its content. -/
theorem coalesced_isCanonical (t : Text) (h : t.isNumeric) :
    t.coalesced.string = t.string ∧ t.coalesced.IsCompact ∧ t.coalesced.coalesced = t.coalesced ∧
      ∀ s : Text, s.isNumeric → (s.coalesced.alike t.coalesced ↔ s.SameContent t) := by
  refine ⟨?_, t.isCompact_coalesced, coalesced_of_isCompact t.isCompact_coalesced, ?_⟩
  · rw [string, string, chars_coalesced]
  · exact fun s hs => alike_coalesced_iff hs h

/-- Text in one style around an empty run, then three neighbours with the same attachment, two of
which have characters. The sizes of the first and the third run are the two zeros. -/
def scraps : Text :=
  ⟨[{ text := "a", attributes := .ofList [(.font, .font { family := "Sans", size := ⟨0⟩ })] },
    { attributes := .ofList [(.link, .link (.relative "#"))] },
    { text := "b"
      attributes := .ofList [(.font, .font { family := "Sans", size := ⟨0x80000000⟩ })] },
    .ofAttachment { name := "map" } {}, { Run.ofAttachment { name := "map" } {} with text := "1" },
    { Run.ofAttachment { name := "map" } {} with text := "2" }]⟩

/-- The first three runs of the text become one, and the others stay. -/
theorem scraps_isCanonical :
    scraps.isNumeric ∧ scraps.coalesced.runs.length = 4 ∧ scraps.coalesced.string = "ab12" ∧
      scraps.coalesced.IsCompact ∧ scraps.coalesced.coalesced = scraps.coalesced ∧
      ∀ s : Text, s.isNumeric → (s.coalesced.alike scraps.coalesced ↔ s.SameContent scraps) := by
  have hnumeric : scraps.isNumeric := by decide
  obtain ⟨hstring, hcanonical⟩ := coalesced_isCanonical scraps hnumeric
  have hshown : scraps.string = "ab12" := by decide
  exact ⟨hnumeric, by decide, hstring.trans hshown, hcanonical⟩

end Text

end StyledText
