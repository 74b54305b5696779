import StyledText.Markdown.Html.Renderer

/-!
# Tags that do not end

Tags are read from left to right, and each goes on to the next `>`. So no tag is open behind a `>`,
whatever came before it (`tokensFrom_append`). Behind the last one, the first bracket that opens a
tag opens one that does not end.

* `Unended` says where a bracket opens such a tag, and `FirstUnended` which of them comes first.
* `Read`: reading fails at the first one, or there is none and it succeeds (`read_all`).
* `plainText_fails_at_first_unended` is the result.
-/

namespace StyledText.Markdown

namespace Html

variable {c : Char} {cs before head tail : List Char} {offset : Nat}

/-- Behind `before`, a bracket opens a tag, and no bracket follows that could end it. -/
def Unended (cs before : List Char) : Prop :=
  ∃ rest, cs = before ++ '<' :: rest ∧ opensTag rest ∧ '>' ∉ rest

/-- It is the first bracket of that sort. -/
structure FirstUnended (cs before : List Char) : Prop where
  unended : Unended cs before
  first : ∀ other, Unended cs other → before.length ≤ other.length

/-! ## Passing over characters -/

/-- A bracket in front counts only if it opens a tag and nothing behind it could end that. -/
theorem Unended.of_cons (hhead : c = '<' → opensTag cs → '>' ∈ cs)
    (h : Unended (c :: cs) before) : ∃ rest, before = c :: rest ∧ Unended cs rest := by
  obtain ⟨rest, heq, hopens, hend⟩ := h
  cases before with
  | nil =>
    obtain ⟨rfl, rfl⟩ := List.cons.inj heq
    exact absurd (hhead rfl hopens) hend
  | cons d before =>
    obtain ⟨rfl, rfl⟩ := List.cons.inj heq
    exact ⟨before, rfl, rest, rfl, hopens, hend⟩

/-- One more character in front, unless it opens a tag without an end. -/
theorem FirstUnended.cons (hhead : c = '<' → opensTag cs → '>' ∈ cs)
    (h : FirstUnended cs before) : FirstUnended (c :: cs) (c :: before) := by
  obtain ⟨⟨rest, hcs, hopens, hend⟩, hfirst⟩ := h
  refine ⟨⟨rest, congrArg (c :: ·) hcs, hopens, hend⟩, ?_⟩
  intro other hother
  obtain ⟨tail, rfl, htail⟩ := hother.of_cons hhead
  exact Nat.succ_le_succ (hfirst tail htail)

/-- Nothing counts in front of a closing bracket. -/
theorem FirstUnended.append (head : List Char) (h : FirstUnended tail before) :
    FirstUnended (head ++ '>' :: tail) (head ++ '>' :: before) := by
  induction head with
  | nil => exact h.cons (by simp)
  | cons c head ih => exact ih.cons (by simp)

/-- A tag without an end opens behind all closing brackets. -/
theorem Unended.of_append (h : Unended (head ++ '>' :: tail) before) :
    ∃ rest, Unended tail rest := by
  induction head generalizing before with
  | nil =>
    obtain ⟨rest, -, hrest⟩ := h.of_cons (by simp)
    exact ⟨rest, hrest⟩
  | cons c head ih =>
    obtain ⟨rest, -, hrest⟩ := Unended.of_cons (by simp) h
    exact ih hrest

/-- A text ends in a part without closing brackets. -/
theorem eq_or_exists_ended (cs : List Char) :
    '>' ∉ cs ∨ ∃ head tail, cs = head ++ '>' :: tail ∧ '>' ∉ tail := by
  induction cs with
  | nil => exact .inl List.not_mem_nil
  | cons c cs ih =>
    rcases ih with hnone | ⟨head, tail, rfl, htail⟩
    · by_cases hc : c = '>'
      · exact .inr ⟨[], cs, by rw [hc]; rfl, hnone⟩
      · exact .inl (by simp [hnone, Ne.symm hc])
    · exact .inr ⟨c :: head, tail, rfl, htail⟩

/-! ## Reading -/

/-- One character is read: it gives tokens or not, opens a tag, ends one, or none of that. Of what
follows only counts whether a bracket opens a tag there. -/
theorem tokensFrom_cons (offset : Nat) (inside : Option (Nat × List Char)) (c : Char)
    (cs : List Char) : ∃ ts inside', ∀ rest, (c = '<' → opensTag rest = opensTag cs) →
      tokensFrom offset inside (c :: rest) =
        (ts ++ ·) <$> tokensFrom (offset + c.utf8Size) inside' rest := by
  cases inside with
  | none =>
    by_cases hopen : c = '<' ∧ opensTag cs
    · obtain ⟨rfl, hopen⟩ := hopen
      refine ⟨[], some (offset, []), ?_⟩
      intro rest hrest
      rw [tokensFrom, if_pos (by simp [hrest rfl, hopen])]
      exact (id_map _).symm
    · refine ⟨[.char c], none, ?_⟩
      intro rest hrest
      have hplain : ¬ (decide (c = '<') && opensTag rest) = true := by
        intro hboth
        simp only [Bool.and_eq_true, decide_eq_true_eq] at hboth
        exact hopen ⟨hboth.1, (hrest hboth.1).symm.trans hboth.2⟩
      rw [tokensFrom, if_neg hplain]
      rfl
  | some read =>
    obtain ⟨start, body⟩ := read
    by_cases hend : c = '>'
    · refine ⟨[.tag body.reverse], none, ?_⟩
      intro rest _
      rw [tokensFrom, if_pos hend, hend]
      rfl
    · refine ⟨[], some (start, c :: body), ?_⟩
      intro rest _
      rw [tokensFrom, if_neg hend]
      exact (id_map _).symm

/-- Behind a closing bracket no tag is open, whether the bracket ended one or not. -/
theorem tokensFrom_append (head tail : List Char) (offset : Nat)
    (inside : Option (Nat × List Char)) : ∃ ts, tokensFrom offset inside (head ++ '>' :: tail) =
      (ts ++ ·) <$> tokensFrom (offset + Chars.byteLength head + 1) none tail := by
  -- Tags open and end on the way, so the induction is over all states.
  induction head generalizing offset inside with
  | nil =>
    cases inside with
    | none => exact ⟨[.char '>'], rfl⟩
    | some read => exact ⟨[.tag read.2.reverse], rfl⟩
  | cons c head ih =>
    obtain ⟨ts, inside', hfirst⟩ := tokensFrom_cons offset inside c (head ++ '>' :: tail)
    obtain ⟨more, hmore⟩ := ih (offset + c.utf8Size) inside'
    refine ⟨ts ++ more, ?_⟩
    rw [List.cons_append, hfirst _ fun _ => rfl, hmore, Functor.map_map, Chars.byteLength_cons,
      ← Nat.add_assoc]
    simp only [List.append_assoc]

/-- Without a closing bracket, a tag does not end. -/
theorem tokensFrom_inside_of_no_end {start : Nat} {body : List Char} (h : '>' ∉ cs) :
    tokensFrom offset (some (start, body)) cs = .error start := by
  induction cs generalizing offset body with
  | nil => rfl
  | cons c cs ih =>
    rw [List.mem_cons, not_or] at h
    rw [tokensFrom, if_neg (Ne.symm h.1), ih h.2]

/-- What reading comes to, from byte `offset` on and with no tag open. -/
inductive Read (offset : Nat) (cs : List Char) : Prop
  | fails {before : List Char} (first : FirstUnended cs before)
      (error : tokensFrom offset none cs = .error (offset + Chars.byteLength before))
  | succeeds {ts : List Token} (ended : ∀ before, ¬ Unended cs before)
      (ok : tokensFrom offset none cs = .ok ts)

/-- Without a closing bracket, reading fails at the first bracket that opens a tag. -/
theorem read_of_no_end (offset : Nat) (h : '>' ∉ cs) : Read offset cs := by
  induction cs generalizing offset with
  | nil => exact .succeeds (fun before ⟨rest, heq, _⟩ => by simp at heq) rfl
  | cons c cs ih =>
    rw [List.mem_cons, not_or] at h
    by_cases hopen : c = '<' && opensTag cs
    · simp only [Bool.and_eq_true, decide_eq_true_eq] at hopen
      obtain ⟨rfl, hopen⟩ := hopen
      have hfirst : FirstUnended ('<' :: cs) [] :=
        ⟨⟨cs, rfl, hopen, h.2⟩, fun other _ => Nat.zero_le other.length⟩
      refine .fails hfirst ?_
      rw [tokensFrom, if_pos (by simp [hopen]), tokensFrom_inside_of_no_end h.2]
      rfl
    · have hhead : c = '<' → opensTag cs → '>' ∈ cs := by
        rintro rfl hopens
        exact absurd (by simp [hopens]) hopen
      have hread : tokensFrom offset none (c :: cs) =
          (.char c :: ·) <$> tokensFrom (offset + c.utf8Size) none cs := by
        rw [tokensFrom, if_neg hopen]
      rcases ih (offset + c.utf8Size) h.2 with ⟨first, herror⟩ | ⟨hended, hok⟩
      · refine .fails (first.cons hhead) ?_
        rw [hread, herror, Chars.byteLength_cons, Nat.add_assoc]
        rfl
      · refine .succeeds (fun before hbefore => ?_) (by rw [hread, hok]; rfl)
        obtain ⟨rest, -, hrest⟩ := hbefore.of_cons hhead
        exact hended rest hrest

/-- Reading fails at the first tag without an end, or there is none. -/
theorem read_all (cs : List Char) : Read 0 cs := by
  rcases eq_or_exists_ended cs with hnone | ⟨head, tail, rfl, htail⟩
  · exact read_of_no_end 0 hnone
  · obtain ⟨ts, hread⟩ := tokensFrom_append head tail 0 none
    rcases read_of_no_end (0 + Chars.byteLength head + 1) htail with ⟨first, herror⟩ | ⟨hended, hok⟩
    · refine .fails (first.append head) ?_
      rw [hread, herror, Chars.byteLength_append, Chars.byteLength_cons, Nat.zero_add, Nat.zero_add,
        ← Nat.add_assoc]
      rfl
    · refine .succeeds (fun before hbefore => ?_) (by rw [hread, hok]; rfl)
      obtain ⟨rest, hrest⟩ := hbefore.of_append
      exact hended rest hrest

end Html

/-- Rendering plain text fails where a tag opens that does not end, and it names the byte where the
first such tag starts. Otherwise it succeeds, with one run in the given style. -/
theorem HtmlRenderer.plainText_fails_at_first_unended (html : String) (base : Attributes) :
    ((∃ e, plainText.render html base = .error e) ↔
      ∃ before, Html.Unended html.toList before) ∧
    (∀ e, plainText.render html base = .error e → ∃ before,
      Html.FirstUnended html.toList before ∧
        e.detail = "unterminated tag at byte " ++ toString (Chars.byteLength before)) ∧
    ((∀ before, ¬ Html.Unended html.toList before) →
      ∃ shown, plainText.render html base = .ok (.styled shown base)) := by
  rcases Html.read_all html.toList with ⟨hfirst, herror⟩ | ⟨hended, hok⟩
  · next before =>
    have hfails : plainText.render html base =
        .error (.unterminatedTag (Chars.byteLength before)) := by
      rw [Nat.zero_add] at herror
      simp only [plainText, Html.plainText, Html.tokens, herror, Except.map]
    refine ⟨⟨fun _ => ⟨before, hfirst.unended⟩, fun _ => ⟨_, hfails⟩⟩, ?_, ?_⟩
    · intro e he
      rw [hfails] at he
      cases he
      exact ⟨before, hfirst, rfl⟩
    · intro hnone
      exact absurd hfirst.unended (hnone before)
  · next ts =>
    have hshows : ∃ shown, plainText.render html base = .ok (.styled shown base) := by
      simp only [plainText, Html.plainText, Html.tokens, hok, Except.map]
      exact ⟨_, rfl⟩
    obtain ⟨shown, hshown⟩ := hshows
    refine ⟨⟨?_, fun ⟨before, hbefore⟩ => absurd hbefore (hended before)⟩, ?_,
      fun _ => ⟨shown, hshown⟩⟩
    · rintro ⟨e, he⟩
      rw [hshown] at he
      cases he
    · intro e he
      rw [hshown] at he
      cases he

/-- A bracket inside a tag, one that opens none, and one that opens a tag behind two bytes of one
character. -/
example : HtmlRenderer.plainText.render "<p <b>1 < é<i <b" {} = .error (.unterminatedTag 12) :=
  rfl

end StyledText.Markdown
