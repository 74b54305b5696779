import StyledText.Proofs.Chars.Ink
import StyledText.Proofs.Html.Unended

/-!
# Comments

A comment is read as a tag is: it starts with `<!`, and the first `>` ends it. So a comment without
that character shows nothing, and of any other the rest behind it is read as if it stood alone.

* `toOption_tokensFrom_append`: what follows a text that can be read is read on its own.
* `blocks_of_nothing`: a tag without effect can be left out.
* `plainText_ends_comment_at_bracket` is the result, and `remark_shows_text` a comment that shows.
-/

namespace StyledText.Markdown

namespace Html

variable {cs : List Char} {ts us : List Token} {offset : Nat}

/-! ## Reading on -/

/-- Forgetting errors commutes with a function on results. -/
theorem toOption_map {ε α β : Type} (f : α → β) (x : Except ε α) :
    (f <$> x).toOption = x.toOption.map f := by
  cases x <;> rfl

/-- Where the text starts, and where an open tag did, only shows in an error. -/
theorem toOption_tokensFrom (offset offset' : Nat) {inside inside' : Option (Nat × List Char)}
    (h : inside.map Prod.snd = inside'.map Prod.snd) (cs : List Char) :
    (tokensFrom offset inside cs).toOption = (tokensFrom offset' inside' cs).toOption := by
  -- Offsets and where a tag began are only told in errors.
  induction cs generalizing offset offset' inside inside' with
  | nil =>
    cases inside with
    | none =>
      cases inside' with
      | none => rfl
      | some read => contradiction
    | some read =>
      cases inside' with
      | none => contradiction
      | some read' => rfl
  | cons c cs ih =>
    cases inside with
    | none =>
      cases inside' with
      | some read => contradiction
      | none =>
        simp only [tokensFrom]
        split
        · exact ih _ _ rfl
        · rw [toOption_map, toOption_map, ih _ (offset' + c.utf8Size) rfl]
    | some read =>
      cases inside' with
      | none => contradiction
      | some read' =>
        obtain ⟨start, body⟩ := read
        obtain ⟨start', body'⟩ := read'
        cases Option.some.inj h
        simp only [tokensFrom]
        split
        · rw [toOption_map, toOption_map, ih _ (offset' + 1) rfl]
        · exact ih _ _ rfl

/-- If all tags have ended and no bracket is left at the end, reading starts anew there. -/
theorem toOption_tokensFrom_append {inside : Option (Nat × List Char)}
    (h : (tokensFrom offset inside cs).toOption = some ts) (hlast : cs.getLast? ≠ some '<')
    (rest : List Char) : (tokensFrom offset inside (cs ++ rest)).toOption =
      (tokens rest).toOption.map (ts ++ ·) := by
  induction cs generalizing offset inside ts with
  | nil =>
    cases inside with
    | some read => contradiction
    | none =>
      cases Option.some.inj h
      rw [List.nil_append, toOption_tokensFrom offset 0 rfl]
      exact Option.map_id'.symm
  | cons c cs ih =>
    obtain ⟨first, inside', hfirst⟩ := tokensFrom_cons offset inside c cs
    rw [hfirst cs fun _ => rfl, toOption_map, Option.map_eq_some_iff] at h
    obtain ⟨more, hmore, rfl⟩ := h
    -- What is behind a bracket stays the same, as a bracket is not the last character.
    have hopens : c = '<' → opensTag (cs ++ rest) = opensTag cs := by
      rintro rfl
      cases cs with
      | nil => exact absurd rfl hlast
      | cons d cs => rfl
    have hlast' : cs.getLast? ≠ some '<' := by
      cases cs with
      | nil => simp
      | cons d cs => rwa [List.getLast?_cons_cons] at hlast
    rw [List.cons_append, hfirst _ hopens, toOption_map, ih hmore hlast', Option.map_map]
    simp only [Function.comp_def, List.append_assoc]

/-- A tag is read to its end, and the rest is read apart. -/
theorem toOption_tokensFrom_inside {start : Nat} {rest : List Char} :
    ∀ (body read : List Char) (offset : Nat), '>' ∉ body →
      (tokensFrom offset (some (start, read)) (body ++ '>' :: rest)).toOption =
        (tokens rest).toOption.map (.tag (read.reverse ++ body) :: ·)
  | [], read, offset, _ => by
    rw [List.nil_append, tokensFrom, if_pos rfl, toOption_map, List.append_nil,
      toOption_tokensFrom _ 0 rfl, tokens]
  | c :: body, read, offset, hbody => by
    rw [List.mem_cons, not_or] at hbody
    rw [List.cons_append, tokensFrom, if_neg (Ne.symm hbody.1),
      toOption_tokensFrom_inside body (c :: read) _ hbody.2]
    simp

/-- A tag goes on to the first bracket, whatever comes then. -/
theorem toOption_tokens_tag {body rest : List Char} (hopens : opensTag (body ++ '>' :: rest) = true)
    (hbody : '>' ∉ body) : (tokens ('<' :: (body ++ '>' :: rest))).toOption =
      (tokens rest).toOption.map (.tag body :: ·) := by
  rw [tokens, tokensFrom, if_pos (by simp [hopens]), toOption_tokensFrom_inside body [] _ hbody]
  rfl

/-! ## Tags without effect -/

/-- What has no effect can be left out before blocks are cut. -/
theorem rawBlocks_filter (ts : List Token) :
    rawBlocks (ts.filter (·.effect ≠ .nothing)) = rawBlocks ts := by
  have heffects : (ts.filter (·.effect ≠ .nothing)).map Token.effect =
      (ts.map Token.effect).filter (· ≠ .nothing) := by
    rw [List.filter_map]
    rfl
  rw [rawBlocks, heffects, Chars.splitOn_filter (by decide), List.map_map, rawBlocks]
  refine List.map_congr_left fun es _ => ?_
  rw [Function.comp_apply, List.filterMap_filter]
  congr 1
  funext e
  cases e <;> rfl

/-- A token without an effect may be left out. -/
theorem blocks_of_nothing {t : Token} (h : t.effect = .nothing) :
    blocks (ts ++ t :: us) = blocks (ts ++ us) := by
  rw [blocks, ← rawBlocks_filter, List.filter_append, List.filter_cons, if_neg (by simp [h]),
    ← List.filter_append, rawBlocks_filter, blocks]

/-- A declaration is no element. -/
theorem effect_declaration (body : List Char) : Token.effect (.tag ('!' :: body)) = .nothing := by
  have hname : tagName ('!' :: body) = "" := by simp [tagName]
  simp [Token.effect, hname, blockElements]

end Html

namespace HtmlRenderer

open Html

variable {a : String} {base : Attributes}

/-- What is shown depends on the tokens. -/
theorem toOption_plainText (html : String) (base : Attributes) :
    (plainText.render html base).toOption = (tokens html.toList).toOption.map fun ts =>
      Text.styled (.ofList (List.intercalate [paragraphSeparator] (blocks ts))) base := by
  simp only [plainText, Html.plainText]
  cases tokens html.toList <;> rfl

/-- A declaration shows nothing, and it ends at its first bracket. -/
theorem toOption_plainText_declaration (ha : ∃ text, plainText.render a base = .ok text)
    (hlast : a.toList.getLast? ≠ some '<') {body : String} (hbody : '>' ∉ body.toList)
    (rest : String) : (plainText.render (a ++ ("<!" ++ body ++ ">" ++ rest)) base).toOption =
      (plainText.render (a ++ rest) base).toOption := by
  obtain ⟨ts, hts⟩ : ∃ ts, (tokens a.toList).toOption = some ts := by
    obtain ⟨text, htext⟩ := ha
    have hshown := congrArg Except.toOption htext
    rw [toOption_plainText] at hshown
    obtain ⟨ts, hts, -⟩ := Option.map_eq_some_iff.1 hshown
    exact ⟨ts, hts⟩
  -- A declaration is a tag like any other: it is read, and nothing comes of it.
  have hwhole : (a ++ ("<!" ++ body ++ ">" ++ rest)).toList =
      a.toList ++ '<' :: ('!' :: body.toList ++ '>' :: rest.toList) := by simp
  have hend : '>' ∉ '!' :: body.toList := by simp [hbody]
  have hread (cs : List Char) : (tokens (a.toList ++ cs)).toOption =
      (tokens cs).toOption.map (ts ++ ·) := toOption_tokensFrom_append hts hlast cs
  rw [toOption_plainText, toOption_plainText, hwhole, String.toList_append, hread, hread,
    toOption_tokens_tag rfl hend, Option.map_map, Option.map_map, Option.map_map]
  congr 1
  funext us
  exact congrArg (fun parts => Text.styled (.ofList (List.intercalate _ parts)) base)
    (blocks_of_nothing (effect_declaration body.toList))

/-- A comment contributes nothing if it holds no closing bracket. If it does, the first one ends it,
and what follows there is shown as if it stood outside, dashes included. -/
theorem plainText_ends_comment_at_bracket (ha : ∃ text, plainText.render a base = .ok text)
    (hlast : a.toList.getLast? ≠ some '<') (comment b : String) :
    ('>' ∉ comment.toList →
      (plainText.render (a ++ "<!--" ++ comment ++ "-->" ++ b) base).toOption =
        (plainText.render (a ++ b) base).toOption) ∧
    ∀ head tail, comment = head ++ ">" ++ tail → '>' ∉ head.toList →
      (plainText.render (a ++ "<!--" ++ comment ++ "-->" ++ b) base).toOption =
        (plainText.render (a ++ tail ++ "-->" ++ b) base).toOption := by
  refine ⟨?_, ?_⟩
  · intro hcomment
    have hbody : '>' ∉ ("--" ++ comment ++ "--").toList := by simp [hcomment]
    have hwhole : a ++ "<!--" ++ comment ++ "-->" ++ b =
        a ++ ("<!" ++ ("--" ++ comment ++ "--") ++ ">" ++ b) := by
      apply String.toList_inj.1
      simp
    rw [hwhole, toOption_plainText_declaration ha hlast hbody]
  · rintro head tail rfl hhead
    have hbody : '>' ∉ ("--" ++ head).toList := by simp [hhead]
    have hwhole : a ++ "<!--" ++ (head ++ ">" ++ tail) ++ "-->" ++ b =
        a ++ ("<!" ++ ("--" ++ head) ++ ">" ++ (tail ++ "-->" ++ b)) := by
      apply String.toList_inj.1
      simp
    have hrest : a ++ tail ++ "-->" ++ b = a ++ (tail ++ "-->" ++ b) := by
      simp only [String.append_assoc]
    rw [hwhole, hrest, toOption_plainText_declaration ha hlast hbody]

/-- A comment that ends early, between two texts. What follows its bracket is shown. -/
theorem remark_ends_at_bracket :
    (∃ text, plainText.render "1 < 2" {} = .ok text) ∧ "1 < 2".toList.getLast? ≠ some '<' ∧
      '>' ∉ " <b".toList ∧
      (plainText.render ("1 < 2" ++ "<!--" ++ " <b> &amp; <i" ++ "-->" ++ "3") {}).toOption =
        (plainText.render ("1 < 2" ++ " &amp; <i" ++ "-->" ++ "3") {}).toOption := by
  have ha : ∃ text, plainText.render "1 < 2" {} = .ok text := ⟨_, rfl⟩
  have hlast : "1 < 2".toList.getLast? ≠ some '<' := by decide
  have hhead : '>' ∉ " <b".toList := by decide
  exact ⟨ha, hlast, hhead, (plainText_ends_comment_at_bracket ha hlast " <b> &amp; <i" "3").2
    " <b" " &amp; <i" rfl hhead⟩

/-- So not every comment is left out. -/
theorem remark_shows_text :
    (∃ text, plainText.render "x" {} = .ok text) ∧ "x".toList.getLast? ≠ some '<' ∧
      ¬ "-->".toList <:+: " a > b ".toList ∧ ¬ ">".toList <+: " a > b ".toList ∧
      ¬ "->".toList <+: " a > b ".toList ∧
      plainText.render ("x" ++ "<!--" ++ " a > b " ++ "-->" ++ "y") {} =
        .ok (.styled "x b -->y" {}) ∧
      plainText.render ("x" ++ "y") {} = .ok (.styled "xy" {}) :=
  ⟨⟨_, rfl⟩, by decide, by simp [List.infix_cons_iff], by decide, by decide, rfl, rfl⟩

end HtmlRenderer

end StyledText.Markdown
