import StyledText.Proofs.Html.PlainText

/-!
# Tags of written HTML

`cut` reads HTML as bluntly as can be: every `<` opens a tag, and the next `>` ends it. In written
HTML it finds the tags of the writer and no others. They are well nested, and no string of the
tree has a say in them.

* `WellNested`: each tag that opens an element is closed by the tag that matches it.
* `Outline.shape`: what is left of an outline without its strings.
* `toHtml_writes_tags`: what the tags are, and what stands between them.
-/

namespace StyledText.Markdown

namespace Html

/-! ## Cutting -/

/-- Cuts HTML. In `inside`, what was read of an open tag is kept, last character first. -/
def cutFrom (inside : Option (List Char)) : List Char → Option (List Token)
  | [] =>
    match inside with
    | some _ => none
    | none => some []
  | c :: rest =>
    match inside with
    | some body =>
      if c = '>' then (.tag body.reverse :: ·) <$> cutFrom none rest
      else cutFrom (some (c :: body)) rest
    | none =>
      if c = '<' then cutFrom (some []) rest
      else (.char c :: ·) <$> cutFrom none rest

/-- The tags of HTML and the characters between them, unless a tag does not end. -/
def cut (html : List Char) : Option (List Token) := cutFrom none html

section Cut

variable {cs : List Char} {ts : List Token}

/-- Characters outside of tags stay as they are. -/
theorem cut_append (h : cut cs = some ts) {passed : List Char} (hpassed : '<' ∉ passed) :
    cut (passed ++ cs) = some (passed.map .char ++ ts) := by
  induction passed with
  | nil => exact h
  | cons c passed ih =>
    simp only [List.mem_cons, not_or] at hpassed
    have hrest : cutFrom none (passed ++ cs) = _ := ih hpassed.2
    simp [cut, cutFrom, Ne.symm hpassed.1, hrest]

/-- A tag goes on to its end. -/
theorem cutFrom_inside (h : cut cs = some ts) : ∀ body read : List Char, '>' ∉ body →
    cutFrom (some read) (body ++ '>' :: cs) = some (.tag (read.reverse ++ body) :: ts)
  | [], read, _ => by
    rw [cut] at h
    simp [cutFrom, h]
  | c :: body, read, hbody => by
    simp only [List.mem_cons, not_or] at hbody
    rw [List.cons_append, cutFrom]
    simp [Ne.symm hbody.1, cutFrom_inside h body (c :: read) hbody.2]

/-- What stands between brackets is one tag. -/
theorem cut_tag (h : cut cs = some ts) {body : List Char} (hbody : '>' ∉ body) :
    cut ('<' :: (body ++ '>' :: cs)) = some (.tag body :: ts) := by
  rw [cut, cutFrom]
  simp [cutFrom_inside h body [] hbody]

/-- What was written is cut piece by piece. -/
theorem cut_printAll {ps : List Piece} (h : ∀ s, .raw s ∉ ps) :
    cut (printAll ps).toList = some (ps.flatMap Piece.tokens) := by
  -- The pieces are cut one by one, and no piece but a tag has an angle bracket.
  induction ps with
  | nil => rfl
  | cons p ps ih =>
    have hrest := ih fun s hs => h s (List.mem_cons_of_mem p hs)
    rw [printAll_cons, String.toList_append, List.flatMap_cons]
    cases p with
    | tag m => simpa [Piece.print, Piece.tokens] using cut_tag hrest m.not_mem_body
    | text s =>
      rw [Piece.print, toList_escape]
      exact cut_append hrest (not_mem_escapeChars (.inl rfl) s.toList)
    | newline => exact cut_append hrest (show '<' ∉ ['\n'] by decide)
    | raw s => exact absurd List.mem_cons_self (h s)

end Cut

/-! ## Names of tags -/

/-- A tag by the name of its element, and whether it opens or closes it. -/
inductive TagMark where
  | opening (name : String)
  | closing (name : String)
deriving DecidableEq, Repr

namespace TagMark

def ofBody (body : List Char) : TagMark :=
  if isEndTag body then closing (tagName body) else opening (tagName body)

/-- The elements that hold nothing and are not closed. -/
def voidNames : List String := ["hr", "br", "img"]

/-- The open elements after a tag, innermost first. A tag can close the innermost only. -/
def step (opened : List String) : TagMark → Option (List String)
  | opening name => some (if name ∈ voidNames then opened else name :: opened)
  | closing name => if opened.head? = some name then some opened.tail else none

end TagMark

def Token.mark? : Token → Option TagMark
  | char _ => none
  | tag body => some (.ofBody body)

def tagMarks (ts : List Token) : List TagMark := ts.filterMap Token.mark?

/-- Every element that is opened is closed by the tag that matches. -/
def WellNested (marks : List TagMark) : Prop := marks.foldlM TagMark.step [] = some []

instance (marks : List TagMark) : Decidable (WellNested marks) :=
  inferInstanceAs (Decidable (_ = _))

/-- The mark a tag is written for. -/
def Markup.mark : Markup → TagMark
  | opening e _ | void e _ => .opening e.name
  | closing e => .closing e.name

/-- Digits have no case. -/
theorem toLower_of_isDigit {c : Char} (h : c.isDigit) : c.toLower = c := by
  apply dif_neg
  simp only [Char.isDigit, ge_iff_le, Bool.and_eq_true, decide_eq_true_eq] at h
  intro hupper
  exact absurd (UInt32.le_trans hupper.1 h.2) (by decide)

/-- A name has letters and digits, all in lower case. -/
theorem Element.name_chars (e : Element) :
    ∀ c ∈ e.name.toList, c.isAlphanum ∧ c.toLower = c := by
  have hall : e.name.toList.all fun c => c.isAlphanum && c.toLower = c := by
    cases e with
    | h level =>
      have hdigits : (Nat.toDigits 10 level).all fun c => c.isAlphanum && c.toLower = c := by
        rw [List.all_eq_true]
        intro c hc
        have hdigit := Nat.isDigit_of_mem_toDigits (by decide) (by decide) hc
        simp [Char.isAlphanum, hdigit, toLower_of_isDigit hdigit]
      have hfirst : 'h'.isAlphanum && 'h'.toLower = 'h' := by decide
      simpa [name, hfirst] using hdigits
    | _ => decide
  intro c hc
  simpa using List.all_eq_true.1 hall c hc

/-- The name of an element does not begin with a slash. -/
theorem Element.exists_head (e : Element) : ∃ c cs, e.name.toList = c :: cs ∧ c ≠ '/' := by
  obtain ⟨c, cs, hname, halpha⟩ := e.exists_name
  refine ⟨c, cs, hname, ?_⟩
  rintro rfl
  exact absurd halpha (by decide)

/-- The name of an element is read up to where no letter or digit follows. -/
theorem Element.tagName_append (e : Element) (rest : List Char)
    (h : ∀ c ∈ rest.head?, ¬ c.isAlphanum) : tagName (e.name.toList ++ rest) = e.name := by
  have hslash : (e.name.toList ++ rest).dropWhile (· = '/') = e.name.toList ++ rest := by
    obtain ⟨c, cs, hname, hc⟩ := e.exists_head
    simp [hname, hc]
  -- The name ends where the properties begin, with a blank.
  have htaken : (e.name.toList ++ rest).takeWhile Char.isAlphanum = e.name.toList := by
    rw [List.takeWhile_append_of_pos fun c hc => (e.name_chars c hc).1]
    cases rest with
    | nil => simp
    | cons c rest => simp [h c rfl]
  have hlower : e.name.toList.map Char.toLower = e.name.toList :=
    (List.map_congr_left fun c hc => (e.name_chars c hc).2).trans (List.map_id _)
  rw [tagName, hslash, htaken, hlower, String.ofList_toList]

/-- What begins with the name of an element is no closing tag. -/
theorem Element.isEndTag_append (e : Element) (rest : List Char) :
    isEndTag (e.name.toList ++ rest) = false := by
  obtain ⟨c, cs, hname, hc⟩ := e.exists_head
  simp [isEndTag, hname, hc]

/-- Properties are set apart from a name. -/
theorem head?_printProperties (ps : List Property) (rest : List Char)
    (h : ∀ c ∈ rest.head?, c = ' ') :
    ∀ c ∈ ((printProperties ps).toList ++ rest).head?, ¬ c.isAlphanum := by
  intro c hc
  have hblank : c = ' ' := by
    cases ps with
    | nil => exact h c (by simpa using hc)
    | cons p ps => simpa [Property.print, eq_comm] using hc
  rw [hblank]
  decide

/-- A tag that was written is read as what it was written for. -/
theorem Markup.ofBody_body (m : Markup) : TagMark.ofBody m.body.toList = m.mark := by
  cases m with
  | opening e ps =>
    have hname := e.tagName_append _ (head?_printProperties ps [] (by simp))
    rw [List.append_nil] at hname
    simp [TagMark.ofBody, body, mark, e.isEndTag_append, hname]
  | closing e =>
    have hname := e.tagName_append [] (by simp)
    rw [List.append_nil] at hname
    have hslash : tagName ('/' :: e.name.toList) = tagName e.name.toList := by simp [tagName]
    simp [TagMark.ofBody, body, mark, isEndTag, hslash, hname]
  | void e ps =>
    have hname := e.tagName_append _ (head?_printProperties ps " /".toList (by simp))
    have hbody : (void e ps).body.toList =
        e.name.toList ++ ((printProperties ps).toList ++ " /".toList) := by simp [body]
    rw [TagMark.ofBody, hbody, e.isEndTag_append, hname]
    rfl

def Piece.mark? : Piece → Option TagMark
  | tag m => some m.mark
  | _ => none

/-- The marks of the tags among pieces, in order. -/
def marks (ps : List Piece) : List TagMark := ps.filterMap Piece.mark?

@[simp] theorem marks_nil : marks [] = [] := rfl

@[simp] theorem marks_cons_tag (m : Markup) (ps : List Piece) :
    marks (.tag m :: ps) = m.mark :: marks ps := rfl

@[simp] theorem marks_cons_text (s : String) (ps : List Piece) :
    marks (.text s :: ps) = marks ps := rfl

@[simp] theorem marks_cons_newline (ps : List Piece) : marks (.newline :: ps) = marks ps := rfl

@[simp] theorem marks_cons_raw (s : String) (ps : List Piece) :
    marks (.raw s :: ps) = marks ps := rfl

@[simp] theorem marks_append (ps qs : List Piece) : marks (ps ++ qs) = marks ps ++ marks qs :=
  List.filterMap_append

/-- An element has its tags around what is inside. -/
@[simp] theorem marks_wrap (e : Element) (properties : List Property) (inside : List Piece) :
    marks (e.wrap properties inside) =
      .opening e.name :: (marks inside ++ [.closing e.name]) := by
  simp [Element.wrap, Markup.mark]

/-- The marks that are read are those that were written. -/
theorem tagMarks_tokens (ps : List Piece) : tagMarks (ps.flatMap Piece.tokens) = marks ps := by
  -- Only tags leave marks, and each is read back from what it is printed as.
  induction ps with
  | nil => rfl
  | cons p ps ih =>
    rw [List.flatMap_cons, tagMarks, List.filterMap_append]
    rw [tagMarks] at ih
    cases p with
    | tag m => simp [Piece.tokens, Token.mark?, m.ofBody_body, ih]
    | text s =>
      have hnone : ∀ c, (Token.char c).mark? = none := fun _ => rfl
      simp [Piece.tokens, hnone, ih]
    | newline => simp [Piece.tokens, Token.mark?, ih]
    | raw s => simp [Piece.tokens, ih]

/-! ## Texts between tags -/

/-- The texts in front of, between and behind tags. -/
def between : List Token → List (List Char)
  | [] => [[]]
  | .char c :: ts => (between ts).modifyHead ([c] ++ ·)
  | .tag _ :: ts => [] :: between ts

/-- The same texts as the pieces have them, before they are escaped. -/
def shown : List Piece → List (List Char)
  | [] => [[]]
  | .tag _ :: ps => [] :: shown ps
  | .text s :: ps => (shown ps).modifyHead (s.toList ++ ·)
  | .newline :: ps => (shown ps).modifyHead (['\n'] ++ ·)
  | .raw _ :: ps => shown ps

/-- There is always something in front of the first tag, be it empty. -/
theorem shown_ne_nil (ps : List Piece) : shown ps ≠ [] := by
  induction ps with
  | nil => simp [shown]
  | cons p ps ih => cases p <;> simp [shown, ih]

/-- Characters in front of the tokens come before the first tag. -/
theorem between_append (cs : List Char) (ts : List Token) :
    between (cs.map .char ++ ts) = (between ts).modifyHead (cs ++ ·) := by
  induction cs with
  | nil => exact (congrFun List.modifyHead_id (between ts)).symm
  | cons c cs ih =>
    rw [List.map_cons, List.cons_append, between, ih, List.modifyHead_modifyHead]
    rfl

/-- No tag is in a text, and every text is escaped. -/
theorem between_tokens (ps : List Piece) :
    between (ps.flatMap Piece.tokens) = (shown ps).map escapeChars := by
  have hhead : ∀ (cs : List Char) (parts : List (List Char)),
      (parts.map escapeChars).modifyHead (escapeChars cs ++ ·) =
        (parts.modifyHead (cs ++ ·)).map escapeChars := by
    intro cs parts
    cases parts <;> simp [escapeChars]
  -- Text goes to the end of what stands before the next tag, so it is added in front of the first
  -- part.
  induction ps with
  | nil => rfl
  | cons p ps ih =>
    rw [List.flatMap_cons]
    cases p with
    | tag m =>
      rw [shown, List.map_cons, ← ih]
      rfl
    | text s => rw [Piece.tokens, between_append, ih, hhead, shown]
    | newline => exact (between_append ['\n'] _).trans (by rw [ih]; exact hhead ['\n'] _)
    | raw s => simpa [Piece.tokens, shown] using ih

/-- Parts may be escaped one by one. -/
theorem flatten_map_escapeChars (parts : List (List Char)) :
    (parts.map escapeChars).flatten = escapeChars parts.flatten := by
  induction parts with
  | nil => rfl
  | cons part parts ih => simp [escapeChars, ih]

/-- Texts one after the other, with ends of lines before, between and after them. -/
inductive Lined : List String → List Char → Prop
  | nil : Lined [] []
  | newline {ss : List String} {cs : List Char} : Lined ss cs → Lined ss ('\n' :: cs)
  | text (s : String) {ss : List String} {cs : List Char} :
    Lined ss cs → Lined (s :: ss) (s.toList ++ cs)

/-- What is shown between tags are the texts, with line ends between them. -/
theorem lined_shown (ps : List Piece) : Lined (texts ps) (shown ps).flatten := by
  induction ps with
  | nil => exact .nil
  | cons p ps ih =>
    cases p with
    | tag m => exact ih
    | text s =>
      rw [shown, Chars.flatten_modifyHead_append _ (shown_ne_nil ps)]
      exact ih.text s
    | newline =>
      rw [shown, Chars.flatten_modifyHead_append _ (shown_ne_nil ps)]
      exact ih.newline
    | raw s => exact ih

/-! ## Nesting -/

/-- Tags that close what they open, and leave alone what was open before. -/
def Settles (ms : List TagMark) : Prop := ∀ opened, ms.foldlM TagMark.step opened = some opened

theorem Settles.wellNested {ms : List TagMark} (h : Settles ms) : WellNested ms := h []

/-- Without tags nothing is left open. -/
theorem settles_nil : Settles [] := fun _ => rfl

/-- What settles may follow each other. -/
theorem Settles.append {ms more : List TagMark} (h : Settles ms) (hmore : Settles more) :
    Settles (ms ++ more) := by
  intro opened
  rw [List.foldlM_append, h opened]
  exact hmore opened

/-- Void elements need no closing tag. -/
theorem settles_void {name : String} (h : name ∈ TagMark.voidNames) : Settles [.opening name] := by
  intro opened
  simp [TagMark.step, h]

/-- What stands inside an element sees it open, and leaves it so. -/
theorem Settles.wrap {ms : List TagMark} (h : Settles ms) {name : String}
    (hname : name ∉ TagMark.voidNames) :
    Settles (.opening name :: (ms ++ [.closing name])) := by
  intro opened
  have hinside := h (name :: opened)
  simp [TagMark.step, hname, hinside]

end Html

open Html

/-- A kind without its strings, and without the number a list starts at. -/
def Kind.shape : Kind → Kind
  | .codeBlock .. => .codeBlock "" ""
  | .htmlBlock _ => .htmlBlock ""
  | .list kind _ tight => .list kind 1 tight
  | .text _ => .text ""
  | .code _ => .code ""
  | .inlineHtml _ => .inlineHtml ""
  | .link .. => .link "" ""
  | .image .. => .image "" "" ""
  | .unsupported _ => .unsupported ""
  | kind => kind

namespace Outline

/-- The ends of lines inside an item are no tags. -/
theorem marks_piecesItem (tight : Bool) (os : List Outline) (first : Bool) (before : List Piece) :
    marks (piecesItem tight first os before) = marks before ++ marks (piecesAll tight os) := by
  induction os generalizing first before with
  | nil => simp [piecesItem, piecesAll]
  | cons o rest ih =>
    rw [piecesItem, ih, piecesAll, marks_append, marks_append, ← List.append_assoc]
    congr 2
    split <;> simp

/-- No heading is void. -/
theorem heading_not_void (level : Nat) : (Element.h level).name ∉ TagMark.voidNames := by
  have hvoid : ∀ name ∈ TagMark.voidNames, name.toList.head? = some 'h' →
      name.toList.tail.all Char.isDigit = false := by decide
  have hname : (Element.h level).name.toList = 'h' :: Nat.toDigits 10 level := by
    simp [Element.name]
  have hdigits : (Nat.toDigits 10 level).all Char.isDigit := by
    rw [List.all_eq_true]
    exact fun c hc => Nat.isDigit_of_mem_toDigits (by decide) (by decide) hc
  intro hmem
  have hfalse := hvoid _ hmem (by rw [hname]; rfl)
  rw [hname, List.tail_cons, hdigits] at hfalse
  cases hfalse

/-- No list is void. -/
theorem listElement_not_void (kind : ListKind) :
    (listElement kind).name ∉ TagMark.voidNames := by
  cases kind <;> decide

mutual

/-- The tags of a node are nested well by themselves. -/
theorem settles_pieces (tight : Bool) : ∀ o : Outline, Settles (marks (pieces tight o))
  | .node kind children => by
    have hall := fun tight => settles_piecesAll tight children
    cases kind with
    | document | unsupported => exact hall tight
    | blockQuote => simpa [pieces] using (hall false).wrap (by decide)
    | paragraph =>
      cases tight with
      | false => simpa [pieces] using (hall false).wrap (by decide)
      | true => exact hall false
    | heading level => simpa [pieces] using (hall false).wrap (heading_not_void level)
    | codeBlock info literal =>
      have hcode := settles_nil.wrap (show Element.code.name ∉ TagMark.voidNames by decide)
      simpa [pieces] using hcode.wrap (show Element.pre.name ∉ TagMark.voidNames by decide)
    | list kind start tight => simpa [pieces] using (hall tight).wrap (listElement_not_void kind)
    | item => simpa [pieces, marks_piecesItem] using (hall tight).wrap (by decide)
    | code literal => simpa [pieces] using settles_nil.wrap (by decide)
    | emphasis => simpa [pieces] using (hall false).wrap (by decide)
    | strong => simpa [pieces] using (hall false).wrap (by decide)
    | link destination title => simpa [pieces] using (hall false).wrap (by decide)
    | thematicBreak | image | hardBreak => exact settles_void (by decide)
    | text | softBreak | htmlBlock | inlineHtml => exact settles_nil

/-- All tags of siblings are closed. -/
theorem settles_piecesAll (tight : Bool) : ∀ os : List Outline,
    Settles (marks (piecesAll tight os))
  | [] => settles_nil
  | o :: rest => by
    rw [piecesAll, marks_append]
    exact (settles_pieces tight o).append (settles_piecesAll tight rest)

end

/-! ## Shapes -/

mutual

/-- An outline without its strings, and without the numbers of lists. -/
def shape : Outline → Outline
  | node kind children => node kind.shape (shapeAll children)

def shapeAll : List Outline → List Outline
  | [] => []
  | o :: rest => shape o :: shapeAll rest

end

mutual

/-- The tags of a node do not depend on its strings. -/
theorem marks_pieces_shape (tight : Bool) : ∀ o : Outline,
    marks (pieces tight o.shape) = marks (pieces tight o)
  | .node kind children => by
    have hall := fun tight => marks_piecesAll_shape tight children
    cases kind with
    | paragraph => cases tight <;> simp [shape, Kind.shape, pieces, hall]
    | _ => simp [shape, Kind.shape, pieces, hall, marks_piecesItem, Markup.mark]

/-- The tags of siblings depend on their shape only. -/
theorem marks_piecesAll_shape (tight : Bool) : ∀ os : List Outline,
    marks (piecesAll tight (shapeAll os)) = marks (piecesAll tight os)
  | [] => rfl
  | o :: rest => by
    rw [shapeAll, piecesAll, piecesAll, marks_append, marks_append, marks_pieces_shape tight o,
      marks_piecesAll_shape tight rest]

end

mutual

theorem kinds_shape : ∀ o : Outline, o.shape.kinds = o.kinds.map Kind.shape
  | .node kind children => by rw [shape, kinds, kinds, kindsAll_shape children, List.map_cons]

theorem kindsAll_shape : ∀ os : List Outline,
    kindsAll (shapeAll os) = (kindsAll os).map Kind.shape
  | [] => rfl
  | o :: rest => by
    rw [shapeAll, kindsAll, kindsAll, kinds_shape o, kindsAll_shape rest, List.map_append]

end

/-- A shape tells raw markup from the rest. -/
theorem holdsRaw_shape (o : Outline) : HoldsRaw o.shape.kinds ↔ HoldsRaw o.kinds := by
  have hraw : ∀ kind : Kind, (∃ s, kind.shape = .htmlBlock s ∨ kind.shape = .inlineHtml s) ↔
      ∃ s, kind = .htmlBlock s ∨ kind = .inlineHtml s := by
    intro kind
    cases kind <;> simp [Kind.shape]
  have hmem : ∀ kinds : List Kind, HoldsRaw kinds ↔
      ∃ kind ∈ kinds, ∃ s, kind = .htmlBlock s ∨ kind = .inlineHtml s := by
    intro kinds
    simp only [HoldsRaw]
    grind
  rw [kinds_shape, hmem, hmem]
  constructor
  · rintro ⟨kind, hkind, hshape⟩
    obtain ⟨shaped, hmem, rfl⟩ := List.mem_map.1 hkind
    exact ⟨shaped, hmem, (hraw shaped).1 hshape⟩
  · rintro ⟨kind, hkind, hshape⟩
    exact ⟨kind.shape, List.mem_map_of_mem hkind, (hraw kind).2 hshape⟩

/-- Of an outline without raw markup, no piece is copied. -/
theorem raw_not_mem_pieces {o : Outline} (h : ¬ HoldsRaw o.kinds) (tight : Bool) :
    ∀ s, .raw s ∉ o.pieces tight := fun s hs => h (holdsRaw_of_mem_pieces tight s o hs)

end Outline

namespace Tree

/-- The HTML of a node, cut into these tags and characters. -/
structure WritesTags (t : Tree) (id : NodeId) (ts : List Token) : Prop where
  cut_eq : cut (t.outline id).toHtml.toList = some ts
  wellNested : WellNested (tagMarks ts)
  /-- Every node that differs in its strings only has the same tags. -/
  same_tags : ∀ (u : Tree) (n : NodeId), (u.outline n).shape = (t.outline id).shape →
    ∃ us, cut (u.outline n).toHtml.toList = some us ∧ tagMarks us = tagMarks ts
  /-- No text between tags has a character of markup in it. -/
  plain : ∀ part ∈ between ts, ∀ c ∈ part, c ≠ '<' ∧ c ≠ '>' ∧ c ≠ '"'
  /-- Unescaped, the texts are the literals, with ends of lines. -/
  lined : Lined (t.outline id).literals ((between ts).flatMap decode)
  /-- They can be unescaped one by one or all at once. -/
  decode_eq : decode (between ts).flatten = (between ts).flatMap decode

/-- No string of a subtree without raw markup is taken for markup. -/
theorem toHtml_writes_tags (t : Tree) (id : NodeId)
    (h : ∀ s, .htmlBlock s ∉ (t.outline id).kinds ∧ .inlineHtml s ∉ (t.outline id).kinds) :
    ∃ ts, t.WritesTags id ts := by
  have hraw : ¬ Outline.HoldsRaw (t.outline id).kinds := by
    rintro ⟨s, hs | hs⟩
    · exact (h s).1 hs
    · exact (h s).2 hs
  have hcut : ∀ o : Outline, ¬ Outline.HoldsRaw o.kinds →
      cut o.toHtml.toList = some ((o.pieces false).flatMap Piece.tokens) := by
    intro o ho
    rw [Outline.toHtml_eq, cut_printAll (Outline.raw_not_mem_pieces ho false)]
  have hbetween := between_tokens ((t.outline id).pieces false)
  have hdecoded : (between (((t.outline id).pieces false).flatMap Piece.tokens)).flatMap decode =
      (shown ((t.outline id).pieces false)).flatten := by
    rw [hbetween, List.flatMap_map]
    simp [decode_escapeChars, List.flatMap_id']
  refine ⟨_, hcut _ hraw, ?_, ?_, ?_, ?_, ?_⟩
  · rw [tagMarks_tokens]
    exact (Outline.settles_pieces false _).wellNested
  · intro u n hshape
    have hu : ¬ Outline.HoldsRaw (u.outline n).kinds := by
      rwa [← Outline.holdsRaw_shape, hshape, Outline.holdsRaw_shape]
    refine ⟨_, hcut _ hu, ?_⟩
    rw [tagMarks_tokens, tagMarks_tokens, ← Outline.marks_pieces_shape, hshape,
      Outline.marks_pieces_shape]
  · intro part hpart c hc
    rw [hbetween] at hpart
    obtain ⟨cs, -, rfl⟩ := List.mem_map.1 hpart
    refine ⟨?_, ?_, ?_⟩ <;> rintro rfl
    · exact not_mem_escapeChars (.inl rfl) cs hc
    · exact not_mem_escapeChars (.inr (.inl rfl)) cs hc
    · exact not_mem_escapeChars (.inr (.inr rfl)) cs hc
  · rw [hdecoded, ← Outline.texts_pieces false]
    exact lined_shown _
  · rw [hdecoded, hbetween]
    exact (congrArg decode (flatten_map_escapeChars _)).trans (decode_escapeChars _)

/-- A tight list that starts at seven, with strings that look like tags, and a rule. -/
def tally : Tree :=
  ((((((ofRoot .document).push 0 (.list .ordered 7 true)).push 1 .item).push 2 .paragraph).push 3
    (.text "</li> & <br>")).push 3 (.image "\">" "" "<p>")).push 0 .thematicBreak

/-- The tally writes these tags, and escaped text between them. -/
theorem tally_writes_tags :
    (∀ s, .htmlBlock s ∉ (tally.outline 0).kinds ∧ .inlineHtml s ∉ (tally.outline 0).kinds) ∧
    ∃ ts, tally.WritesTags 0 ts ∧
      tagMarks ts = [.opening "ol", .opening "li", .opening "img", .closing "li", .closing "ol",
        .opening "hr"] ∧
      between ts = ["", "\n", "&lt;/li&gt; &amp; &lt;br&gt;", "", "\n", "\n", "\n"].map
        String.toList := by
  have hkinds : (tally.outline 0).kinds = [.document, .list .ordered 7 true, .item, .paragraph,
      .text "</li> & <br>", .image "\">" "" "<p>", .thematicBreak] := by
    decide
  have hraw : ∀ s, .htmlBlock s ∉ (tally.outline 0).kinds ∧
      .inlineHtml s ∉ (tally.outline 0).kinds := by
    simp [hkinds]
  have hmarks : (cut (tally.outline 0).toHtml.toList).map tagMarks = some [.opening "ol",
      .opening "li", .opening "img", .closing "li", .closing "ol", .opening "hr"] := by
    decide
  have htexts : (cut (tally.outline 0).toHtml.toList).map between =
      some (["", "\n", "&lt;/li&gt; &amp; &lt;br&gt;", "", "\n", "\n", "\n"].map
        String.toList) := by
    decide
  obtain ⟨ts, hts⟩ := toHtml_writes_tags tally 0 hraw
  rw [hts.cut_eq, Option.map_some, Option.some.injEq] at hmarks htexts
  exact ⟨hraw, ts, hts, hmarks, htexts⟩

/-- An image with a text below it. -/
def captioned : Tree := ((ofRoot .document).push 0 (.image "" "" "")).push 1 (.text "x")

/-- Not every literal stands between the tags: what is below an image is not written. -/
theorem captioned_hides_text :
    (∀ s, .htmlBlock s ∉ (captioned.outline 0).kinds ∧
      .inlineHtml s ∉ (captioned.outline 0).kinds) ∧
    ∃ ts, cut (captioned.outline 0).toHtml.toList = some ts ∧
      ¬ Lined ((captioned.outline 0).kinds.filterMap Kind.literal?)
        ((between ts).flatMap decode) := by
  have hkinds : (captioned.outline 0).kinds = [.document, .image "" "" "", .text "x"] := by decide
  refine ⟨by simp [hkinds], [.tag "img src=\"\" alt=\"\" /".toList], by decide, ?_⟩
  intro hlined
  rw [hkinds] at hlined
  cases hlined

end Tree

end StyledText.Markdown
