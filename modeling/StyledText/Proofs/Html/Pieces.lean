import StyledText.Markdown.Html.Writer
import StyledText.Proofs.Html.Entities

/-!
# The pieces of written HTML

What `Outline.write` adds is put together from *pieces*: tags, escaped texts, ends of lines and
copied markup. `Outline.pieces` gives them in order, and `write_eq` says that they are all that is
written, whatever stands before.
-/

namespace StyledText.Markdown

namespace Html

inductive Element where
  | blockquote
  | p
  | h (level : Nat)
  | pre
  | code
  | ul
  | ol
  | li
  | em
  | strong
  | a
  | hr
  | img
  | br
deriving DecidableEq, Repr

/-- The name of an element, as it stands in a tag. -/
def Element.name : Element → String
  | blockquote => "blockquote"
  | p => "p"
  | h level => "h" ++ toString level
  | pre => "pre"
  | code => "code"
  | ul => "ul"
  | ol => "ol"
  | li => "li"
  | em => "em"
  | strong => "strong"
  | a => "a"
  | hr => "hr"
  | img => "img"
  | br => "br"

/-- What can be said about an element in its tag. -/
inductive Property where
  | language (name : String)
  | start (number : Nat)
  | href (destination : String)
  | title (title : String)
  | src (destination : String)
  | alt (text : String)
deriving DecidableEq, Repr

namespace Property

def key : Property → String
  | language _ => "class"
  | start _ => "start"
  | href _ => "href"
  | title _ => "title"
  | src _ => "src"
  | alt _ => "alt"

/-- The value of a property, before it is escaped. -/
def value : Property → String
  | language name => "language-" ++ name
  | start number => toString number
  | href s | title s | src s | alt s => s

/-- A property as it is written. -/
def print (p : Property) : String := " " ++ p.key ++ "=\"" ++ escape p.value ++ "\""

end Property

def printProperties (ps : List Property) : String := .join (ps.map Property.print)

@[simp] theorem printProperties_nil : printProperties [] = "" := rfl

@[simp] theorem printProperties_cons (p : Property) (ps : List Property) :
    printProperties (p :: ps) = p.print ++ printProperties ps := String.join_cons

/-- A tag. A void element has only one. -/
inductive Markup where
  | opening (e : Element) (properties : List Property)
  | closing (e : Element)
  | void (e : Element) (properties : List Property)
deriving DecidableEq, Repr

/-- What stands between the brackets of a tag. -/
def Markup.body : Markup → String
  | opening e properties => e.name ++ printProperties properties
  | closing e => "/" ++ e.name
  | void e properties => e.name ++ printProperties properties ++ " /"

inductive Piece where
  | tag (m : Markup)
  | text (s : String)
  | newline
  | raw (s : String)
deriving DecidableEq, Repr

namespace Piece

/-- A piece as it is written. Only texts are escaped. -/
def print : Piece → String
  | tag m => "<" ++ m.body ++ ">"
  | text s => escape s
  | newline => "\n"
  | raw s => s

def text? : Piece → Option String
  | text s => some s
  | _ => none

end Piece

def printAll (ps : List Piece) : String := .join (ps.map Piece.print)

@[simp] theorem printAll_nil : printAll [] = "" := rfl

@[simp] theorem printAll_cons (p : Piece) (ps : List Piece) :
    printAll (p :: ps) = p.print ++ printAll ps := String.join_cons

@[simp] theorem printAll_append (ps qs : List Piece) :
    printAll (ps ++ qs) = printAll ps ++ printAll qs := by
  rw [printAll, List.map_append, String.join_append, printAll, printAll]

def texts (ps : List Piece) : List String := ps.filterMap Piece.text?

@[simp] theorem texts_nil : texts [] = [] := rfl

@[simp] theorem texts_tag (m : Markup) (ps : List Piece) : texts (.tag m :: ps) = texts ps := rfl

@[simp] theorem texts_text (s : String) (ps : List Piece) :
    texts (.text s :: ps) = s :: texts ps := rfl

@[simp] theorem texts_newline (ps : List Piece) : texts (.newline :: ps) = texts ps := rfl

@[simp] theorem texts_raw (s : String) (ps : List Piece) : texts (.raw s :: ps) = texts ps := rfl

@[simp] theorem texts_append (ps qs : List Piece) : texts (ps ++ qs) = texts ps ++ texts qs :=
  List.filterMap_append

/-- An element around what stands inside. -/
def Element.wrap (e : Element) (properties : List Property) (inside : List Piece) : List Piece :=
  .tag (.opening e properties) :: (inside ++ [.tag (.closing e)])

/-- An element has the texts that are inside. -/
@[simp] theorem texts_wrap (e : Element) (properties : List Property) (inside : List Piece) :
    texts (e.wrap properties inside) = texts inside := by
  simp [Element.wrap]

/-- An element has the raw markup that is inside. -/
@[simp] theorem raw_mem_wrap {e : Element} {properties : List Property} {inside : List Piece}
    {s : String} : .raw s ∈ e.wrap properties inside ↔ .raw s ∈ inside := by
  simp [Element.wrap]

end Html

namespace Outline

open Html

def titleProperty (title : String) : List Property := if title = "" then [] else [.title title]

def listElement : ListKind → Element
  | .bullet => .ul
  | .ordered => .ol

/-- The start of a list, if it is shown. -/
def startProperty : ListKind → Nat → List Property
  | .bullet, _ | .ordered, 1 => []
  | .ordered, start => [.start start]

/-- The language of a code block, if its info names one. -/
def languageProperty (info : String) : List Property :=
  match Chars.words info.toList with
  | language :: _ => [.language (.ofList language)]
  | [] => []

mutual

def pieces (tight : Bool) : Outline → List Piece
  | node kind children =>
    match kind with
    | .document | .unsupported _ => piecesAll tight children
    | .blockQuote =>
      Element.blockquote.wrap [] (.newline :: piecesAll false children) ++ [.newline]
    | .paragraph =>
      if tight then piecesAll false children
      else Element.p.wrap [] (piecesAll false children) ++ [.newline]
    | .heading level => (Element.h level).wrap [] (piecesAll false children) ++ [.newline]
    | .codeBlock info literal =>
      Element.pre.wrap [] (Element.code.wrap (languageProperty info) [.text literal]) ++ [.newline]
    | .htmlBlock literal => [.raw literal]
    | .list kind start tight =>
      (listElement kind).wrap (startProperty kind start) (.newline :: piecesAll tight children) ++
        [.newline]
    | .item => Element.li.wrap [] (piecesItem tight true children []) ++ [.newline]
    | .thematicBreak => [.tag (.void .hr []), .newline]
    | .text literal => [.text literal]
    | .code literal => Element.code.wrap [] [.text literal]
    | .inlineHtml literal => [.raw literal]
    | .emphasis => Element.em.wrap [] (piecesAll false children)
    | .strong => Element.strong.wrap [] (piecesAll false children)
    | .link destination title =>
      Element.a.wrap (.href destination :: titleProperty title) (piecesAll false children)
    | .image destination title alt =>
      [.tag (.void .img (.src destination :: .alt alt :: titleProperty title))]
    | .softBreak => [.newline]
    | .hardBreak => [.tag (.void .br []), .newline]

def piecesAll (tight : Bool) : List Outline → List Piece
  | [] => []
  | o :: rest => pieces tight o ++ piecesAll tight rest

/-- The pieces inside an item, after those `before`. -/
def piecesItem (tight first : Bool) : List Outline → List Piece → List Piece
  | [], before => before
  | o :: rest, before =>
    let joins := first && tight && o.kind = .paragraph
    let before :=
      if joins || endsLine (printAll before) then before else before ++ [.newline]
    piecesItem tight false rest (before ++ pieces tight o)

end

/-! ## What is written is what the pieces print -/

/-- A title is printed as its property. -/
theorem titleAttribute_eq (title : String) :
    titleAttribute title = printProperties (titleProperty title) := by
  unfold titleAttribute titleProperty
  split
  · rfl
  · simp [Property.print, Property.key, Property.value]

/-- The tags of code are printed with the language as a property. -/
theorem codeTag_eq (info : String) :
    codeTag info = "<pre><code" ++ printProperties (languageProperty info) ++ ">" := by
  have hlanguage : escape "language-" = "language-" := by decide
  unfold codeTag languageProperty
  cases Chars.words info.toList with
  | nil => rfl
  | cons language rest =>
    apply String.toList_inj.mp
    simp [Property.print, Property.key, Property.value, escape_append, hlanguage]

/-- The tag of a list is printed with its start as a property. -/
theorem listTag_eq (kind : ListKind) (start : Nat) :
    listTag kind start =
      "<" ++ (listElement kind).name ++ printProperties (startProperty kind start) ++ ">\n" := by
  unfold listTag startProperty
  split
  · rfl
  · rfl
  · apply String.toList_inj.mp
    simp [Property.print, Property.key, Property.value, listElement, Element.name, escape_digits]

/-- The closing tag of a list is that of its element. -/
theorem listEndTag_eq (kind : ListKind) :
    listEndTag kind = "</" ++ (listElement kind).name ++ ">\n" := by
  cases kind <;> rfl

/-- Whether a line ends behind what was written after a tag does not depend on what was before. -/
theorem endsLine_append {opened : String} (h : opened.toList.getLast? = some '>')
    (added : String) : endsLine (opened ++ added) = endsLine added := by
  unfold endsLine
  rw [String.toList_append, List.getLast?_append, h]
  cases hlast : added.toList.getLast? with
  | none => rfl
  | some c => rfl

mutual

/-- Writing adds what the pieces of the node print. -/
theorem write_eq (tight : Bool) : ∀ (o : Outline) (out : String),
    write tight o out = out ++ printAll (pieces tight o)
  | .node kind children, out => by
    have hall := fun tight => writeAll_eq tight children
    cases kind with
    | item =>
      -- What is written since the tag decides on the ends of lines, so `<li>` starts anew.
      have hitem := writeItem_eq tight children true (out ++ "<li>") [] (by simp)
      rw [printAll_nil, String.append_empty] at hitem
      apply String.toList_inj.mp
      simp [write, pieces, Element.wrap, Piece.print, Markup.body, Element.name, hitem]
    | paragraph =>
      apply String.toList_inj.mp
      cases tight <;>
        simp [write, pieces, Element.wrap, Piece.print, Markup.body, Element.name, hall]
    | _ =>
      apply String.toList_inj.mp
      simp [write, pieces, Element.wrap, Piece.print, Markup.body, Element.name, Property.print,
        Property.key, Property.value, hall, titleAttribute_eq, codeTag_eq, listTag_eq,
        listEndTag_eq]

/-- What siblings write are their pieces in print. -/
theorem writeAll_eq (tight : Bool) : ∀ (os : List Outline) (out : String),
    writeAll tight os out = out ++ printAll (piecesAll tight os)
  | [], out => by simp [writeAll, piecesAll]
  | o :: rest, out => by
    rw [writeAll, writeAll_eq tight rest, write_eq tight o, piecesAll, printAll_append,
      String.append_assoc]

/-- Inside an item, what is written since its tag was opened decides on the ends of lines. -/
theorem writeItem_eq (tight : Bool) : ∀ (os : List Outline) (first : Bool) (opened : String)
    (before : List Piece), opened.toList.getLast? = some '>' →
    writeItem tight first os (opened ++ printAll before) =
      opened ++ printAll (piecesItem tight first os before)
  | [], first, opened, before, _ => by rw [writeItem, piecesItem]
  | o :: rest, first, opened, before, h => by
    -- The piece between two children is the same on both sides: an end of line or nothing.
    rw [writeItem, piecesItem, endsLine_append h, ← writeItem_eq tight rest false opened _ h,
      write_eq tight o, printAll_append, ← String.append_assoc]
    congr 2
    split
    · rfl
    · rw [printAll_append, ← String.append_assoc]
      rfl

end

/-- What a tree writes are its pieces in print. -/
theorem toHtml_eq (o : Outline) : o.toHtml = printAll (o.pieces false) := by
  rw [toHtml, write_eq, String.empty_append]

/-! ## What the pieces hold -/

mutual

/-- The kinds of a node and of all below it, in document order. -/
def kinds : Outline → List Kind
  | node kind children => kind :: kindsAll children

def kindsAll : List Outline → List Kind
  | [] => []
  | o :: rest => kinds o ++ kindsAll rest

end

mutual

/-- The texts and pieces of code that are shown of a node, in document order. An image, a break and
raw markup show none, and hide what is below them. -/
def literals : Outline → List String
  | node kind children =>
    match kind with
    | .text literal | .code literal | .codeBlock _ literal => [literal]
    | .image .. | .thematicBreak | .softBreak | .hardBreak | .htmlBlock _ | .inlineHtml _ => []
    | _ => literalsAll children

def literalsAll : List Outline → List String
  | [] => []
  | o :: rest => literals o ++ literalsAll rest

end

mutual

/-- The texts among the pieces are the literals. -/
theorem texts_pieces (tight : Bool) : ∀ o : Outline, texts (pieces tight o) = o.literals
  | .node kind children => by
    have hall := fun tight => texts_piecesAll tight children
    cases kind with
    | item =>
      have hitem := texts_piecesItem tight children true []
      simpa [pieces, literals] using hitem
    | paragraph => cases tight <;> simp [pieces, literals, hall]
    | _ => simp [pieces, literals, hall]

/-- The texts of siblings are their literals. -/
theorem texts_piecesAll (tight : Bool) : ∀ os : List Outline,
    texts (piecesAll tight os) = literalsAll os
  | [] => rfl
  | o :: rest => by
    rw [piecesAll, texts_append, texts_pieces tight o, texts_piecesAll tight rest, literalsAll]

/-- The texts of an item are the literals of its children. -/
theorem texts_piecesItem (tight : Bool) : ∀ (os : List Outline) (first : Bool)
    (before : List Piece),
    texts (piecesItem tight first os before) = texts before ++ literalsAll os
  | [], first, before => by rw [piecesItem, literalsAll, List.append_nil]
  | o :: rest, first, before => by
    rw [piecesItem, texts_piecesItem tight rest, texts_append, texts_pieces tight o, literalsAll,
      ← List.append_assoc]
    congr 2
    split
    · rfl
    · rw [texts_append, texts_newline, texts_nil, List.append_nil]

end

/-- Whether one of these kinds is raw markup. -/
def HoldsRaw (kinds : List Kind) : Prop := ∃ s, .htmlBlock s ∈ kinds ∨ .inlineHtml s ∈ kinds

/-- Raw markup is in one part or the other. -/
theorem holdsRaw_append {kinds more : List Kind} :
    HoldsRaw (kinds ++ more) ↔ HoldsRaw kinds ∨ HoldsRaw more := by
  simp only [HoldsRaw, List.mem_append]
  grind

theorem HoldsRaw.cons {kinds : List Kind} (h : HoldsRaw kinds) (kind : Kind) :
    HoldsRaw (kind :: kinds) := by
  rcases h with ⟨s, hs | hs⟩
  · exact ⟨s, .inl (List.mem_cons_of_mem kind hs)⟩
  · exact ⟨s, .inr (List.mem_cons_of_mem kind hs)⟩

mutual

/-- Only raw markup is copied. -/
theorem holdsRaw_of_mem_pieces (tight : Bool) (s : String) : ∀ o : Outline,
    .raw s ∈ pieces tight o → HoldsRaw o.kinds
  | .node kind children, h => by
    have hall : ∀ tight, .raw s ∈ piecesAll tight children → HoldsRaw (kind :: kindsAll children) :=
      fun tight h => (holdsRaw_of_mem_piecesAll tight s children h).cons kind
    rw [kinds]
    cases kind with
    | htmlBlock literal => exact ⟨literal, .inl List.mem_cons_self⟩
    | inlineHtml literal => exact ⟨literal, .inr List.mem_cons_self⟩
    | item =>
      have hinside : .raw s ∈ piecesItem tight true children [] := by simpa [pieces] using h
      rcases holdsRaw_of_mem_piecesItem tight s children true [] hinside with hnone | hraw
      · simp at hnone
      · exact hraw.cons _
    | paragraph =>
      apply hall false
      cases tight <;> simpa [pieces] using h
    | document | blockQuote | heading | list | emphasis | strong | link | unsupported =>
      exact hall _ (by simpa [pieces] using h)
    | codeBlock | thematicBreak | text | code | image | softBreak | hardBreak =>
      simp [pieces] at h

/-- A raw piece of siblings comes from raw markup among them. -/
theorem holdsRaw_of_mem_piecesAll (tight : Bool) (s : String) : ∀ os : List Outline,
    .raw s ∈ piecesAll tight os → HoldsRaw (kindsAll os)
  | [], h => by simp [piecesAll] at h
  | o :: rest, h => by
    rw [piecesAll, List.mem_append] at h
    rw [kindsAll, holdsRaw_append]
    exact h.imp (holdsRaw_of_mem_pieces tight s o) (holdsRaw_of_mem_piecesAll tight s rest)

/-- A raw piece of an item was there before or comes from raw markup in it. -/
theorem holdsRaw_of_mem_piecesItem (tight : Bool) (s : String) : ∀ (os : List Outline)
    (first : Bool) (before : List Piece), .raw s ∈ piecesItem tight first os before →
      .raw s ∈ before ∨ HoldsRaw (kindsAll os)
  | [], first, before, h => by
    rw [piecesItem] at h
    exact .inl h
  | o :: rest, first, before, h => by
    rw [piecesItem] at h
    rw [kindsAll, holdsRaw_append]
    rcases holdsRaw_of_mem_piecesItem tight s rest false _ h with h | h
    · rw [List.mem_append] at h
      rcases h with h | h
      · left
        split at h
        · exact h
        · simpa using h
      · exact .inr (.inl (holdsRaw_of_mem_pieces tight s o h))
    · exact .inr (.inr h)

end

end Outline

end StyledText.Markdown
