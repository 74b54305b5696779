import StyledText.Command.Answer
import StyledText.Proofs.Attribute.RawMarkup
import StyledText.Proofs.Conversion.Breaks
import StyledText.Proofs.Conversion.Kept
import StyledText.Proofs.Text.Locate
import StyledText.Proofs.Tree.Arena

/-!
# Listings of runs

A listing of runs is a table: a line for each run, with tabs between its three fields. Texts are
quoted in it, but the names of keys are written as they are, and those of custom keys come from raw
markup. They are words, so no tab or newline is in them, and the table can be read back.

* `Chars.isField_quoted`: quoted texts have no tabs and newlines.
* `Inheritance.isListable_resolve`: nor have the names of keys that a kind sets, and
  `Tree.isListable_toText` for all runs of a conversion.
* `Text.tiles_ranges`: the ranges of runs follow one another, from the start of the text to its end.
* `Text.isRecord_runLine`: what the line of a run is.
* `Command.answer_lists_runs` puts these together.
-/

namespace StyledText

/-! ## Fields -/

namespace Chars

/-- Whether a text can be one of the fields of a line, which stand between tabs. -/
def IsField (cs : List Char) : Prop := ∀ c ∈ cs, c ≠ '\n' ∧ c ≠ '\t'

instance (cs : List Char) : Decidable (IsField cs) := List.decidableBAll _ cs

variable {cs : List Char}

theorem isField_append_iff {ds : List Char} : IsField (cs ++ ds) ↔ IsField cs ∧ IsField ds :=
  List.forall_mem_append

theorem isField_of_isAlphanum (h : ∀ c ∈ cs, c.isAlphanum) : IsField cs := by
  intro c hc
  constructor <;>
    · rintro rfl
      exact absurd (h _ hc) (by decide)

theorem IsWord.isField (h : IsWord cs) : IsField cs := by
  intro c hc
  constructor <;>
    · rintro rfl
      exact h.inked _ hc (by decide)

theorem isField_toString (n : Nat) : IsField (toString n).toList :=
  isField_of_isAlphanum fun _ hc => Markdown.isAlphanum_of_mem_toString hc

/-- Digits to base sixteen are letters and digits, which can stand in a field. -/
theorem isAlphanum_of_mem_hexadecimal {n : Nat} {c : Char} (h : c ∈ hexadecimal n) :
    c.isAlphanum := by
  have hdigit : ∀ d < 16, (Nat.digitChar d).isAlphanum := by decide
  unfold hexadecimal at h
  -- strong induction, as a step takes the last digit off
  induction n using Nat.strongRecOn with
  | ind n ih =>
    rw [Nat.toDigits_eq_if (by decide)] at h
    split at h
    · next hlt =>
      rw [List.mem_singleton.1 h]
      exact hdigit n hlt
    · next hge =>
      rcases List.mem_append.1 h with hinit | hlast
      · exact ih (n / 16) (by omega) hinit
      · rw [List.mem_singleton.1 hlast]
        exact hdigit _ (Nat.mod_lt n (by decide))

variable (shows : Char → Bool)

/-- Tabs and newlines have escapes of their own, and what is written as a number has digits only. -/
theorem isField_quotedChar (c : Char) : IsField (quotedChar shows c) := by
  unfold quotedChar
  split
  -- whether it is shown or not matters only for what has no escape of its own
  case h_7 _ _ htab hnewline _ _ =>
    split
    · intro d hd
      rw [List.mem_singleton.1 hd]
      exact ⟨hnewline, htab⟩
    · have hdigits : IsField (hexadecimal c.toNat) :=
        isField_of_isAlphanum fun _ hc => isAlphanum_of_mem_hexadecimal hc
      rw [isField_append_iff, isField_append_iff]
      exact ⟨⟨by decide, hdigits⟩, by decide⟩
  all_goals decide

/-- A quoted text has no raw tab and no raw newline, whatever characters can be seen. -/
theorem isField_quoted (s : String) : IsField (quoted shows s).toList := by
  unfold quoted
  rw [String.toList_ofList, List.cons_append, ← List.singleton_append, isField_append_iff,
    isField_append_iff]
  refine ⟨by decide, ?_, by decide⟩
  intro d hd
  obtain ⟨c, -, hd⟩ := List.mem_flatMap.1 hd
  exact isField_quotedChar shows c d hd

/-- What all parts and the separator have in common is said of the whole. -/
theorem forall_mem_intercalate {P : Char → Prop} {separator : List Char} {parts : List (List Char)}
    (hseparator : ∀ c ∈ separator, P c) (h : ∀ part ∈ parts, ∀ c ∈ part, P c) :
    ∀ c ∈ separator.intercalate parts, P c := by
  induction parts with
  | nil => exact fun c hc => absurd hc List.not_mem_nil
  | cons part rest ih =>
    rw [List.forall_mem_cons] at h
    cases rest with
    | nil => rw [List.intercalate_singleton]; exact h.1
    | cons next rest =>
      rw [List.intercalate_cons_cons, List.forall_mem_append, List.forall_mem_append]
      exact ⟨⟨h.1, hseparator⟩, ih h.2⟩

theorem isField_intercalate {separator : List Char} {parts : List (List Char)}
    (hseparator : IsField separator) (h : ∀ part ∈ parts, IsField part) :
    IsField (separator.intercalate parts) :=
  forall_mem_intercalate hseparator h

end Chars

open Chars

/-! ## Names of keys -/

/-- Whether the names of all keys can stand in a field. -/
def Attributes.IsListable (a : Attributes) : Prop := ∀ key ∈ a.keys, IsField key.name.toList

theorem Attributes.isListable_empty : IsListable {} := fun _ hkey => absurd hkey List.not_mem_nil

/-- A key that can be listed may be added. -/
theorem Attributes.IsListable.insert {a : Attributes} (h : a.IsListable) {key : Attribute.Key}
    (hkey : IsField key.name.toList) (value : Attribute.Value) :
    IsListable (a.insert key value) := by
  intro k hk
  obtain ⟨entry, hentry, rfl⟩ := List.mem_map.1 hk
  rcases OrderedMap.mem_insertEntry hentry with rfl | hmem
  · exact hkey
  · exact h _ (List.mem_map_of_mem hmem)

namespace Markdown

/-- What raw markup can set has a word for its name. -/
theorem RawMarkup.Names.isField {name : String} {key : Attribute.Key} (h : Names name key) :
    IsField key.name.toList := by
  cases h with
  | variableName | variableValue => decide
  | custom hname _ _ => exact hname.word.isField

/-- Each kind sets keys that can be listed. -/
theorem Inheritance.isListable_resolve (h : Inheritance) (kind : Kind) {a : Attributes}
    (ha : a.IsListable) : (h.resolve kind a).IsListable := by
  -- the keys of all kinds are fixed, besides the one that raw markup names
  cases kind with
  | blockQuote | emphasis | strong | heading | codeBlock | code => exact ha.insert (by decide) _
  | link destination title =>
    simp only [resolve]
    cases h.urls.target? h.base destination with
    | none =>
      split
      · exact ha
      · exact ha.insert (by decide) _
    | some target =>
      have hlinked : Attributes.IsListable (a.insert .link (.link target)) :=
        ha.insert (by decide) _
      split
      · exact hlinked
      · exact hlinked.insert (by decide) _
  | inlineHtml literal =>
    simp only [resolve]
    split
    · next key value hset =>
      obtain ⟨name, -, hnames⟩ := RawMarkup.assignment?_eq_some_iff.1 hset
      exact ha.insert hnames.isField _
    · exact ha
  | _ => exact ha

/-- The kinds on the way add keys that can be listed, whatever they are. -/
theorem Visit.isListable_attributes (v : Visit) (h : Inheritance) {inherited : Attributes}
    (hinherited : inherited.IsListable) : (v.attributes h inherited).IsListable := by
  unfold attributes
  induction v.path generalizing inherited with
  | nil => exact hinherited
  | cons kind rest ih => exact ih (h.isListable_resolve kind hinherited)

/-- So do all runs of a stop have, if the renderer is one of the two that are given. -/
theorem Conversion.isListable_runsAt {c : Conversion} {t : Tree} {inherited : Attributes} {s : Stop}
    (hhtml : c.options.html = .literal ∨ c.options.html = .plainText)
    (hinherited : inherited.IsListable) {row : List Run}
    (hrow : c.runsAt t inherited s = .ok row) : ∀ r ∈ row, r.attributes.IsListable := by
  have hvisit := s.visit.isListable_attributes c.inheritance hinherited
  obtain ⟨r, rfl, hstyled⟩ := styled_runsAt (fun _ => hhtml) hrow
  rw [List.forall_mem_singleton]
  obtain ⟨v, part⟩ := s
  cases part with
  | separator | blank => exact hstyled.1 ▸ Attributes.isListable_empty
  | lead | leaf | html =>
    have hattributes : r.attributes = v.attributes c.inheritance inherited := hstyled
    exact hattributes ▸ hvisit
  | image =>
    obtain ⟨attachment, rfl⟩ := hstyled
    exact hvisit.insert (by decide) _

theorem Tree.isListable_toText {t : Tree} (h : t.Linked) {id : NodeId} {inherited : Attributes}
    {attachments : Attachments} {options : ConversionOptions}
    (hhtml : options.html = .literal ∨ options.html = .plainText)
    (hinherited : inherited.IsListable) {text : Text}
    (htext : t.toText id inherited attachments options = .ok text) :
    ∀ r ∈ text.runs, r.attributes.IsListable := by
  intro r hr
  obtain ⟨s, -, row, hrow, hmem⟩ :=
    Conversion.exists_stop_of_mem_gather ((toText_eq_ok_iff h).1 htext) hr
  exact Conversion.isListable_runsAt hhtml hinherited hrow r hmem

end Markdown

/-! ## Ranges -/

/-- Ranges that follow one another without a gap, from one position to another. -/
inductive ByteRange.Tiles : Nat → List ByteRange → Nat → Prop
  | nil (i : Nat) : Tiles i [] i
  | cons {i j k : Nat} {rest : List ByteRange} : i ≤ j → Tiles j rest k →
    Tiles i (⟨i, j⟩ :: rest) k

theorem Chars.utf8ByteSize_ofList (cs : List Char) :
    (String.ofList cs).utf8ByteSize = byteLength cs := by
  induction cs with
  | nil => rfl
  | cons c cs ih =>
    rw [String.ofList_cons, String.utf8ByteSize_append, String.utf8ByteSize_singleton, ih,
      byteLength_cons]

namespace Text

/-- Runs in a row are found one behind the other. -/
theorem tiles_locate (offset : Nat) (runs : List Run) : ByteRange.Tiles offset
    ((locate offset runs).map Prod.fst) (offset + Run.lengthAll runs) := by
  induction runs generalizing offset with
  | nil => exact .nil offset
  | cons r rest ih =>
    rw [Run.lengthAll, ← Nat.add_assoc]
    exact .cons (Nat.le_add_right _ _) (ih (offset + r.length))

/-- The ranges of the runs reach from the first byte of the string to its last. -/
theorem tiles_ranges (t : Text) :
    ByteRange.Tiles 0 (t.ranges.map Prod.fst) t.string.utf8ByteSize := by
  have htiles := tiles_locate 0 t.runs
  have hlen : 0 + Run.lengthAll t.runs = t.string.utf8ByteSize := by
    rw [Nat.zero_add, string, Chars.utf8ByteSize_ofList, ← length_eq_byteLength, length]
  rwa [hlen] at htiles

/-! ## Records -/

/-- The fields of the line that lists a run: its bytes, its text and the names of its keys. -/
def fieldsOf (shows : Char → Bool) (entry : ByteRange × Run) : List String :=
  [toString entry.1.start ++ ".." ++ toString entry.1.stop, Chars.quoted shows entry.2.text,
    "[" ++ String.intercalate "," (entry.2.attributes.keys.map Attribute.Key.name) ++ "]"]

/-- A line lists a run: it can be cut into the fields of the run at its two tabs. -/
structure IsRecord (shows : Char → Bool) (entry : ByteRange × Run) (line : List Char) : Prop where
  newlines : '\n' ∉ line
  tabs : line.count '\t' = 2
  fields : line.splitOn '\t' = (fieldsOf shows entry).map String.toList
  names : entry.2.attributes.IsListable

variable {shows : Char → Bool}

/-- The line joins the fields with tabs. -/
theorem runLine_eq (entry : ByteRange × Run) : (runLine shows entry).toList =
    ['\t'].intercalate ((fieldsOf shows entry).map String.toList) := by
  simp [runLine, fieldsOf, List.intercalate_cons_cons]

/-- Of the fields, only the names of keys come from outside as they are. -/
theorem isField_of_mem_fieldsOf {entry : ByteRange × Run}
    (hnames : entry.2.attributes.IsListable) :
    ∀ field ∈ fieldsOf shows entry, IsField field.toList := by
  simp only [fieldsOf, List.forall_mem_cons, String.toList_append, isField_append_iff,
    String.toList_intercalate]
  refine ⟨⟨⟨isField_toString _, by decide⟩, isField_toString _⟩, isField_quoted _ _,
    ⟨⟨by decide, isField_intercalate (by decide) ?_⟩, by decide⟩, by simp⟩
  intro part hpart
  obtain ⟨name, hname, rfl⟩ := List.mem_map.1 hpart
  obtain ⟨key, hkey, rfl⟩ := List.mem_map.1 hname
  exact hnames key hkey

/-- The line of a run lists it, if the names of its keys can stand in a field. -/
theorem isRecord_runLine {entry : ByteRange × Run} (hnames : entry.2.attributes.IsListable) :
    IsRecord shows entry (runLine shows entry).toList := by
  have hfields : ∀ field ∈ (fieldsOf shows entry).map String.toList, IsField field := by
    simpa using isField_of_mem_fieldsOf hnames
  have hsplit : (runLine shows entry).toList.splitOn '\t' =
      (fieldsOf shows entry).map String.toList := by
    rw [runLine_eq]
    refine List.splitOn_intercalate '\t' (fun field hfield htab => ?_) (by simp [fieldsOf])
    exact (hfields field hfield _ htab).2 rfl
  refine ⟨?_, ?_, hsplit, hnames⟩
  · have hline : ∀ c ∈ (runLine shows entry).toList, c ≠ '\n' := by
      rw [runLine_eq]
      exact forall_mem_intercalate (by simp) fun field hfield c hc =>
        (hfields field hfield c hc).1
    exact fun hmem => hline '\n' hmem rfl
  · -- there is one tab less than there are fields
    have hlen := Chars.length_splitOnP (· == '\t') (runLine shows entry).toList
    rw [← List.splitOn_eq_splitOnP, hsplit] at hlen
    exact (Nat.succ.inj hlen).symm

end Text

/-! ## The output -/

namespace Command

open Markdown

/-- Lines that are printed one by one can be told apart again. -/
theorem splitOn_ofLines {lines : List String} (h : ∀ line ∈ lines, '\n' ∉ line.toList) :
    (Answer.ofLines lines).output.toList.splitOn '\n' = lines.map String.toList ++ [[]] := by
  unfold Answer.ofLines
  induction lines with
  | nil => rfl
  | cons line rest ih =>
    rw [List.forall_mem_cons] at h
    rw [List.map_cons, String.join_cons, String.append_assoc, String.toList_append,
      Chars.splitOn_append_of_not_mem h.1, String.toList_append]
    have hbreak : "\n".toList = ['\n'] := rfl
    rw [hbreak, List.singleton_append, List.splitOn_cons_eq_if_modifyHead, if_pos (by decide),
      ih h.2]
    simp

theorem linked_read (reader : Reader) (extensions : Extensions) (source : String) :
    (Tree.read reader extensions source).Linked :=
  (Draft.Sound.empty.run (reader.events extensions source)).built.linked

/-- The listing of the runs of a source has a line for each run, which can be read back: it has two
tabs and no newline besides the one at its end, and no name of a key has either. The ranges follow
one another from the first byte of the text to its last. Nothing is listed of a source that cannot
be turned into a text. -/
theorem answer_lists_runs (host : Host) {settings : Settings} (hruns : settings.showsRuns)
    (source : Source) :
    (∃ error, Text.ofMarkdown host.reader source.text {} {}
        (settings.conversionOptions host source) = .error error ∧
      (answer host (.list settings) (some source)).output = "") ∨
    ∃ text lines,
      Text.ofMarkdown host.reader source.text {} {} (settings.conversionOptions host source) =
        .ok text ∧
      (answer host (.list settings) (some source)).output.toList.splitOn '\n' = lines ++ [[]] ∧
      List.Forall₂ (Text.IsRecord host.shows) text.ranges lines ∧
      text.ranges.map Prod.snd = text.runs ∧
      ByteRange.Tiles 0 (text.ranges.map Prod.fst) text.string.utf8ByteSize := by
  have hanswer : answer host (.list settings) (some source) = list host settings source := rfl
  rw [hanswer]
  unfold list
  cases htext : Text.ofMarkdown host.reader source.text {} {}
      (settings.conversionOptions host source) with
  | error error => exact .inl ⟨error, rfl, rfl⟩
  | ok text =>
    -- the command renders raw markup literally, and passes no attributes
    have hrecord : ∀ entry ∈ text.ranges,
        Text.IsRecord host.shows entry (Text.runLine host.shows entry).toList := by
      intro entry hentry
      have hrun := Text.mem_runs_of_mem_ranges hentry
      exact Text.isRecord_runLine (Tree.isListable_toText (linked_read _ _ _) (.inl rfl)
        Attributes.isListable_empty htext entry.2 hrun)
    refine .inr ⟨text, (text.runLines host.shows).map String.toList, rfl, ?_, ?_,
      Text.map_locate 0 text.runs, text.tiles_ranges⟩
    · simp only [hruns, if_true]
      apply splitOn_ofLines
      intro line hline
      obtain ⟨entry, hentry, rfl⟩ := List.mem_map.1 hline
      exact (hrecord entry hentry).newlines
    · unfold Text.runLines
      rw [List.map_map, List.forall₂_map_right_iff]
      exact List.forall₂_same.2 hrecord

/-- A host that reads raw markup with a newline in it, a text with a tab, and an empty item, out of
whatever source. -/
def bulletin : Host where
  reader := ⟨fun _ _ => [.start .paragraph, .inlineHtml "<tone\nred/>", .text "\tNew", .stop,
    .start (.list none), .start .item, .stop, .stop]⟩
  urls := .schemeless
  shows := showsInk

/-- All runs, with items that are indented by a newline. -/
def bulletinSettings : Settings := { showsRuns := true, indent := some "\n" }

/-- Newlines and tabs of the texts are quoted, and the last run has no bytes. -/
theorem bulletin_lists_runs : bulletinSettings.showsRuns ∧
    ((∃ error, Text.ofMarkdown bulletin.reader "News" {} {}
        (bulletinSettings.conversionOptions bulletin { text := "News" }) = .error error ∧
      (answer bulletin (.list bulletinSettings) (some { text := "News" })).output = "") ∨
    ∃ text lines,
      Text.ofMarkdown bulletin.reader "News" {} {}
        (bulletinSettings.conversionOptions bulletin { text := "News" }) = .ok text ∧
      (answer bulletin (.list bulletinSettings) (some { text := "News" })).output.toList.splitOn
        '\n' = lines ++ [[]] ∧
      List.Forall₂ (Text.IsRecord bulletin.shows) text.ranges lines ∧
      text.ranges.map Prod.snd = text.runs ∧
      ByteRange.Tiles 0 (text.ranges.map Prod.fst) text.string.utf8ByteSize) ∧
    (answer bulletin (.list bulletinSettings) (some { text := "News" })).output =
      "0..11\t\"<tone\\nred/>\"\t[tone]\n" ++ "11..15\t\"\\tNew\"\t[]\n" ++
        "15..18\t\"\\u\x7b2029\x7d\"\t[]\n" ++ "18..23\t\"\\n• \"\t[]\n" ++
        "23..23\t\"\"\t[]\n" :=
  ⟨rfl, answer_lists_runs bulletin rfl { text := "News" }, by decide⟩

end Command

end StyledText
