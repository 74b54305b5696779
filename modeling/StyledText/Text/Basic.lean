import StyledText.Attribute.Set
import StyledText.Text.ByteRange
import StyledText.Chars.Offset

/-!
# Styled texts

A text is a list of runs: stretches of characters with one set of attributes each.

* Positions in a text are byte offsets into `Text.string`.
* Runs may be empty. An empty run can carry an attachment, which then stands at its place.
-/

namespace StyledText

/-- The separator of lines inside a block. -/
def lineSeparator : Char := '\u2028'

/-- The separator of neighbouring blocks. -/
def paragraphSeparator : Char := '\u2029'

/-! ## Runs -/

/-- A stretch of text with one set of attributes. -/
structure Run where
  text : String := ""
  attributes : Attributes := {}
deriving DecidableEq, Inhabited

namespace Run

def chars (r : Run) : List Char := r.text.toList

def length (r : Run) : Nat := Chars.byteLength r.chars

/-- The length of runs in a row, in bytes. -/
def lengthAll : List Run → Nat
  | [] => 0
  | r :: rest => r.length + lengthAll rest

def isEmpty (r : Run) : Bool := r.text = ""

/-- An empty run that carries an attachment. -/
def ofAttachment (a : Attachment) (attributes : Attributes) : Run :=
  { attributes := attributes.insert .attachment (.attachment a) }

/-- The name of the template variable the run belongs to. -/
def variableName? (r : Run) : Option String := r.attributes.text? .variableName

/-- Whether two runs have one text and agreeing attributes. -/
def alike (r s : Run) : Bool := r.text = s.text && r.attributes.alike s.attributes

end Run

/-! ## Texts -/

structure Text where
  runs : List Run := []
deriving DecidableEq, Inhabited

namespace Text

def ofRun (r : Run) : Text := ⟨[r]⟩

/-- A text of one run with the given attributes. -/
def styled (text : String) (attributes : Attributes) : Text := ofRun { text, attributes }

/-- A text of one run without attributes. -/
def plain (text : String) : Text := styled text {}

instance : Append Text := ⟨fun s t => ⟨s.runs ++ t.runs⟩⟩

@[simp] theorem runs_append (s t : Text) : (s ++ t).runs = s.runs ++ t.runs := rfl

def push (t : Text) (r : Run) : Text := ⟨t.runs ++ [r]⟩

def chars (t : Text) : List Char := t.runs.flatMap Run.chars

@[simp] theorem chars_append (s t : Text) : (s ++ t).chars = s.chars ++ t.chars := by
  simp [chars]

/-- The text without its attributes. -/
def string (t : Text) : String := String.ofList t.chars

def length (t : Text) : Nat := Run.lengthAll t.runs

/-- The length counts the bytes of the string. -/
theorem length_eq_byteLength (t : Text) : t.length = Chars.byteLength t.chars := by
  obtain ⟨runs⟩ := t
  induction runs with
  | nil => rfl
  | cons r rest ih =>
    simp only [length, chars, Run.lengthAll, List.flatMap_cons, Chars.byteLength_append] at ih ⊢
    rw [ih, Run.length]

/-- Whether no run has any characters. -/
def isEmpty (t : Text) : Bool := t.runs.all Run.isEmpty

/-- Whether two texts have agreeing runs. -/
def alike (s t : Text) : Bool := s.runs.isEqv t.runs Run.alike

/-- The parts in a row, with the separator as a run of its own between each two. Without any
part the result still has one empty run. -/
def joined (separator : Option String) : List Text → Text
  | [] => ofRun {}
  | first :: rest =>
    ⟨first.runs ++ rest.flatMap fun part =>
      (separator.map fun s => ({ text := s } : Run)).toList ++ part.runs⟩

/-! ## Positions -/

/-- The runs with the bytes they take, the first one starting at `offset`. -/
def locate (offset : Nat) : List Run → List (ByteRange × Run)
  | [] => []
  | r :: rest => (⟨offset, offset + r.length⟩, r) :: locate (offset + r.length) rest

/-- The runs with the bytes they take. -/
def ranges (t : Text) : List (ByteRange × Run) := locate 0 t.runs

/-- The run that holds the byte at `offset`. -/
def runAt? (t : Text) (offset : Nat) : Option Run :=
  (t.ranges.find? fun e => e.1.contains offset).map Prod.snd

def extent (t : Text) : ByteRange := ⟨0, t.length⟩

/-- The part of the string in a range, if its ends are boundaries. -/
def slice? (t : Text) (range : ByteRange) : Option String :=
  (Chars.slice? range.start range.stop t.chars).map String.ofList

end Text

end StyledText
