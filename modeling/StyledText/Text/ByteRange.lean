/-!
# Byte ranges

A range of positions in a text. It may be reversed or reach past the text; then it holds no byte,
or only those that are there.
-/

namespace StyledText

/-- The bytes from `start` up to `stop`; none if `stop` is not the larger. -/
structure ByteRange where
  start : Nat
  stop : Nat
deriving DecidableEq, Repr, Inhabited

namespace ByteRange

def isEmpty (r : ByteRange) : Bool := r.stop ≤ r.start

def contains (r : ByteRange) (offset : Nat) : Bool := r.start ≤ offset && offset < r.stop

/-- The bytes of both ranges. -/
def inter (r s : ByteRange) : ByteRange := ⟨max r.start s.start, min r.stop s.stop⟩

end ByteRange

end StyledText
