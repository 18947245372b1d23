/-
Ranges of positions in a block list.
-/
import FormProgram.Decimal.Natural

set_option autoImplicit false

namespace FormProgram

/-- The positions from `start` up to but not including `stop`. -/
structure Slice where
  start : Nat
  stop : Nat
deriving DecidableEq, Repr, Inhabited

namespace Slice

def size (s : Slice) : Nat := s.stop - s.start

def isEmpty (s : Slice) : Bool := s.start == s.stop

def text (s : Slice) : String := Decimal.text s.start ++ ".." ++ Decimal.text s.stop

/-- The part of a list that a slice covers. -/
def extract {α : Type} (s : Slice) (l : List α) : List α := (l.take s.stop).drop s.start

end Slice

end FormProgram
