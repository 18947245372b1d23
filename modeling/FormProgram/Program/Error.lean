/-
Why an operation on a program fails. The program it was asked of is never changed.
-/
import FormProgram.Program.Basic
import FormProgram.Edit

set_option autoImplicit false

namespace FormProgram

inductive ProgramError where
  | blockNotFound (program : ProgramId) (block : BlockId)
  | duplicateBlockId (program : ProgramId) (block : BlockId)
  | nonAdjacentBlocks (program : ProgramId) (block : BlockId)
  /-- The move would put a predicate before a question it reads. -/
  | illegalPredicateOrdering (block : BlockId) (direction : Direction)
  | needsABlock (program : ProgramId)
  | questionNotFound (program : ProgramId) (question : QuestionId)
  | malformedBlockId (path : String)
deriving DecidableEq, Repr

namespace ProgramError

def message : ProgramError → String
  | .blockNotFound p b =>
    "block definition " ++ Decimal.text b.toNat ++ " not found in program " ++ Decimal.text p.toNat
  | .duplicateBlockId p b =>
    "block definition " ++ Decimal.text b.toNat ++ " already exists in program "
      ++ Decimal.text p.toNat
  | .nonAdjacentBlocks p b =>
    "block definition " ++ Decimal.text b.toNat ++ " in program " ++ Decimal.text p.toNat
      ++ " is not adjacent to the sibling it would swap with"
  | .illegalPredicateOrdering b d =>
    "moving block " ++ Decimal.text b.toNat ++ " " ++ d.label
      ++ " is not possible: it would move a block condition before the question it depends on"
  | .needsABlock p => "program " ++ Decimal.text p.toNat ++ " needs at least one block"
  | .questionNotFound p q =>
    "question " ++ Decimal.text q.toNat ++ " not found in program " ++ Decimal.text p.toNat
  | .malformedBlockId path => "malformed block id '" ++ path ++ "'"

/-- The failure of an edit of a program's block list. -/
def ofEdit (program : ProgramId) : EditError → ProgramError
  | .missingBlock b => .blockNotFound program b
  | .duplicateBlock b => .duplicateBlockId program b
  | .apart b => .nonAdjacentBlocks program b

end ProgramError

end FormProgram
