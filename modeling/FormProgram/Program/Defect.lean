/-
What a stored program must satisfy: there is a block; ids are positive and distinct; a repeated
block names another block that is an enumerator; no enumerators repeat in a circle; predicates read
only questions that the program uses. `Program.defects` lists what is wrong, check by check and
within a check in block order.
-/
import FormProgram.Program.Lookup

set_option autoImplicit false

namespace FormProgram

inductive Defect where
  | noBlock (program : ProgramId)
  | zeroId
  | duplicateId (block : BlockId)
  | repeatsUnderItself (block : BlockId)
  | notAnEnumerator (block enumerator : BlockId)
  | unreachable (block : BlockId)
  | unknownQuestion (block : BlockId) (question : QuestionId)
deriving DecidableEq, Repr

namespace Defect

def message : Defect → String
  | .noBlock p => "program " ++ Decimal.text p.toNat ++ ": must have at least one block"
  | .zeroId => "block id must be > 0"
  | .duplicateId b => "duplicate block id " ++ Decimal.text b.toNat
  | .repeatsUnderItself b => "block " ++ Decimal.text b.toNat ++ ": repeats under itself"
  | .notAnEnumerator b e =>
    "block " ++ Decimal.text b.toNat ++ ": enumerator " ++ Decimal.text e.toNat
      ++ " is not an enumerator block in this program"
  | .unreachable b =>
    "block " ++ Decimal.text b.toNat ++ ": not reachable from a top-level block (enumerator cycle)"
  | .unknownQuestion b q =>
    "block " ++ Decimal.text b.toNat ++ ": predicate references question " ++ Decimal.text q.toNat
      ++ " not used in the program"

def messages (defects : List Defect) : String := "; ".intercalate (defects.map message)

/-- Zero ids, and ids that an earlier block has. -/
def ofIds : List BlockId → List Block → List Defect
  | _, [] => []
  | seen, b :: rest =>
    (if b.id = 0 then [.zeroId] else [])
      ++ (if seen.contains b.id then [.duplicateId b.id] else [])
      ++ ofIds (b.id :: seen) rest

end Defect

namespace Program

def enumeratorDefects (p : Program) : List Defect :=
  p.blocks.filterMap fun b =>
    match b.enumerator with
    | none => none
    | some e =>
      if e = b.id then some (.repeatsUnderItself b.id)
      else if p.hasEnumerator e then none
      else some (.notAnEnumerator b.id e)

def cycleDefects (p : Program) : List Defect :=
  (pick p.blocks (Forest.ofBlocks p.blocks).unreachable).map fun b => .unreachable b.id

def questionDefects (p : Program) : List Defect :=
  p.blocks.flatMap fun b =>
    (b.predicateQuestions.toList.filter (!p.hasQuestion ·)).map (.unknownQuestion b.id)

/-- The defects of ids and enumerators. Circles are looked for only if there are no others. -/
def structureDefects (p : Program) : List Defect :=
  let defects := Defect.ofIds [] p.blocks ++ p.enumeratorDefects
  if defects.isEmpty then p.cycleDefects else defects

def defects (p : Program) : List Defect :=
  if p.blocks.isEmpty then [.noBlock p.id]
  else p.structureDefects ++ p.noteQuestions.questionDefects

end Program

end FormProgram
