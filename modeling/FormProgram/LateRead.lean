/-
Predicates that read a question collected only later.

A visibility predicate is decided before its block is shown, so it may read questions of earlier
blocks only; an eligibility predicate may read the block's own questions as well.
-/
import FormProgram.Block
import FormProgram.Decimal.Natural

set_option autoImplicit false

namespace FormProgram

structure LateRead where
  block : BlockId
  kind : PredicateKind
  missing : SortedSet QuestionId
deriving DecidableEq

namespace LateRead

def text (v : LateRead) : String :=
  "block " ++ Decimal.text v.block.toNat ++ ": " ++ v.kind.label
    ++ " predicate references questions not yet collected: "
    ++ ", ".intercalate (v.missing.toList.map fun q => Decimal.text q.toNat)

/-- The late read of one predicate, given the questions collected by then. -/
def ofPredicate? (block : BlockId) (kind : PredicateKind) (collected : List QuestionId) :
    Option Predicate → Option LateRead
  | none => none
  | some p =>
    let missing := p.questions.filter fun q => !collected.contains q
    if missing.isEmpty then none else some ⟨block, kind, missing⟩

/-- The late reads of one block, given the questions collected before it. -/
def ofBlock (collected : List QuestionId) (b : Block) : List LateRead :=
  (ofPredicate? b.id .visibility collected b.visibility).toList
    ++ (ofPredicate? b.id .eligibility (collected ++ b.questionIds) b.eligibility).toList

def ofBlocksAfter : List QuestionId → List Block → List LateRead
  | _, [] => []
  | collected, b :: rest =>
    ofBlock collected b ++ ofBlocksAfter (collected ++ b.questionIds) rest

/-- In list order, and of one block the visibility predicate first. -/
def ofBlocks (blocks : List Block) : List LateRead := ofBlocksAfter [] blocks

end LateRead

/-- No predicate reads a question collected only later. -/
def readsInOrder (blocks : List Block) : Bool := (LateRead.ofBlocks blocks).isEmpty

end FormProgram
