/-
Blocks: the screens of an application form. A block may repeat once for each entity that another
block, its enumerator, has collected.
-/
import FormProgram.Predicate

set_option autoImplicit false

namespace FormProgram

/-- Block ids are positive; zero stands for no block. -/
abbrev BlockId := UInt64

structure Block where
  id : BlockId
  name : String
  description : String := ""
  /-- The enumerator block this one repeats under; none at the top level. -/
  enumerator : Option BlockId := none
  /-- The block collects the entities that other blocks repeat for. -/
  isEnumerator : Bool := false
  questions : List Usage := []
  visibility : Option Predicate := none
  eligibility : Option Predicate := none
deriving BEq, Inhabited

namespace Block

def isRepeated (b : Block) : Bool := b.enumerator.isSome

def questionIds (b : Block) : List QuestionId := b.questions.map Usage.id

/-- What either predicate of the block reads. -/
def predicateQuestions (b : Block) : SortedSet QuestionId :=
  let shown := match b.visibility with
    | some p => p.questions
    | none => ∅
  match b.eligibility with
  | some p => shown.union p.questions
  | none => shown

/-- The questions whose answers a predicate may read. -/
def readableQuestions (b : Block) : List Question :=
  (b.questions.filter Usage.isReadable).map (·.question)

end Block

inductive PredicateKind where
  | visibility | eligibility
deriving DecidableEq, Repr, Inhabited

def PredicateKind.label : PredicateKind → String
  | .visibility => "visibility"
  | .eligibility => "eligibility"

inductive Direction where
  | up | down
deriving DecidableEq, Repr, Inhabited

namespace Direction

def label : Direction → String
  | .up => "up"
  | .down => "down"

def all : List Direction := [.up, .down]

def opposite : Direction → Direction
  | .up => .down
  | .down => .up

end Direction

end FormProgram
