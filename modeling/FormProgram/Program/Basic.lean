/-
Programs: a description for applicants and administrators, and the blocks of the application form.

A `Draft` is the bare content; a `Program` is a draft with room for what has been found out about
it (`Memo`). Memos are no part of what a program is: programs with the same content are equal, and
an edited program starts without them, or with the one that the edit guarantees.
-/
import FormProgram.Order
import FormProgram.Sorted.Map

set_option autoImplicit false

namespace FormProgram

abbrev ProgramId := UInt64

inductive ProgramType where
  | standard
  | commonIntakeForm
deriving DecidableEq, Repr, Inhabited

namespace ProgramType

def label : ProgramType → String
  | .standard => "default"
  | .commonIntakeForm => "common_intake_form"

def all : List ProgramType := [.standard, .commonIntakeForm]

end ProgramType

/-- Everything about a program except its blocks. The localized texts are kept by locale. -/
structure Details where
  id : ProgramId := 0
  adminName : String := ""
  adminDescription : String := ""
  externalLink : String := ""
  localizedName : SortedMap String String := ∅
  localizedDescription : SortedMap String String := ∅
  type : ProgramType := .standard
  eligibilityIsGating : Bool := false
deriving DecidableEq, Inhabited

structure Draft where
  details : Details := {}
  blocks : List Block := []
deriving BEq, Inhabited

/-- What has been found out about a program: whether its blocks are in canonical order, and which
questions they use. -/
structure Memo where
  ordered : Option Bool := none
  questionIds : Option (List QuestionId) := none
deriving Inhabited

structure Program extends Draft where
  memo : Memo := {}
deriving Inhabited

instance : BEq Program := ⟨fun p q => p.toDraft == q.toDraft⟩

namespace Draft

/-- The program with this content and no memos. -/
def build (d : Draft) : Program := { toDraft := d }

def addBlock (d : Draft) (b : Block) : Draft := { d with blocks := d.blocks ++ [b] }

def addLocalizedName (d : Draft) (locale text : String) : Draft :=
  { d with details := { d.details with localizedName := d.details.localizedName.insert locale text } }

def addLocalizedDescription (d : Draft) (locale text : String) : Draft :=
  { d with details :=
    { d.details with localizedDescription := d.details.localizedDescription.insert locale text } }

def questions (d : Draft) : List Question := d.blocks.flatMap fun b => b.questions.map (·.question)

/-- In block order; a question used twice is listed twice. -/
def questionIds (d : Draft) : List QuestionId := d.blocks.flatMap Block.questionIds

end Draft

namespace Program

def id (p : Program) : ProgramId := p.details.id

/-- The blocks are in canonical order. -/
def isOrdered (p : Program) : Bool := p.memo.ordered.getD (isCanonical p.blocks)

/-- The program with the answer of `isOrdered` noted. -/
def noteOrdered (p : Program) : Program :=
  { p with memo := { p.memo with ordered := some p.isOrdered } }

/-- The ids of the questions in use. -/
def usedQuestions (p : Program) : List QuestionId := p.memo.questionIds.getD p.questionIds

/-- Some block uses the question. -/
def hasQuestion (p : Program) (q : QuestionId) : Bool := p.usedQuestions.contains q

/-- The program with the question ids noted. -/
def noteQuestions (p : Program) : Program :=
  { p with memo := { p.memo with questionIds := some p.usedQuestions } }

/-- The program with these blocks and no memos. -/
def withBlocks (p : Program) (blocks : List Block) : Program :=
  Draft.build { p.toDraft with blocks }

/-- The program with these blocks, which are known to be in canonical order. -/
def withOrderedBlocks (p : Program) (blocks : List Block) : Program :=
  { p.withBlocks blocks with memo := { ordered := some true } }

/-- The program with its blocks in canonical order. -/
def order (p : Program) : Program :=
  if p.isOrdered then p.noteOrdered else p.withOrderedBlocks (canonicalOrder p.blocks)

end Program

end FormProgram
