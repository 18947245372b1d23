/-
The stored form of a program. A stored block lists its questions by id only; `hydrate` looks every
id up in the catalog, and `ofBlock` and `ofProgram` go back.
-/
import FormProgram.Catalog
import FormProgram.Program.Basic

set_option autoImplicit false

namespace FormProgram

structure StoredUsage where
  id : QuestionId
  optional : Bool := false
  addressCorrection : Bool := false
deriving DecidableEq, Inhabited

structure StoredBlock where
  id : BlockId
  name : String
  description : String := ""
  enumerator : Option BlockId := none
  isEnumerator : Bool := false
  questions : List StoredUsage := []
  visibility : Option Predicate := none
  eligibility : Option Predicate := none
deriving BEq, Inhabited

structure StoredProgram where
  details : Details
  blocks : List StoredBlock
deriving BEq, Inhabited

/-- A question id of a block that the catalog does not have. -/
structure MissingQuestion where
  block : BlockId
  question : QuestionId
deriving DecidableEq, Repr

def MissingQuestion.message (m : MissingQuestion) : String :=
  "block " ++ Decimal.text m.block.toNat ++ ": question " ++ Decimal.text m.question.toNat
    ++ " not found in catalog"

def StoredUsage.hydrate (catalog : Catalog) (block : BlockId) (u : StoredUsage) :
    Except MissingQuestion Usage :=
  match catalog.question? u.id with
  | some question => .ok ⟨question, u.optional, u.addressCorrection⟩
  | none => .error ⟨block, u.id⟩

def StoredBlock.hydrate (catalog : Catalog) (b : StoredBlock) : Except MissingQuestion Block :=
  (b.questions.mapM (StoredUsage.hydrate catalog b.id)).map fun questions =>
    { id := b.id, name := b.name, description := b.description, enumerator := b.enumerator,
      isEnumerator := b.isEnumerator, questions, visibility := b.visibility,
      eligibility := b.eligibility }

/-- The first missing question, block by block, is the error. -/
def StoredProgram.hydrate (catalog : Catalog) (p : StoredProgram) :
    Except MissingQuestion Program :=
  (p.blocks.mapM (StoredBlock.hydrate catalog)).map fun blocks =>
    Draft.build { details := p.details, blocks }

def StoredUsage.ofUsage (u : Usage) : StoredUsage := ⟨u.id, u.optional, u.addressCorrection⟩

def StoredBlock.ofBlock (b : Block) : StoredBlock :=
  { id := b.id, name := b.name, description := b.description, enumerator := b.enumerator,
    isEnumerator := b.isEnumerator, questions := b.questions.map .ofUsage,
    visibility := b.visibility, eligibility := b.eligibility }

def StoredProgram.ofProgram (p : Program) : StoredProgram :=
  { details := p.details, blocks := p.blocks.map .ofBlock }

end FormProgram
