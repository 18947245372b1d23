/-
Look-ups in a program, in stored block order.
-/
import FormProgram.Program.Structure

set_option autoImplicit false

namespace FormProgram.Program

/-- The block named by a path: its id, and after a dash whatever may follow. -/
def blockByPath (p : Program) (path : String) : Except ProgramError Block :=
  match Decimal.word? (path.toList.takeWhile (· != '-')) with
  | some id => p.block id
  | none => .error (.malformedBlockId path)

def lastBlock (p : Program) : Except ProgramError Block :=
  match p.blocks.getLast? with
  | some b => .ok b
  | none => .error (.needsABlock p.id)

/-- Zero for a program without blocks. -/
def maxBlockId (p : Program) : BlockId := p.blocks.foldl (fun m b => max m b.id) 0

def questionCount (p : Program) : Nat := (p.blocks.flatMap (·.questions)).length

/-- Some block with the id is an enumerator. -/
def hasEnumerator (p : Program) (id : BlockId) : Bool :=
  p.blocks.any fun b => b.id == id && b.isEnumerator

def blocksUnder (p : Program) (enumerator : BlockId) : List Block :=
  p.blocks.filter (·.enumerator == some enumerator)

def topLevelBlocks (p : Program) : List Block := p.blocks.filter (!·.isRepeated)

def hasEligibility (p : Program) : Bool := p.blocks.any (·.eligibility.isSome)

/-- The first use of a question. -/
def usage (p : Program) (q : QuestionId) : Except ProgramError Usage :=
  match (p.blocks.flatMap (·.questions)).find? (·.id == q) with
  | some u => .ok u
  | none => .error (.questionNotFound p.id q)

def questionAt (p : Program) (block question : Nat) : Option Question := do
  let b ← p.blocks[block]?
  let u ← b.questions[question]?
  some u.question

def isReadByPredicate (p : Program) (q : QuestionId) : Bool :=
  p.blocks.any fun b => q ∈ b.predicateQuestions

/-- The questions that tell something about the primary applicant. -/
def taggedQuestions (p : Program) : List Question := p.questions.filter (!·.applicantTags.isEmpty)

/-- Locales in which name and description are there and every question is fully translated. -/
def supportedLocales (p : Program) : SortedSet String :=
  p.questions.foldl (fun s q => s.filter (· ∈ q.locales))
    (p.details.localizedName.keys.filter (· ∈ p.details.localizedDescription.keys))

/-- The slug of a name: lower-case letters and digits, every run of other characters between two of
them as one dash. `begun`: something has been written; `gap`: a run of others has been passed. -/
def slugChars (begun gap : Bool) : List Char → List Char
  | [] => []
  | c :: rest =>
    if c.isAlphanum then
      if gap && begun then '-' :: c.toLower :: slugChars true false rest
      else c.toLower :: slugChars true false rest
    else slugChars begun true rest

def slug (p : Program) : String := String.ofList (slugChars false false p.details.adminName.toList)

def isCommonIntakeForm (p : Program) : Bool := p.details.type == .commonIntakeForm

end FormProgram.Program
