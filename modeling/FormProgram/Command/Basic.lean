/-
Commands: what each does in a workspace, what it prints, and its exit code.
-/
import FormProgram.Workspace.Edit
import FormProgram.Workspace.Inspect

set_option autoImplicit false

namespace FormProgram

inductive Command where
  | validate
  | order
  | slice (block : BlockId)
  | available (block : BlockId) (kind : PredicateKind)
  | insert (blockPath : String)
  | move (block : BlockId) (direction : Direction)
deriving DecidableEq, Repr

def idTexts (ids : List BlockId) : List String := ids.map fun id => Decimal.text id.toNat

def EditReport.text (r : EditReport) : String :=
  "program " ++ Decimal.text r.program.toNat ++ (if r.changed then " updated: " else " unchanged: ")
    ++ " ".intercalate (idTexts r.ids) ++ "\n"

namespace Program

def Report.text (r : Report) : String :=
  "program " ++ Decimal.text r.program.toNat ++ ": " ++ Decimal.text r.blockCount ++ " blocks, "
    ++ (if r.ordered then "canonical order" else "not in canonical order") ++ "\n"
    ++ String.join (r.lateReads.map (·.text ++ "\n"))

def SliceReport.text (r : SliceReport) : String :=
  r.slice.text ++ " [" ++ ", ".intercalate (idTexts r.ids) ++ "]\n"

end Program

/-- One question to a line, its id before its name. -/
def Question.listText (questions : List Question) : String :=
  String.join (questions.map fun q => Decimal.text q.id.toNat ++ "\t" ++ q.name ++ "\n")

/-- The exit code of a failure: a missing block and a refused move have their own. -/
def Failure.exitCode (f : Failure) : UInt8 :=
  match f.cause with
  | .program (.blockNotFound _ _) => 2
  | .program (.illegalPredicateOrdering _ _) => 3
  | _ => 1

structure Outcome where
  code : UInt8
  output : String
  /-- What is said beside the output when something fails. -/
  complaint : String := ""
deriving DecidableEq, Repr

def Outcome.ofResult : Except Failure String → Outcome
  | .ok output => ⟨0, output, ""⟩
  | .error f => ⟨f.exitCode, "", f.message ++ "\n"⟩

/-- A command, and what it is to work on. -/
structure Invocation where
  configPath : String := "progdef.toml"
  overrides : Overrides := {}
  command : Command
deriving DecidableEq, Repr

variable {m : Type → Type} [Monad m] [FileAccess m]

/-- Runs a command in a workspace. The result is what to print. -/
def Command.run (w : Workspace) : Command → FileWork m String
  | .validate => do return (← w.validate).text
  | .order => do return (← w.order).text
  | .slice block => do return (← w.slice block).text
  | .available block kind => do return Question.listText (← w.available kind block)
  | .insert blockPath => do return (← w.insert blockPath).text
  | .move block direction => do return (← w.move block direction).text

def Invocation.run (i : Invocation) : m Outcome := do
  let work : FileWork m String := do
    i.command.run (← Workspace.openAt i.configPath i.overrides)
  return .ofResult (← ExceptT.run work)

end FormProgram
