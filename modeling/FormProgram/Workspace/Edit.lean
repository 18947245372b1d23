/-
Edits of the program file. Each loads the program, makes one change and writes the result; nothing is
written if anything before fails.
-/
import FormProgram.Workspace.Basic

set_option autoImplicit false

namespace FormProgram

/-- What a report on an edit says. The ids are in the order in which the blocks were written. -/
structure EditReport where
  program : ProgramId
  ids : List BlockId
  changed : Bool
deriving DecidableEq, Repr

def EditReport.of (before after : Program) : EditReport where
  program := after.id
  ids := after.blocks.map (·.id)
  changed := after.blocks.map (·.id) != before.blocks.map (·.id)

/-- An insertion after which the program is as a stored program must be. -/
def Program.insertSound (p : Program) (b : Block) : Except Failure Program :=
  match p.insert b with
  | .error e => .error (.of (.program e))
  | .ok q => if q.defects.isEmpty then .ok q else .error (.of (.insertDefects b.id q.defects))

namespace Workspace

variable {m : Type → Type} [Monad m] [FileAccess m]

/-- Writes the program in canonical order, whatever the settings say. -/
def order (w : Workspace) : FileWork m EditReport := do
  let (_, p) ← w.load
  p.order.save w.programPath true
  return .of p p.order

def insert (w : Workspace) (blockPath : String) : FileWork m EditReport := do
  let (catalog, p) ← w.load
  let b ← Block.load catalog blockPath
  let q ← p.insertSound b
  FileWork.during (.saveInserted b.id) (w.save q)
  return .of p q

def move (w : Workspace) (id : BlockId) (d : Direction) : FileWork m EditReport := do
  let (_, p) ← w.load
  let q ← (p.move id d).mapError fun e => Failure.of (.program e)
  FileWork.during (.saveMoved id) (w.save q)
  return .of p q

end Workspace

end FormProgram
