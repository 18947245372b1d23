/-
Questions about the program file. Nothing is written.
-/
import FormProgram.Workspace.Basic

set_option autoImplicit false

namespace FormProgram.Workspace

variable {m : Type → Type} [Monad m] [FileAccess m]

/-- A report under the settings: late reads may be an error. -/
def judge (w : Workspace) (r : Program.Report) : Except Failure Program.Report :=
  if w.config.strictPredicateOrdering && !r.lateReads.isEmpty then
    .error (.of (.lateReads r.lateReads))
  else .ok r

def validate (w : Workspace) : FileWork m Program.Report := do
  let (_, p) ← w.load
  w.judge p.report

def slice (w : Workspace) (id : BlockId) : FileWork m Program.SliceReport := do
  let (_, p) ← w.load
  (p.sliceReport id).mapError fun e => Failure.of (.program e)

def available (w : Workspace) (kind : PredicateKind) (id : BlockId) :
    FileWork m (List Question) := do
  let (_, p) ← w.load
  (p.available kind id).mapError fun e => Failure.of (.program e)

end FormProgram.Workspace
