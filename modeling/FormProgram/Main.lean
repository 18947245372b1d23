/-
The program on the files of a disk.
-/
import FormProgram.Command.Line

set_option autoImplicit false

namespace FormProgram

/-- Whether an action on the disk succeeds. -/
def onDisk (action : IO Unit) : IO Bool := do
  match ← action.toBaseIO with
  | .ok _ => return true
  | .error _ => return false

instance : FileAccess IO where
  isThere path := onDisk (discard (IO.FS.realPath path))
  readText path := do
    match ← (IO.FS.readFile path).toBaseIO with
    | .ok text => return some text
    | .error _ => return none
  writeText path text := onDisk (IO.FS.writeFile path text)
  createDirectories path :=
    if path.isEmpty then return true else onDisk (IO.FS.createDirAll path)
  rename source target := onDisk (IO.FS.rename source target)

end FormProgram

open FormProgram

def main (arguments : List String) : IO UInt32 := do
  let outcome ← CommandLine.answer (m := IO) arguments
  IO.print outcome.output
  IO.eprint outcome.complaint
  return outcome.code.toUInt32
