/-
Settings, catalogs, programs and blocks as files.

What a file's text means is decided without the file (`Catalog.ofFile` and its like); only reading
and writing need access to files.
-/
import FormProgram.Failure
import FormProgram.File.Access
import FormProgram.File.Path

set_option autoImplicit false

namespace FormProgram

/-- Work on files that may fail. -/
abbrev FileWork (m : Type → Type) (α : Type) := ExceptT Failure m α

namespace FileWork

variable {m : Type → Type} [Monad m] [FileAccess m] {α : Type}

/-- A failure of the work is a failure of the larger activity. -/
def during (a : Activity) (work : FileWork m α) : FileWork m α := work.adapt (·.during a)

/-- The text of a file, read as part of an activity. -/
def readText (a : Activity) (path : String) : FileWork m String := do
  match ← (FileAccess.readText path : m (Option String)) with
  | some text => return text
  | none => throw ⟨[a], .files⟩

/-- An operation on files, carried out as part of an activity. -/
def perform (a : Activity) (operation : m Bool) : FileWork m Unit := do
  if !(← operation) then throw ⟨[a], .files⟩

end FileWork

def Config.ofFile (path text : String) : Except Failure Config :=
  match Config.ofText? text with
  | none => .error ⟨[.parseConfig path], .toml⟩
  | some c => c.check.mapError fun e => .of (.config e)

def Catalog.ofFile (path text : String) : Except Failure Catalog :=
  match Question.listOfText? text with
  | none => .error ⟨[.parseCatalog path], .json⟩
  | some questions =>
    (Catalog.ofQuestions questions).mapError fun id =>
      ⟨[.indexCatalog path], .duplicateQuestion id⟩

def Program.ofFile (catalog : Catalog) (path text : String) : Except Failure Program :=
  (Program.ofText catalog text).mapError fun e => (Failure.ofDocument e).during (.loadProgram path)

def Block.ofFile (catalog : Catalog) (path text : String) : Except Failure Block :=
  match StoredBlock.ofText? text with
  | none => .error ⟨[.parseBlock path], .json⟩
  | some stored =>
    (stored.hydrate catalog).mapError fun e => ⟨[.hydrateBlock path], .missingQuestion e⟩

/-- The document to write for a program, if asked for with its blocks in canonical order. -/
def Program.documentFor (p : Program) (normalize : Bool) : String :=
  if normalize then p.order.document else p.document

section

variable {m : Type → Type} [Monad m] [FileAccess m]

/-- Without a file there are the default settings. -/
def Config.load (path : String) : FileWork m Config := do
  if ← (FileAccess.isThere path : m Bool) then
    Config.ofFile path (← FileWork.readText (.readConfig path) path)
  else return {}

def Catalog.load (path : String) : FileWork m Catalog := do
  Catalog.ofFile path (← FileWork.readText (.readCatalog path) path)

def Program.load (catalog : Catalog) (path : String) : FileWork m Program := do
  Program.ofFile catalog path (← FileWork.readText (.readProgram path) path)

def Block.load (catalog : Catalog) (path : String) : FileWork m Block := do
  Block.ofFile catalog path (← FileWork.readText (.readBlock path) path)

def Program.save (p : Program) (path : String) (normalize : Bool) : FileWork m Unit :=
  FileWork.perform (.writeProgram path)
    (FileAccess.writeText path (p.documentFor normalize))

/-- The settings are written to a file beside, which then takes the place of the old one. -/
def Config.save (c : Config) (path : String) : FileWork m Unit := do
  let c ← c.check.mapError fun e => Failure.of (.config e)
  match Path.parent? path with
  | none => throw (.of (.noParent path))
  | some directory =>
    let beside := Path.withExtension path "toml.tmp"
    FileWork.perform (.createDirectory directory) (FileAccess.createDirectories directory)
    FileWork.perform (.writeTemporary beside) (FileAccess.writeText beside c.document)
    FileWork.perform (.replaceConfig path) (FileAccess.rename beside path)

end

end FormProgram
