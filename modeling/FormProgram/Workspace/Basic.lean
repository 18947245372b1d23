/-
Workspaces: the settings and the two files that a command works on. Paths in the settings are
relative to the directory of the settings file.
-/
import FormProgram.File.Document

set_option autoImplicit false

namespace FormProgram

/-- Paths that replace those of the settings. -/
structure Overrides where
  programPath : Option String := none
  catalogPath : Option String := none
deriving DecidableEq, Repr, Inhabited

structure Workspace where
  config : Config
  programPath : String
  catalogPath : String
deriving DecidableEq, Repr

namespace Workspace

/-- The directory of a settings file. -/
def base (configPath : String) : String :=
  match Path.parent? configPath with
  | none | some "" => "."
  | some directory => directory

def ofConfig (configPath : String) (o : Overrides) (c : Config) : Workspace where
  config := c
  programPath := o.programPath.getD (Path.join (base configPath) c.programPath)
  catalogPath := o.catalogPath.getD (Path.join (base configPath) c.catalogPath)

variable {m : Type → Type} [Monad m] [FileAccess m]

/-- The workspace of a settings file. -/
def openAt (configPath : String) (o : Overrides) : FileWork m Workspace := do
  return ofConfig configPath o
    (← FileWork.during (.loadConfig configPath) (Config.load configPath))

def loadCatalog (w : Workspace) : FileWork m Catalog := Catalog.load w.catalogPath

def load (w : Workspace) : FileWork m (Catalog × Program) := do
  let catalog ← w.loadCatalog
  return (catalog, ← Program.load catalog w.programPath)

def save (w : Workspace) (p : Program) : FileWork m Unit :=
  p.save w.programPath w.config.normalizeOnWrite

end Workspace

end FormProgram
