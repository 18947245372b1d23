/-
Settings: where the program and the catalog lie, and how strictly they are treated.

A settings file is TOML. What it leaves out has its default, and unknown keys are ignored.
-/
import FormProgram.Toml.Document
import FormProgram.Toml.Quoted

set_option autoImplicit false

namespace FormProgram

structure Config where
  programPath : String := "program.json"
  catalogPath : String := "questions.json"
  /-- Programs are written in canonical order. -/
  normalizeOnWrite : Bool := true
  /-- A late read is an error, not just a remark. -/
  strictPredicateOrdering : Bool := false
deriving DecidableEq, Repr, Inhabited

/-- A path that is not there. -/
inductive ConfigError where
  | emptyProgramPath
  | emptyCatalogPath
deriving DecidableEq, Repr

def ConfigError.message : ConfigError → String
  | .emptyProgramPath => "program_path must be non-empty"
  | .emptyCatalogPath => "catalog_path must be non-empty"

namespace Config

def check (c : Config) : Except ConfigError Config :=
  if c.programPath.isEmpty then .error .emptyProgramPath
  else if c.catalogPath.isEmpty then .error .emptyCatalogPath
  else .ok c

/-- The setting under a name, or its default; none if it is of the wrong kind. -/
def setting? {α : Type} (read : Toml.Value → Option α) (t : Toml.Table) (name : String)
    (default : α) : Option α :=
  match t.lookup name with
  | none => some default
  | some (.value v) => read v
  | some _ => none

def string? : Toml.Value → Option String
  | .string s => some s
  | _ => none

def boolean? : Toml.Value → Option Bool
  | .boolean b => some b
  | _ => none

def ofTable? (t : Toml.Table) : Option Config := do
  let default : Config := {}
  some {
    programPath := ← setting? string? t "program_path" default.programPath
    catalogPath := ← setting? string? t "catalog_path" default.catalogPath
    normalizeOnWrite := ← setting? boolean? t "normalize_on_write" default.normalizeOnWrite
    strictPredicateOrdering :=
      ← setting? boolean? t "strict_predicate_ordering" default.strictPredicateOrdering }

def ofText? (text : String) : Option Config := (Toml.Table.ofText? text).bind ofTable?

/-- A line with one setting. -/
def line (name value : String) : String := name ++ " = " ++ value ++ "\n"

def quoted (s : String) : String := String.ofList (Toml.Quoted.write s.toList)

def truth (b : Bool) : String := if b then "true" else "false"

/-- The settings file, with an empty line at the end. -/
def document (c : Config) : String :=
  line "program_path" (quoted c.programPath) ++ line "catalog_path" (quoted c.catalogPath)
    ++ line "normalize_on_write" (truth c.normalizeOnWrite)
    ++ line "strict_predicate_ordering" (truth c.strictPredicateOrdering) ++ "\n"

end Config

end FormProgram
