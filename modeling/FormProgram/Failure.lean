/-
Why work on files fails: the cause, and what was being done, the outermost first.

The message joins what was being done and the cause with colons. What the file system and the
readers of JSON and TOML have against a file is no part of it.
-/
import FormProgram.Config
import FormProgram.Stored.Document

set_option autoImplicit false

namespace FormProgram

/-- What was being done when something failed. -/
inductive Activity where
  | loadConfig (path : String)
  | readConfig (path : String)
  | parseConfig (path : String)
  | createDirectory (path : String)
  | writeTemporary (path : String)
  | replaceConfig (path : String)
  | readCatalog (path : String)
  | parseCatalog (path : String)
  | indexCatalog (path : String)
  | loadProgram (path : String)
  | readProgram (path : String)
  | parseProgram
  | decodeProgram
  | writeProgram (path : String)
  | readBlock (path : String)
  | parseBlock (path : String)
  | hydrateBlock (path : String)
  | saveInserted (block : BlockId)
  | saveMoved (block : BlockId)
deriving DecidableEq, Repr

def Activity.text : Activity → String
  | .loadConfig p => "load config " ++ p
  | .readConfig p => "read " ++ p
  | .parseConfig p => "parse " ++ p
  | .createDirectory p => "create directory " ++ p
  | .writeTemporary p => "write temp config " ++ p
  | .replaceConfig p => "replace config " ++ p
  | .readCatalog p => "read catalog " ++ p
  | .parseCatalog p => "parse catalog " ++ p
  | .indexCatalog p => "index catalog " ++ p
  | .loadProgram p => "load program " ++ p
  | .readProgram p => "read program " ++ p
  | .parseProgram => "parse program json"
  | .decodeProgram => "deserialize program json"
  | .writeProgram p => "write program " ++ p
  | .readBlock p => "read block " ++ p
  | .parseBlock p => "parse block " ++ p
  | .hydrateBlock p => "hydrate block " ++ p
  | .saveInserted b => "save program after inserting block " ++ Decimal.text b.toNat
  | .saveMoved b => "save program after moving block " ++ Decimal.text b.toNat

inductive Cause where
  /-- A file cannot be read or written. -/
  | files
  | json
  | toml
  | schema
  | config (e : ConfigError)
  | program (e : ProgramError)
  | duplicateQuestion (id : QuestionId)
  | missingQuestion (m : MissingQuestion)
  | defects (ds : List Defect)
  /-- An inserted block brings defects. -/
  | insertDefects (block : BlockId) (ds : List Defect)
  | lateReads (reads : List LateRead)
  /-- A path for settings that names no file. -/
  | noParent (path : String)
deriving DecidableEq

def Cause.message? : Cause → Option String
  | .files | .json | .toml => none
  | .schema => some "program schema validation failed"
  | .config e => some e.message
  | .program e => some e.message
  | .duplicateQuestion id => some ("duplicate question id " ++ Decimal.text id.toNat ++ " in catalog")
  | .missingQuestion m => some m.message
  | .defects ds => some ("program invariants failed: " ++ Defect.messages ds)
  | .insertDefects b ds =>
    some ("inserting block " ++ Decimal.text b.toNat ++ " breaks program invariants: "
      ++ Defect.messages ds)
  | .lateReads reads =>
    some ("predicate ordering violations: " ++ "; ".intercalate (reads.map LateRead.text))
  | .noParent path => some ("config path missing parent " ++ path)

structure Failure where
  activities : List Activity
  cause : Cause
deriving DecidableEq

namespace Failure

def of (cause : Cause) : Failure := ⟨[], cause⟩

/-- The failure of a larger activity. -/
def during (a : Activity) (f : Failure) : Failure := { f with activities := a :: f.activities }

def message (f : Failure) : String :=
  ": ".intercalate (f.activities.map Activity.text ++ f.cause.message?.toList)

/-- The failure to read a program document. -/
def ofDocument : DocumentError → Failure
  | .notJson => ⟨[.parseProgram], .json⟩
  | .schema => .of .schema
  | .fields => ⟨[.decodeProgram], .json⟩
  | .missingQuestion m => .of (.missingQuestion m)
  | .defects ds => .of (.defects ds)

end Failure

end FormProgram
