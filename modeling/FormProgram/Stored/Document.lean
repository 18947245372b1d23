/-
Program documents: from text to a program that satisfies everything a stored program must, and back.

Reading goes through five stages, each with an error of its own: JSON, schema, fields, catalog,
defects. Writing spreads the stored form over several lines and ends with a line feed.
-/
import FormProgram.Program.Defect
import FormProgram.Stored.Decode
import FormProgram.Stored.Encode
import FormProgram.Stored.Schema

set_option autoImplicit false

namespace FormProgram

inductive DocumentError where
  | notJson
  | schema
  /-- The fields are not those of a program, though the schema is met. -/
  | fields
  | missingQuestion (m : MissingQuestion)
  | defects (ds : List Defect)
deriving DecidableEq, Repr

namespace Program

/-- Reads a program document. -/
def ofText (catalog : Catalog) (text : String) : Except DocumentError Program :=
  match JsonValue.ofText? text with
  | none => .error .notJson
  | some value =>
    if !Schema.program value.json then .error .schema
    else
      match StoredProgram.ofJson? value.json with
      | none => .error .fields
      | some stored =>
        match stored.hydrate catalog with
        | .error m => .error (.missingQuestion m)
        | .ok p => if p.defects.isEmpty then .ok p else .error (.defects p.defects)

/-- The program document, in stored block order. -/
def document (p : Program) : String := (StoredProgram.ofProgram p).toJson.pretty ++ "\n"

end Program

end FormProgram
