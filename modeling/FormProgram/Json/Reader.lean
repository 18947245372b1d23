/-
Reading typed values off the tree of a JSON text.

A record may be written as an object or as the array of its fields in order (`Tree.fields?`); a
member with a known name must not repeat, an unknown one is skipped unread. A choice among names is
the name as a string, or an object with that one name and `null` (`Tree.choice?`). Every reader is
silent about the reason of a failure.
-/
import FormProgram.Json.Tree
import FormProgram.Sorted.Set

set_option autoImplicit false

namespace FormProgram.Json.Tree

def word? : Tree → Option UInt64
  | .number (.natural n) => some n
  | _ => none

def flag? : Tree → Option Bool
  | .bool b => some b
  | _ => none

def string? : Tree → Option String
  | .string s => some s
  | _ => none

def list? {α : Type} (read : Tree → Option α) : Tree → Option (List α)
  | .array items => items.mapM read
  | _ => none

def strings? (t : Tree) : Option (SortedSet String) := (t.list? string?).map .ofList

/-- An object of strings; of members with one name the last counts. -/
def texts? : Tree → Option (SortedMap String String)
  | .object members =>
    (members.mapM fun (m : String × Tree) => m.2.string?.map fun s => (m.1, s)).map .ofList
  | _ => none

/-- One of the named choices. -/
def choice? {α : Type} (names : List (String × α)) : Tree → Option α
  | .string s => names.lookup s
  | .object [(s, .null)] => names.lookup s
  | _ => none

/-- The value of a member that may be there at most once. -/
def member? (name : String) (members : List (String × Tree)) : Option (Option Tree) :=
  match members.filter (·.1 == name) with
  | [] => some none
  | [(_, t)] => some (some t)
  | _ => none

/-- The fields of a record in the order of their names, those left off as none. -/
def fields? (names : List String) : Tree → Option (List (Option Tree))
  | .object members => names.mapM (member? · members)
  | .array items =>
    if items.length ≤ names.length then
      some (items.map some ++ List.replicate (names.length - items.length) none)
    else none
  | _ => none

def required {α : Type} (read : Tree → Option α) : Option Tree → Option α
  | some t => read t
  | none => none

/-- A field that may be left off, but not be null. -/
def defaulted {α : Type} (default : α) (read : Tree → Option α) : Option Tree → Option α
  | some t => read t
  | none => some default

/-- A field that may be left off or null. -/
def optional {α : Type} (read : Tree → Option α) : Option Tree → Option (Option α)
  | some .null => some none
  | some t => (read t).map some
  | none => some none

end FormProgram.Json.Tree
