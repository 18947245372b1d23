/-
TOML tables: what a document's keys and headers build.

A table may be described in several places, but each part of it only once. A header defines a table
that is not there yet or has only been passed on the way to another header; a dotted key builds on
tables that dotted keys made; values, inline tables among them, are closed.
-/
import FormProgram.Toml.Scalar

set_option autoImplicit false

namespace FormProgram.Toml

/-- Names joined by dots: the path to a table, and a name in it. -/
structure Key where
  path : List String
  last : String
deriving DecidableEq, Repr

def Key.ofNames? (names : List String) : Option Key :=
  names.getLast?.map fun last => ⟨names.dropLast, last⟩

/-- What has made a table. -/
inductive Origin where
  /-- It lies on the way to a header's table. -/
  | passed
  | header
  /-- It lies on the way of a dotted key. -/
  | dotted
deriving DecidableEq, Repr

inductive Node where
  | value (v : Value)
  | table (origin : Origin) (entries : List (String × Node))
  /-- An array of tables, the last first. -/
  | tables (elements : List (List (String × Node)))

abbrev Table := List (String × Node)

namespace Table

def set (name : String) (n : Node) : Table → Table
  | [] => [(name, n)]
  | e :: rest => if e.1 == name then (name, n) :: rest else e :: set name n rest

/-- Changes the table that a path leads to, and makes the tables that are not there. Of an array of
tables the path goes through the last. -/
def alter (dotted : Bool) (change : Origin → Table → Option Table) :
    Origin → List String → Table → Option Table
  | origin, [], t => change origin t
  | _, name :: path, t =>
    match t.lookup name with
    | none =>
      let origin := if dotted then .dotted else .passed
      (alter dotted change origin path []).map fun inner => t.set name (.table origin inner)
    | some (.table origin inner) =>
      if dotted && origin == .header then none
      else (alter dotted change origin path inner).map fun inner => t.set name (.table origin inner)
    | some (.tables (inner :: others)) =>
      (alter dotted change .header path inner).map fun inner =>
        t.set name (.tables (inner :: others))
    | some _ => none

def add (t : Table) (k : Key) (v : Value) : Option Table :=
  alter true (fun origin t =>
    if (origin == .dotted) == k.path.isEmpty || (t.lookup k.last).isSome then none
    else some (t.set k.last (.value v))) .header k.path t

def addAll (t : Table) (entries : List (Key × Value)) : Option Table :=
  entries.foldlM (fun t (k, v) => t.add k v) t

end Table

inductive Header where
  | table (k : Key)
  /-- One more table of an array. -/
  | element (k : Key)
deriving DecidableEq, Repr

/-- A header with the entries below it. -/
structure Section where
  header : Header
  entries : List (Key × Value)
deriving DecidableEq, Repr

def Section.addTo (s : Section) (t : Table) : Option Table :=
  match s.header with
  | .table k =>
    t.alter false (fun _ t =>
      match t.lookup k.last with
      | none => (Table.addAll [] s.entries).map fun inner => t.set k.last (.table .header inner)
      | some (.table .passed inner) =>
        (Table.addAll inner s.entries).map fun inner => t.set k.last (.table .header inner)
      | some _ => none) .header k.path
  | .element k =>
    t.alter false (fun _ t =>
      match t.lookup k.last with
      | none => (Table.addAll [] s.entries).map fun inner => t.set k.last (.tables [inner])
      | some (.tables others) =>
        (Table.addAll [] s.entries).map fun inner => t.set k.last (.tables (inner :: others))
      | some _ => none) .header k.path

/-- A document: entries before any header, and sections. -/
structure Document where
  entries : List (Key × Value)
  sections : List Section
deriving DecidableEq, Repr

/-- The table that a document describes, if it contradicts itself nowhere. -/
def Document.table? (d : Document) : Option Table := do
  let top ← Table.addAll [] d.entries
  d.sections.foldlM (fun t s => s.addTo t) top

end FormProgram.Toml
