/-
A tree of files in memory.

A path is followed name by name from the root or from the working directory. Every place on the way
must be a directory, also before an empty name, so that `p/` needs a directory `p`. Each operation
changes what it names and nothing else (`node?_set_self`, `node?_set_other`).
-/
import FormProgram.File.Access
import FormProgram.File.Path

set_option autoImplicit false

namespace FormProgram

/-- A place: the names from the root down. -/
abbrev Location := List String

inductive FileNode where
  | directory
  | file (bytes : ByteArray)

structure FileTree where
  node? : Location → Option FileNode
  workingDirectory : Location

namespace FileTree

/-- Nothing but the working directory and those above it. -/
def emptyAt (workingDirectory : Location) : FileTree where
  node? l := if l.isPrefixOf workingDirectory then some .directory else none
  workingDirectory := workingDirectory

def isDirectory (t : FileTree) (l : Location) : Bool :=
  match t.node? l with
  | some .directory => true
  | _ => false

/-- The tree with another node at a place, or without one. -/
def set (t : FileTree) (l : Location) (n : Option FileNode) : FileTree :=
  { t with node? := fun l' => if l' = l then n else t.node? l' }

@[simp] theorem node?_set_self (t : FileTree) (l : Location) (n : Option FileNode) :
    (t.set l n).node? l = n := by simp [set]

theorem node?_set_other (t : FileTree) {l l' : Location} (n : Option FileNode) (h : l' ≠ l) :
    (t.set l n).node? l' = t.node? l' := by simp [set, h]

/-- One name further from a directory. Nothing lies above the root. -/
def next (l : Location) (name : String) : Location :=
  if name = "" || name = "." then l else if name = ".." then l.dropLast else l ++ [name]

/-- The place at the end of the names. It need not be taken, but the ones before it are
directories. -/
def walk (t : FileTree) (l : Location) : List String → Option Location
  | [] => some l
  | name :: rest => if t.isDirectory l then t.walk (next l name) rest else none

/-- A path that can be followed at all: there is one, it has less than 4096 bytes, and no NUL. -/
def isPath (path : String) : Bool :=
  !path.isEmpty && path.utf8ByteSize < 4096 && !path.contains '\x00'

def isName (name : String) : Bool := name.utf8ByteSize ≤ 255

def origin (t : FileTree) (path : String) : Location :=
  if Path.isAbsolute path then [] else t.workingDirectory

def locate (t : FileTree) (path : String) : Option Location :=
  if isPath path && (Path.names path).all isName then t.walk (t.origin path) (Path.names path)
  else none

def isThere (t : FileTree) (path : String) : Bool := ((t.locate path).bind t.node?).isSome

def readText (t : FileTree) (path : String) : Option String :=
  match (t.locate path).bind t.node? with
  | some (.file bytes) => String.fromUTF8? bytes
  | _ => none

/-- Replaces the contents of a file, which need not be there yet. -/
def write? (t : FileTree) (path : String) (bytes : ByteArray) : Option FileTree :=
  match t.locate path with
  | none => none
  | some l => if t.isDirectory l then none else some (t.set l (some (.file bytes)))

/-- Makes the directories that the names lead along. What has been made stays when a file or a name
that is too long blocks the way further on. -/
def makeAlong (t : FileTree) (l : Location) : List String → Bool × FileTree
  | [] => (t.isDirectory l, t)
  | name :: rest =>
    if !t.isDirectory l then (false, t)
    else
      match t.node? (next l name) with
      | none =>
        if isName name then (t.set (next l name) (some .directory)).makeAlong (next l name) rest
        else (false, t)
      | some _ => t.makeAlong (next l name) rest

def createDirectories (t : FileTree) (path : String) : Bool × FileTree :=
  if path.isEmpty then (true, t)
  else if isPath path then t.makeAlong (t.origin path) (Path.names path)
  else (false, t)

/-- Moves a file. It does not replace a directory. -/
def rename? (t : FileTree) (source target : String) : Option FileTree :=
  match t.locate source, t.locate target with
  | some l, some l' =>
    match t.node? l with
    | some (.file bytes) =>
      if t.isDirectory l' then none else some ((t.set l none).set l' (some (.file bytes)))
    | _ => none
  | _, _ => none

/-- Success, and the tree after it; otherwise the tree as it was. -/
def after (t : FileTree) : Option FileTree → Bool × FileTree
  | some t' => (true, t')
  | none => (false, t)

instance : FileAccess (StateM FileTree) where
  isThere path := fun t => (t.isThere path, t)
  readText path := fun t => (t.readText path, t)
  writeText path text := fun t => t.after (t.write? path text.toUTF8)
  createDirectories path := fun t => t.createDirectories path
  rename source target := fun t => t.after (t.rename? source target)

end FileTree

end FormProgram
