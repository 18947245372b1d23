/-
The command line: options, a command word, and the command's operands.

The options may stand before or after the command word, each at most once on either side; behind
the word they count more. Help and version are given as soon as they are met, so a mistake before
them wins and one after them goes unseen.
-/
import FormProgram.Command.Basic

set_option autoImplicit false

namespace FormProgram.CommandLine

/-- The options that take a path. -/
inductive PathOption where
  | config | program | catalog
deriving DecidableEq, Repr

namespace PathOption

def label : PathOption → String
  | .config => "config"
  | .program => "program"
  | .catalog => "catalog"

def all : List PathOption := [.config, .program, .catalog]

end PathOption

inductive Word where
  /-- An option, with its value if that follows an equals sign. -/
  | path (o : PathOption) (attached : Option String)
  | eligibility
  | help
  | version
  /-- From here on every word is an operand. -/
  | operandsOnly
  | plain
  | unknown
deriving DecidableEq, Repr

def Word.ofLong (cs : List Char) : Word :=
  let name := String.ofList (cs.takeWhile (· ≠ '='))
  let attached := match cs.dropWhile (· ≠ '=') with
    | _ :: value => some (String.ofList value)
    | [] => none
  match PathOption.all.find? (·.label == name), attached with
  | some o, attached => .path o attached
  | none, some _ => .unknown
  | none, none =>
    if name = "" then .operandsOnly
    else if name = "eligibility" then .eligibility
    else if name = "help" then .help
    else if name = "version" then .version
    else .unknown

def Word.of (word : String) : Word :=
  match word.toList with
  | '-' :: '-' :: cs => .ofLong cs
  | '-' :: 'h' :: _ => .help
  | '-' :: 'V' :: _ => .version
  | '-' :: _ :: _ => .unknown
  | _ => .plain

/-- The options on one side of the command word. -/
structure Options where
  config : Option String := none
  program : Option String := none
  catalog : Option String := none
deriving DecidableEq, Repr

namespace Options

def get (o : Options) : PathOption → Option String
  | .config => o.config
  | .program => o.program
  | .catalog => o.catalog

/-- Sets an option that is not set; the path must not be empty. -/
def set? (o : Options) (p : PathOption) (path : String) : Option Options :=
  if path.isEmpty || (o.get p).isSome then none
  else
    match p with
    | .config => some { o with config := path }
    | .program => some { o with program := path }
    | .catalog => some { o with catalog := path }

/-- Sets an option whose value is the next word, if that looks like a value. -/
def setNext? (o : Options) (p : PathOption) (word : String) : Option Options :=
  if Word.of word = .plain then o.set? p word else none

/-- The options of both sides; those behind the command word count more. -/
def merge (before behind : Options) : Options where
  config := behind.config <|> before.config
  program := behind.program <|> before.program
  catalog := behind.catalog <|> before.catalog

def invocation (o : Options) (command : Command) : Invocation :=
  let default : Invocation := { command }
  { default with
    configPath := o.config.getD default.configPath
    overrides := ⟨o.program, o.catalog⟩ }

end Options

inductive Verb where
  | validate | order | slice | available | insert | move
deriving DecidableEq, Repr

namespace Verb

def label : Verb → String
  | .validate => "validate"
  | .order => "order"
  | .slice => "slice"
  | .available => "available"
  | .insert => "insert"
  | .move => "move"

def all : List Verb := [.validate, .order, .slice, .available, .insert, .move]

def ofWord? (word : String) : Option Verb := all.find? (·.label == word)

end Verb

/-- A command whose operands are being read. -/
inductive Partial where
  | done (c : Command)
  | slice
  | available (kind : PredicateKind)
  | insert
  | move
  | moveBlock (block : BlockId)
deriving DecidableEq, Repr

namespace Partial

def start : Verb → Partial
  | .validate => .done .validate
  | .order => .done .order
  | .slice => .slice
  | .available => .available .visibility
  | .insert => .insert
  | .move => .move

def operand? (p : Partial) (word : String) : Option Partial :=
  match p with
  | .slice => (Decimal.word? word.toList).map fun id => .done (.slice id)
  | .available kind => (Decimal.word? word.toList).map fun id => .done (.available id kind)
  | .insert => if word.isEmpty then none else some (.done (.insert word))
  | .move => (Decimal.word? word.toList).map .moveBlock
  | .moveBlock id =>
    (Direction.all.find? (·.label == word)).map fun d => .done (.move id d)
  | .done _ => none

/-- Asks for eligibility, which may be done once. -/
def eligibility? : Partial → Option Partial
  | .available .visibility => some (.available .eligibility)
  | .done (.available id .visibility) => some (.done (.available id .eligibility))
  | _ => none

end Partial

inductive Request where
  | invoke (i : Invocation)
  | help
  | version
deriving DecidableEq, Repr

def operands? (p : Partial) (words : List String) : Option Command :=
  match words.foldlM Partial.operand? p with
  | some (.done c) => some c
  | _ => none

def behind? (before o : Options) : Partial → List String → Option Request
  | .done c, [] => some (.invoke ((before.merge o).invocation c))
  | _, [] => none
  | p, word :: rest =>
    match Word.of word, rest with
    | .path option (some path), rest => do behind? before (← o.set? option path) p rest
    | .path option none, next :: rest => do behind? before (← o.setNext? option next) p rest
    | .eligibility, rest => do behind? before o (← p.eligibility?) rest
    | .help, _ => some .help
    | .operandsOnly, rest =>
      (operands? p rest).map fun c => .invoke ((before.merge o).invocation c)
    | .plain, rest => do behind? before o (← p.operand? word) rest
    | _, _ => none

/-- What follows the word `help`: at most one command word. -/
def helpOn? : List String → Option Request
  | [] => some .help
  | [word] => if word = "help" || (Verb.ofWord? word).isSome then some .help else none
  | _ => none

/-- What stands before the command word, and all that follows. -/
def before? (o : Options) : List String → Option Request
  | [] => none
  | word :: rest =>
    match Word.of word, rest with
    | .path option (some path), rest => do before? (← o.set? option path) rest
    | .path option none, next :: rest => do before? (← o.setNext? option next) rest
    | .help, _ => some .help
    | .version, _ => some .version
    | .plain, rest =>
      if word = "help" then helpOn? rest
      else do behind? o {} (.start (← Verb.ofWord? word)) rest
    | _, _ => none

def Request.ofArguments? (words : List String) : Option Request := before? {} words

def usage : String :=
  "usage: progdef [--config FILE] [--program FILE] [--catalog FILE] COMMAND\n\n"
    ++ "  validate                      report on order and predicates\n"
    ++ "  order                         put the blocks in canonical order\n"
    ++ "  slice BLOCK                   where a block and its repeated blocks stand\n"
    ++ "  available BLOCK [--eligibility]\n"
    ++ "                                the questions a predicate may read\n"
    ++ "  insert FILE                   insert the block in a file\n"
    ++ "  move BLOCK up|down            move a block past its sibling\n"

def versionText : String := "progdef 0.1.0\n"

variable {m : Type → Type} [Monad m] [FileAccess m]

def answer (words : List String) : m Outcome :=
  match Request.ofArguments? words with
  | none => return ⟨2, "", usage⟩
  | some .help => return ⟨0, usage, ""⟩
  | some .version => return ⟨0, versionText, ""⟩
  | some (.invoke i) => i.run

end FormProgram.CommandLine
