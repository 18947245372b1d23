/-
TOML documents off their tokens.

A machine reads the tokens with a stack of what is open: the entry of a line, and inside its value
arrays and inline tables. Line ends and comments may stand around the items of both, and around the
equals signs of an inline table; anywhere else a line end ends the line.
-/
import FormProgram.Toml.Table
import FormProgram.Toml.Token

set_option autoImplicit false

namespace FormProgram.Toml

/-- How many arrays and inline tables may stand inside each other, and how many names a key may
join. -/
def depthLimit : Nat := 80

/-- What the names of a key that is being read are for. -/
inductive KeyUse where
  /-- An entry of the document, or of the inline table on top of the stack. -/
  | entry
  | table
  | element
deriving DecidableEq, Repr

/-- What is open. The entry at the bottom and the entries of inline tables wait for their value. -/
inductive Frame where
  | entry (k : Key)
  | array
  | inline (entries : List (Key × Value))
  | inlineEntry (entries : List (Key × Value)) (k : Key)
deriving DecidableEq, Repr

inductive Phase where
  | line
  /-- After an opening bracket at the start of a line. -/
  | header
  /-- A name, the names before it last first. -/
  | name (u : KeyUse) (names : List String)
  /-- After a name: a dot, or what ends the key. -/
  | afterName (u : KeyUse) (names : List String)
  /-- After the key of an inline table's entry and a line end or comment. -/
  | equals (k : Key)
  | closing (k : Key)
  | value
  | scalar (cs : List Char)
  /-- A time, or what follows the unquoted value and the space. -/
  | time (cs : List Char)
  /-- The first item of an array or one after a comma, or the end. -/
  | item
  | afterItem
  /-- The first entry of an inline table or one after a comma, or the end. -/
  | member
  | afterMember
  | ended
deriving DecidableEq, Repr

/-- The document so far, its sections and the entries of the last one last first. -/
structure Reading where
  top : List (Key × Value) := []
  sections : List Section := []
deriving DecidableEq, Repr

namespace Reading

def add (r : Reading) (k : Key) (v : Value) : Reading :=
  match r.sections with
  | [] => { r with top := (k, v) :: r.top }
  | s :: rest => { r with sections := { s with entries := (k, v) :: s.entries } :: rest }

def start (r : Reading) (h : Header) : Reading := { r with sections := ⟨h, []⟩ :: r.sections }

def document (r : Reading) : Document where
  entries := r.top.reverse
  sections := r.sections.reverse.map fun s => { s with entries := s.entries.reverse }

end Reading

structure State where
  reading : Reading := {}
  stack : List Frame := []
  phase : Phase := .line
deriving DecidableEq, Repr

namespace State

def close (s : State) (v : Value) : Option State :=
  match s.stack with
  | .entry k :: _ => some ⟨s.reading.add k v, [], .ended⟩
  | .array :: _ => some { s with phase := .afterItem }
  | .inlineEntry entries k :: stack =>
    some { s with stack := .inline (entries ++ [(k, v)]) :: stack, phase := .afterMember }
  | _ => none

/-- After an opening bracket or brace of a value. The entry at the bottom does not count. -/
def push (s : State) (f : Frame) (phase : Phase) : Option State :=
  if s.stack.length ≤ depthLimit then some { s with stack := f :: s.stack, phase } else none

def pop (s : State) : Option State :=
  match s.stack with
  | .array :: stack => { s with stack }.close .other
  | .inline entries :: stack =>
    (Table.addAll [] entries).bind fun _ => { s with stack }.close .other
  | _ => none

def key? (names : List String) : Option Key :=
  if names.length ≤ depthLimit then Key.ofNames? names.reverse else none

/-- What was opened last is an inline table, or the entry of one. -/
def isInline (s : State) : Bool :=
  match s.stack with
  | .inline _ :: _ | .inlineEntry _ _ :: _ => true
  | _ => false

def await (s : State) (k : Key) : Option State :=
  match s.stack with
  | [] => some { s with stack := [.entry k], phase := .value }
  | .inline entries :: stack =>
    some { s with stack := .inlineEntry entries k :: stack, phase := .value }
  | _ => none

def begin (s : State) (h : Header) : State :=
  { s with reading := s.reading.start h, phase := .ended }

def isNameChar (c : Char) : Bool := c.isAlphanum || c = '_' || c = '-'

def stepName (s : State) (u : KeyUse) (names : List String) : Token → Option State
  | .bare cs =>
    if cs.all isNameChar then some { s with phase := .afterName u (String.ofList cs :: names) }
    else none
  | .text cs false => some { s with phase := .afterName u (String.ofList cs :: names) }
  | .blank _ => some { s with phase := .name u names }
  | _ => none

def stepValue (s : State) : Token → Option State
  | .text cs _ => s.close (.string (String.ofList cs))
  | .bare cs => some { s with phase := .scalar cs }
  | .openSquare => s.push .array .item
  | .openCurly => s.push (.inline []) .member
  | .blank _ => some s
  | .lineEnd | .comment => if s.isInline then some s else none
  | _ => none

def stepAfter (s : State) (t : Token) : Option State :=
  match s.phase, t with
  | .ended, .lineEnd => some { s with phase := .line }
  | .afterItem, .comma => some { s with phase := .item }
  | .afterItem, .closeSquare => s.pop
  | .afterMember, .comma => some { s with phase := .member }
  | .afterMember, .closeCurly => s.pop
  | .afterItem, .lineEnd | .afterMember, .lineEnd => some s
  | _, .blank _ | _, .comment => some s
  | _, _ => none

/-- An unquoted value ends before a token. -/
def stepClosed (s : State) (cs : List Char) (t : Token) : Option State := do
  let s ← s.close (← Scalar.value? cs)
  s.stepAfter t

def step (s : State) (t : Token) : Option State :=
  match s.phase, t with
  | .line, .lineEnd | .line, .blank _ | .line, .comment => some s
  | .line, .openSquare => some { s with phase := .header }
  | .line, t => s.stepName .entry [] t
  | .header, .openSquare => some { s with phase := .name .element [] }
  | .header, t => s.stepName .table [] t
  | .name u names, t => s.stepName u names t
  | .afterName _ _, .blank _ => some s
  | .afterName u names, .dot => some { s with phase := .name u names }
  | .afterName .entry names, .equals => do s.await (← key? names)
  | .afterName .entry names, .lineEnd | .afterName .entry names, .comment => do
    if s.isInline then some { s with phase := .equals (← key? names) } else none
  | .equals k, .equals => s.await k
  | .equals _, .lineEnd | .equals _, .comment | .equals _, .blank _ => some s
  | .afterName .table names, .closeSquare => do some (s.begin (.table (← key? names)))
  | .afterName .element names, .closeSquare => do
    some { s with phase := .closing (← key? names) }
  | .closing k, .closeSquare => some (s.begin (.element k))
  | .value, t => s.stepValue t
  | .scalar cs, .dot => some { s with phase := .scalar (cs ++ ['.']) }
  | .scalar cs, .bare more => some { s with phase := .scalar (cs ++ more) }
  | .scalar cs, .blank [' '] => some { s with phase := .time cs }
  | .scalar cs, t => s.stepClosed cs t
  | .time cs, .bare more => some { s with phase := .scalar (cs ++ ' ' :: more) }
  | .time cs, t => s.stepClosed cs t
  | .item, .closeSquare => s.pop
  | .item, .lineEnd | .item, .comment | .item, .blank _ => some s
  | .item, t => s.stepValue t
  | .member, .closeCurly => s.pop
  | .member, .lineEnd | .member, .comment | .member, .blank _ => some s
  | .member, t => s.stepName .entry [] t
  | .afterItem, t | .afterMember, t | .ended, t => s.stepAfter t
  | _, _ => none

def finish (s : State) : Option Document := do
  let s ← match s.phase with
    | .scalar cs | .time cs => s.stepClosed cs .lineEnd
    | _ => some s
  match s.phase with
  | .line | .ended => some s.reading.document
  | _ => none

end State

def Document.ofTokens? (ts : List Token) : Option Document :=
  (ts.foldlM State.step {}).bind State.finish

def Document.ofText? (text : String) : Option Document := (Token.ofText? text).bind ofTokens?

def Table.ofText? (text : String) : Option Table := (Document.ofText? text).bind Document.table?

end FormProgram.Toml
