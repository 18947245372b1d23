/-
The tree of a JSON text, before anything is asked of it.

Members of an object stand in the order of the text and may repeat. `Tree.void` stands for a part
that is well formed but denotes nothing: a number beyond the doubles, a string or a member name with
an unpaired surrogate half, anything nested deeper than 127 levels. Such a part does no harm where
it is skipped; where a value is needed (`Tree.value?`) it is an error.

The tree is built from the tokens by a machine with a stack of open arrays and objects.
-/
import FormProgram.Json.Basic
import FormProgram.Json.Token

set_option autoImplicit false

namespace FormProgram.Json

inductive Tree where
  | null
  | bool (b : Bool)
  | number (n : Number)
  | string (s : String)
  | array (items : List Tree)
  | object (members : List (String × Tree))
  | void
deriving Inhabited

namespace Tree

/-- How many arrays and objects may stand inside each other. -/
def depthLimit : Nat := 127

/-- An array or object whose parts so far are listed last first; in an object, the named member's
value is being read. -/
inductive Frame where
  | array (items : List Tree)
  | object (members : List (Option String × Tree)) (name : Option String)

/-- What is due next. -/
inductive Phase where
  | value
  /-- The first item of an array, or its end. -/
  | item
  /-- The first member of an object, or its end. -/
  | member
  | name (members : List (Option String × Tree))
  | colon (members : List (Option String × Tree)) (name : Option String)
  /-- A value has just ended. -/
  | done (t : Tree)

/-- The object with these members, or nothing if a name is not readable. -/
def ofMembers (members : List (Option String × Tree)) : Tree :=
  match members.mapM fun (name, t) => name.map (·, t) with
  | some members => .object members
  | none => .void

/-- An array or object that ends inside the open ones. -/
def nested (stack : List Frame) (t : Tree) : Tree :=
  if stack.length < depthLimit then t else .void

/-- A token where a value is due. -/
def stepValue (stack : List Frame) : Token → Option (List Frame × Phase)
  | .null => some (stack, .done .null)
  | .bool b => some (stack, .done (.bool b))
  | .number l => some (stack, .done (match l.value? with | some n => .number n | none => .void))
  | .string s => some (stack, .done (match s with | some s => .string s | none => .void))
  | .openArray => some (.array [] :: stack, .item)
  | .openObject => some (stack, .member)
  | _ => none

def step : List Frame → Phase → Token → Option (List Frame × Phase)
  | stack, .value, t => stepValue stack t
  | .array [] :: stack, .item, .closeArray => some (stack, .done (nested stack (.array [])))
  | stack, .item, t => stepValue stack t
  | stack, .member, .closeObject => some (stack, .done (nested stack (.object [])))
  | stack, .member, .string s => some (stack, .colon [] s)
  | stack, .name members, .string s => some (stack, .colon members s)
  | stack, .colon members name, .colon => some (.object members name :: stack, .value)
  | .array items :: stack, .done t, .comma => some (.array (t :: items) :: stack, .value)
  | .array items :: stack, .done t, .closeArray =>
    some (stack, .done (nested stack (.array (t :: items).reverse)))
  | .object members name :: stack, .done t, .comma => some (stack, .name ((name, t) :: members))
  | .object members name :: stack, .done t, .closeObject =>
    some (stack, .done (nested stack (ofMembers ((name, t) :: members).reverse)))
  | _, _, _ => none

def run : List Frame → Phase → List Token → Option Tree
  | [], .done t, [] => some t
  | _, _, [] => none
  | stack, phase, t :: ts =>
    match step stack phase t with
    | none => none
    | some (stack, phase) => run stack phase ts

def ofTokens? (ts : List Token) : Option Tree := run [] .value ts

/-- The tree of a text, if the text is well formed. -/
def ofText? (text : String) : Option Tree := (Token.lex text.toList).bind ofTokens?

mutual

/-- The value of a tree in which nothing is void. Of members with one name the last counts. -/
def value? : Tree → Option Json
  | .null => some .null
  | .bool b => some (.bool b)
  | .number n => some (.number n)
  | .string s => some (.string s)
  | .array items => (values? items).map .array
  | .object members => (memberValues? members).map .object
  | .void => none

def values? : List Tree → Option (List Json)
  | [] => some []
  | t :: rest =>
    match t.value?, values? rest with
    | some j, some js => some (j :: js)
    | _, _ => none

def memberValues? : List (String × Tree) → Option (List (String × Json))
  | [] => some []
  | (name, t) :: rest =>
    match t.value?, memberValues? rest with
    | some j, some ms => some (Entries.add name j ms)
    | _, _ => none

end

mutual

theorem canonical_of_value? : ∀ {t : Tree} {j : Json}, t.value? = some j → j.Canonical
  | .null, _, h | .bool _, _, h | .number _, _, h | .string _, _, h => by
    simp only [value?, Option.some.injEq] at h; subst h; trivial
  | .array items, j, h => by
    simp only [value?] at h
    obtain ⟨js, hjs, rfl⟩ := Option.map_eq_some_iff.1 h
    exact canonical_of_values? hjs
  | .object members, j, h => by
    simp only [value?] at h
    obtain ⟨ms, hms, rfl⟩ := Option.map_eq_some_iff.1 h
    exact canonical_of_memberValues? hms
  | .void, _, h => by simp [value?] at h

theorem canonical_of_values? : ∀ {ts : List Tree} {js : List Json},
    values? ts = some js → AllCanonical js
  | [], js, h => by simp only [values?, Option.some.injEq] at h; subst h; trivial
  | t :: rest, js, h => by
    simp only [values?] at h
    split at h
    · rename_i j js' hj hjs
      cases h
      exact ⟨canonical_of_value? hj, canonical_of_values? hjs⟩
    · simp at h

theorem canonical_of_memberValues? : ∀ {ts : List (String × Tree)} {ms : List (String × Json)},
    memberValues? ts = some ms → Entries.Ascending ms ∧ MembersCanonical ms
  | [], ms, h => by
    simp only [memberValues?, Option.some.injEq] at h; subst h
    exact ⟨List.Pairwise.nil, trivial⟩
  | (name, t) :: rest, ms, h => by
    simp only [memberValues?] at h
    split at h
    · rename_i j ms' hj hms
      cases h
      have ih := canonical_of_memberValues? hms
      exact ⟨ih.1.add name j, membersCanonical_add (canonical_of_value? hj) ih.2⟩
    · simp at h

end

def toValue? (t : Tree) : Option JsonValue :=
  match h : t.value? with
  | none => none
  | some j => some ⟨j, canonical_of_value? h⟩

mutual

/-- A document as the tree of its text. -/
def ofJson : Json → Tree
  | .null => .null
  | .bool b => .bool b
  | .number n => .number n
  | .string s => .string s
  | .array items => .array (ofItems items)
  | .object members => .object (ofNamed members)

def ofItems : List Json → List Tree
  | [] => []
  | j :: rest => ofJson j :: ofItems rest

def ofNamed : List (String × Json) → List (String × Tree)
  | [] => []
  | (name, j) :: rest => (name, ofJson j) :: ofNamed rest

end

end Tree

end Json

/-- The value of a JSON text. -/
def JsonValue.ofText? (text : String) : Option JsonValue :=
  (Json.Tree.ofText? text).bind Json.Tree.toValue?

end FormProgram
