/-
JSON documents and JSON values.

A document (`Json`) lists the members of an object in the order they stand in the text. A value
(`JsonValue`) is a document in which every object is a finite map: members in ascending order of
their names, no name twice.
-/
import FormProgram.Json.Number
import FormProgram.Sorted.Map

set_option autoImplicit false

namespace FormProgram

inductive Json where
  | null
  | bool (b : Bool)
  | number (n : Json.Number)
  | string (s : String)
  | array (items : List Json)
  | object (members : List (String × Json))
deriving Inhabited

namespace Json

mutual

/-- Equality of documents. Their doubles are compared as numbers. -/
def same : Json → Json → Bool
  | .null, .null => true
  | .bool a, .bool b => a == b
  | .number m, .number n => m == n
  | .string s, .string t => s == t
  | .array items, .array items' => sameItems items items'
  | .object members, .object members' => sameMembers members members'
  | _, _ => false

def sameItems : List Json → List Json → Bool
  | [], [] => true
  | j :: rest, j' :: rest' => j.same j' && sameItems rest rest'
  | _, _ => false

def sameMembers : List (String × Json) → List (String × Json) → Bool
  | [], [] => true
  | (k, j) :: rest, (k', j') :: rest' => k == k' && j.same j' && sameMembers rest rest'
  | _, _ => false

end

instance : BEq Json := ⟨same⟩

mutual

/-- The members of every object ascend. -/
def Canonical : Json → Prop
  | .array items => AllCanonical items
  | .object members => Entries.Ascending members ∧ MembersCanonical members
  | _ => True

def AllCanonical : List Json → Prop
  | [] => True
  | j :: rest => j.Canonical ∧ AllCanonical rest

def MembersCanonical : List (String × Json) → Prop
  | [] => True
  | (_, j) :: rest => j.Canonical ∧ MembersCanonical rest

end

theorem membersCanonical_add {k : String} {j : Json} {ms : List (String × Json)}
    (hj : j.Canonical) (h : MembersCanonical ms) : MembersCanonical (Entries.add k j ms) := by
  induction ms with
  | nil => simp [Entries.add, MembersCanonical, hj]
  | cons e ms ih =>
    obtain ⟨k', j'⟩ := e
    unfold Entries.add
    split
    · exact ⟨hj, h⟩
    · exact h
    · exact ⟨h.1, ih h.2⟩

mutual

/-- How many arrays and objects stand inside each other. -/
def depth : Json → Nat
  | .array items => depthAll items + 1
  | .object members => depthMembers members + 1
  | _ => 0

def depthAll : List Json → Nat
  | [] => 0
  | j :: rest => max j.depth (depthAll rest)

def depthMembers : List (String × Json) → Nat
  | [] => 0
  | (_, j) :: rest => max j.depth (depthMembers rest)

end

def word (n : UInt64) : Json := .number (.natural n)

def index (n : Nat) : Json := word (UInt64.ofNat n)

def strings (l : List String) : Json := .array (l.map .string)

def words (l : List UInt64) : Json := .array (l.map word)

end Json

structure JsonValue where
  json : Json
  canonical : json.Canonical

namespace JsonValue

instance : BEq JsonValue := ⟨fun a b => a.json == b.json⟩

instance : Inhabited JsonValue := ⟨⟨.null, trivial⟩⟩

end JsonValue

end FormProgram
