/-
The schema of program documents, as a check of JSON values.

Objects of the stored form are closed: every member has a known name and passes that member's
check, and the required names are there (`Schema.record`). Conditions are open: they may have
further members, and must match exactly one of two shapes. An integer may also be a double without
fraction.
-/
import FormProgram.Json.Basic

set_option autoImplicit false

namespace FormProgram

open Json

/-- The value of a double that is a natural number; minus zero is zero. -/
def Json.Finite.natural? (x : Finite) : Option Nat :=
  let (m, q, _) := Decimal.binaryOfBits x.val.toBits
  if m = 0 then some 0
  else if x.val.toBits >>> 63 == 1 then none
  else
    let whole := m <<< q.toNat >>> (-q).toNat
    if whole <<< (-q).toNat = m <<< q.toNat then some whole else none

/-- The value of a number that is a natural number. -/
def Json.Number.natural? : Number → Option Nat
  | .natural n => some n.toNat
  | .negative _ => none
  | .float x => x.natural?

namespace Schema

/-- An integer that is `least` or more. -/
def integer (least : Nat) : Json → Bool
  | .number n => (n.natural?.map fun n => decide (least ≤ n)).getD false
  | _ => false

/-- A string of `least` characters or more. -/
def string (least : Nat) : Json → Bool
  | .string s => least ≤ s.length
  | _ => false

def boolean : Json → Bool
  | .bool _ => true
  | _ => false

def oneOf (names : List String) : Json → Bool
  | .string s => names.contains s
  | _ => false

def list (item : Json → Bool) : Json → Bool
  | .array items => items.all item
  | _ => false

/-- An object whose members all pass one check. -/
def mapOf (check : Json → Bool) : Json → Bool
  | .object members => members.all fun (_, j) => check j
  | _ => false

def has (members : List (String × Json)) (name : String) : Bool := members.any (·.1 == name)

/-- If there is a member with the name, it passes. -/
def whenThere (members : List (String × Json)) (name : String) (check : Json → Bool) : Bool :=
  members.all fun (n, j) => n != name || check j

/-- An object with all required members, and only members that have a check and pass it. -/
def record (needed : List String) (checks : List (String × (Json → Bool))) : Json → Bool
  | .object members =>
    needed.all (has members) && members.all fun (name, j) =>
      match checks.lookup name with
      | some check => check j
      | none => false
  | _ => false

/-- The members of a leaf. -/
def isLeaf (members : List (String × Json)) : Bool :=
  ["questionId", "scalar", "operator", "value"].all (has members)
    && whenThere members "node" (oneOf ["leaf"])
    && whenThere members "questionId" (integer 0)
    && whenThere members "scalar" (string 0)
    && whenThere members "operator" (string 0)

mutual

/-- An object with a tag that is either a leaf or a list of conditions, but not both. -/
def condition : Json → Bool
  | .object members =>
    has members "node"
      && (isLeaf members
        != (has members "children"
          && whenThere members "node" (oneOf ["and", "or"])
          && childrenPass members))
  | _ => false

/-- A member named children is a list of conditions. -/
def childrenPass : List (String × Json) → Bool
  | [] => true
  | (name, j) :: rest => (name != "children" || conditionList j) && childrenPass rest

def conditionList : Json → Bool
  | .array items => conditions items
  | _ => false

def conditions : List Json → Bool
  | [] => true
  | j :: rest => condition j && conditions rest

end

def predicate : Json → Bool :=
  record ["root", "action"]
    [("root", condition), ("action", oneOf ["hide_block", "show_block", "eligible_block"])]

def usage : Json → Bool :=
  record ["id"]
    [("id", integer 0), ("optional", boolean), ("addressCorrectionEnabled", boolean)]

def block : Json → Bool :=
  record ["id", "name"]
    [("id", integer 1), ("name", string 0), ("description", string 0),
      ("enumeratorId", integer 1), ("isEnumerator", boolean), ("questions", list usage),
      ("visibilityPredicate", predicate),
      ("eligibilityDefinition", record ["predicate"] [("predicate", predicate)])]

def program : Json → Bool :=
  record ["id", "adminName", "blockDefinitions"]
    [("id", integer 0), ("adminName", string 1), ("adminDescription", string 0),
      ("externalLink", string 0), ("localizedName", mapOf (string 0)),
      ("localizedDescription", mapOf (string 0)),
      ("programType", oneOf ["default", "common_intake_form"]),
      ("eligibilityIsGating", boolean), ("blockDefinitions", list block)]

end Schema

end FormProgram
