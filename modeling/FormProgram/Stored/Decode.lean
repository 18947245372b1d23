/-
The stored form read off the tree of a JSON text.

A record is decoded straight from its text, where a known member that repeats is an error, or from
a JSON value (`ofJson?`), in which no name repeats. A condition is tagged by `node`; it is read
whole before its tag is looked at, so nothing in it may be void, not even what is skipped.
-/
import FormProgram.Json.Reader
import FormProgram.Stored.Basic

set_option autoImplicit false

namespace FormProgram

open Json

/-- The names of choices. -/
def named {α : Type} (label : α → String) (all : List α) : List (String × α) :=
  all.map fun a => (label a, a)

def QuestionType.ofTree? : Tree → Option QuestionType := Tree.choice? (named label all)

def ProgramType.ofTree? : Tree → Option ProgramType := Tree.choice? (named label all)

def PredicateAction.ofTree? : Tree → Option PredicateAction := Tree.choice? (named label all)

def Operator.ofTree? : Tree → Option Operator := Tree.choice? (named label all)

def Direction.ofTree? : Tree → Option Direction := Tree.choice? (named label all)

def Question.ofTree? (t : Tree) : Option Question := do
  match ← t.fields? ["id", "name", "questionType", "supportedLocales",
      "primaryApplicantInfoTags"] with
  | [id, name, type, locales, tags] =>
    some {
      id := ← Tree.required Tree.word? id
      name := ← Tree.required Tree.string? name
      type := ← Tree.required QuestionType.ofTree? type
      locales := ← Tree.defaulted ∅ Tree.strings? locales
      applicantTags := ← Tree.defaulted ∅ Tree.strings? tags }
  | _ => none

/-- An operator inside a condition; beside `null` its object form may hold an empty object. -/
def Operator.ofNested? : Tree → Option Operator
  | .object [(s, .object [])] => (named label all).lookup s
  | t => Operator.ofTree? t

/-- The fields of a leaf; other members, the tag among them, are skipped. -/
def Comparison.ofTree? (t : Tree) : Option Comparison := do
  match ← t.fields? ["questionId", "scalar", "operator", "value"] with
  | [question, scalar, operator, value] =>
    some {
      question := ← Tree.required Tree.word? question
      scalar := ← Tree.required Tree.string? scalar
      operator := ← Tree.required Operator.ofNested? operator
      value := ← Tree.required Tree.toValue? value }
  | _ => none

namespace Condition

inductive Tag where
  | leaf | all | any
deriving DecidableEq, Repr

/-- A tag by its name, or inside another condition also by its number. -/
def Tag.ofTree? (inner : Bool) : Tree → Option Tag
  | .string "leaf" => some .leaf
  | .string "and" => some .all
  | .string "or" => some .any
  | .number (.natural n) =>
    if !inner then none
    else if n = 0 then some .leaf
    else if n = 1 then some .all
    else if n = 2 then some .any
    else none
  | _ => none

mutual

/-- A condition as an object with its tag among the members, or as an array that starts with the
tag and goes on with the fields. -/
def read? (inner : Bool) : Tree → Option Condition
  | .object members =>
    match Tree.member? "node" members with
    | some (some tag) =>
      match Tag.ofTree? inner tag, childLists? members with
      | some .leaf, _ => (Comparison.ofTree? (.object members)).map .leaf
      | some .all, [some children] => some (.all children)
      | some .any, [some children] => some (.any children)
      | _, _ => none
    | _ => none
  | .array (tag :: rest) =>
    match Tag.ofTree? inner tag, itemLists? rest with
    | some .leaf, _ => (Comparison.ofTree? (.array rest)).map .leaf
    | some .all, [some children] => some (.all children)
    | some .any, [some children] => some (.any children)
    | _, _ => none
  | _ => none

/-- The children in every member that is named so. -/
def childLists? : List (String × Tree) → List (Option (List Condition))
  | [] => []
  | (name, t) :: rest =>
    if name == "children" then readList? t :: childLists? rest else childLists? rest

/-- Every item as a list of children. -/
def itemLists? : List Tree → List (Option (List Condition))
  | [] => []
  | t :: rest => readList? t :: itemLists? rest

def readList? : Tree → Option (List Condition)
  | .array items => readAll? items
  | _ => none

def readAll? : List Tree → Option (List Condition)
  | [] => some []
  | t :: rest =>
    match read? true t, readAll? rest with
    | some c, some cs => some (c :: cs)
    | _, _ => none

end

def ofTree? (t : Tree) : Option Condition :=
  match t.value? with
  | some _ => read? false t
  | none => none

end Condition

def Predicate.ofTree? (t : Tree) : Option Predicate := do
  match ← t.fields? ["root", "action"] with
  | [root, action] =>
    some {
      root := ← Tree.required Condition.ofTree? root
      action := ← Tree.required PredicateAction.ofTree? action }
  | _ => none

/-- The predicate inside an eligibility definition. -/
def Predicate.ofDefinition? (t : Tree) : Option Predicate := do
  match ← t.fields? ["predicate"] with
  | [predicate] => Tree.required Predicate.ofTree? predicate
  | _ => none

def StoredUsage.ofTree? (t : Tree) : Option StoredUsage := do
  match ← t.fields? ["id", "optional", "addressCorrectionEnabled"] with
  | [id, optional, addressCorrection] =>
    some {
      id := ← Tree.required Tree.word? id
      optional := ← Tree.defaulted false Tree.flag? optional
      addressCorrection := ← Tree.defaulted false Tree.flag? addressCorrection }
  | _ => none

def StoredBlock.ofTree? (t : Tree) : Option StoredBlock := do
  match ← t.fields? ["id", "name", "description", "enumeratorId", "isEnumerator", "questions",
      "visibilityPredicate", "eligibilityDefinition"] with
  | [id, name, description, enumerator, isEnumerator, questions, visibility, eligibility] =>
    some {
      id := ← Tree.required Tree.word? id
      name := ← Tree.required Tree.string? name
      description := ← Tree.defaulted "" Tree.string? description
      enumerator := ← Tree.optional Tree.word? enumerator
      isEnumerator := ← Tree.defaulted false Tree.flag? isEnumerator
      questions := ← Tree.defaulted [] (Tree.list? StoredUsage.ofTree?) questions
      visibility := ← Tree.optional Predicate.ofTree? visibility
      eligibility := ← Tree.optional Predicate.ofDefinition? eligibility }
  | _ => none

def StoredProgram.ofTree? (t : Tree) : Option StoredProgram := do
  match ← t.fields? ["id", "adminName", "adminDescription", "externalLink", "localizedName",
      "localizedDescription", "programType", "eligibilityIsGating", "blockDefinitions"] with
  | [id, adminName, adminDescription, externalLink, localizedName, localizedDescription, type,
      eligibilityIsGating, blocks] =>
    let details : Details := {
      id := ← Tree.required Tree.word? id
      adminName := ← Tree.required Tree.string? adminName
      adminDescription := ← Tree.defaulted "" Tree.string? adminDescription
      externalLink := ← Tree.defaulted "" Tree.string? externalLink
      localizedName := ← Tree.defaulted ∅ Tree.texts? localizedName
      localizedDescription := ← Tree.defaulted ∅ Tree.texts? localizedDescription
      type := ← Tree.defaulted .standard ProgramType.ofTree? type
      eligibilityIsGating := ← Tree.defaulted false Tree.flag? eligibilityIsGating }
    let blocks ← Tree.required (Tree.list? StoredBlock.ofTree?) blocks
    some ⟨details, blocks⟩
  | _ => none

def StoredProgram.ofJson? (j : Json) : Option StoredProgram := ofTree? (Tree.ofJson j)

def Predicate.ofText? (text : String) : Option Predicate := (Tree.ofText? text).bind ofTree?

def StoredBlock.ofText? (text : String) : Option StoredBlock := (Tree.ofText? text).bind ofTree?

/-- The questions of a catalog text. -/
def Question.listOfText? (text : String) : Option (List Question) :=
  (Tree.ofText? text).bind (Tree.list? Question.ofTree?)

end FormProgram
