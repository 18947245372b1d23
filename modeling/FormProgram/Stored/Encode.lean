/-
The stored form as JSON documents. Fields stand in a fixed order; an absent enumerator or predicate
is left out, everything else is written even when it has its default.
-/
import FormProgram.Json.Printer
import FormProgram.Stored.Basic

set_option autoImplicit false

namespace FormProgram

def Question.toJson (q : Question) : Json :=
  .object [("id", .word q.id), ("name", .string q.name), ("questionType", .string q.type.label),
    ("supportedLocales", .strings q.locales.toList),
    ("primaryApplicantInfoTags", .strings q.applicantTags.toList)]

/-- The members of a leaf after its tag. -/
def Comparison.members (c : Comparison) : List (String × Json) :=
  [("questionId", .word c.question), ("scalar", .string c.scalar),
    ("operator", .string c.operator.label), ("value", c.value.json)]

namespace Condition

mutual

def toJson : Condition → Json
  | .leaf c => .object (("node", .string "leaf") :: c.members)
  | .all children => .object [("node", .string "and"), ("children", .array (toJsons children))]
  | .any children => .object [("node", .string "or"), ("children", .array (toJsons children))]

def toJsons : List Condition → List Json
  | [] => []
  | c :: rest => c.toJson :: toJsons rest

end

end Condition

def Predicate.toJson (p : Predicate) : Json :=
  .object [("root", p.root.toJson), ("action", .string p.action.label)]

/-- A member that is left out when there is no value. -/
def Json.present {α : Type} (name : String) (write : α → Json) : Option α → List (String × Json)
  | some a => [(name, write a)]
  | none => []

def StoredUsage.toJson (u : StoredUsage) : Json :=
  .object [("id", .word u.id), ("optional", .bool u.optional),
    ("addressCorrectionEnabled", .bool u.addressCorrection)]

def StoredBlock.toJson (b : StoredBlock) : Json :=
  .object ([("id", .word b.id), ("name", .string b.name), ("description", .string b.description)]
    ++ Json.present "enumeratorId" .word b.enumerator
    ++ [("isEnumerator", .bool b.isEnumerator), ("questions", .array (b.questions.map (·.toJson)))]
    ++ Json.present "visibilityPredicate" Predicate.toJson b.visibility
    ++ Json.present "eligibilityDefinition" (fun p => .object [("predicate", p.toJson)])
      b.eligibility)

/-- Localized texts, by locale. -/
def Json.texts (m : SortedMap String String) : Json :=
  .object (m.entries.map fun (locale, text) => (locale, .string text))

def Details.members (d : Details) : List (String × Json) :=
  [("id", .word d.id), ("adminName", .string d.adminName),
    ("adminDescription", .string d.adminDescription), ("externalLink", .string d.externalLink),
    ("localizedName", .texts d.localizedName),
    ("localizedDescription", .texts d.localizedDescription),
    ("programType", .string d.type.label), ("eligibilityIsGating", .bool d.eligibilityIsGating)]

def StoredProgram.toJson (p : StoredProgram) : Json :=
  .object (p.details.members ++ [("blockDefinitions", .array (p.blocks.map (·.toJson)))])

end FormProgram
