/-
Questions of the catalog, and their use in a block.
-/
import FormProgram.Sorted.Set

set_option autoImplicit false

namespace FormProgram

abbrev QuestionId := UInt64

inductive QuestionType where
  | address | checkbox | currency | date | dropdown | email | enumerator | fileUpload
  | id | name | number | phone | radioButton | static | text | yesNo
deriving DecidableEq, Repr, Inhabited

namespace QuestionType

def label : QuestionType → String
  | .address => "address"
  | .checkbox => "checkbox"
  | .currency => "currency"
  | .date => "date"
  | .dropdown => "dropdown"
  | .email => "email"
  | .enumerator => "enumerator"
  | .fileUpload => "file_upload"
  | .id => "id"
  | .name => "name"
  | .number => "number"
  | .phone => "phone"
  | .radioButton => "radio_button"
  | .static => "static"
  | .text => "text"
  | .yesNo => "yes_no"

def all : List QuestionType :=
  [.address, .checkbox, .currency, .date, .dropdown, .email, .enumerator, .fileUpload,
    .id, .name, .number, .phone, .radioButton, .static, .text, .yesNo]

end QuestionType

/-- A question as the catalog defines it, apart from any program. -/
structure Question where
  id : QuestionId
  name : String
  type : QuestionType
  /-- Locales the question is fully translated into. -/
  locales : SortedSet String := ∅
  /-- What the answer tells about the primary applicant. -/
  applicantTags : SortedSet String := ∅
deriving DecidableEq, Inhabited

/-- A question as one block of one program uses it. -/
structure Usage where
  question : Question
  optional : Bool := false
  /-- Only means something for an address. -/
  addressCorrection : Bool := false
deriving DecidableEq, Inhabited

namespace Usage

def id (u : Usage) : QuestionId := u.question.id

/-- Predicates may compare the answer. An address can be compared only in its corrected form. -/
def isReadable (u : Usage) : Bool :=
  match u.question.type with
  | .enumerator | .fileUpload | .static | .phone => false
  | .address => u.addressCorrection
  | _ => true

end Usage

end FormProgram
