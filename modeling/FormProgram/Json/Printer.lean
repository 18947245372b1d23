/-
JSON documents as text: without any blanks, or over several lines with two blanks a level. Both
write the same tokens; only the blanks between them differ.
-/
import FormProgram.Json.Basic
import FormProgram.Json.Text

set_option autoImplicit false

namespace FormProgram.Json

/-- The digits, point, sign and exponent of a number. -/
def Number.chars (n : Number) : List Char := n.literal.chars

mutual

def compactChars : Json → List Char
  | .null => ['n', 'u', 'l', 'l']
  | .bool true => ['t', 'r', 'u', 'e']
  | .bool false => ['f', 'a', 'l', 's', 'e']
  | .number n => n.chars
  | .string s => Text.quote s
  | .array [] => ['[', ']']
  | .array (j :: rest) => '[' :: (compactChars j ++ compactItems rest)
  | .object [] => ['{', '}']
  | .object ((name, j) :: rest) =>
    '{' :: (Text.quote name ++ ':' :: (compactChars j ++ compactMembers rest))

/-- The items after the first, up to the closing bracket. -/
def compactItems : List Json → List Char
  | [] => [']']
  | j :: rest => ',' :: (compactChars j ++ compactItems rest)

/-- The members after the first, up to the closing brace. -/
def compactMembers : List (String × Json) → List Char
  | [] => ['}']
  | (name, j) :: rest => ',' :: (Text.quote name ++ ':' :: (compactChars j ++ compactMembers rest))

end

def compact (j : Json) : String := String.ofList j.compactChars

/-- A new line at a level. -/
def lineBreak (level : Nat) : List Char := '\n' :: List.replicate (2 * level) ' '

mutual

def prettyChars (level : Nat) : Json → List Char
  | .null => ['n', 'u', 'l', 'l']
  | .bool true => ['t', 'r', 'u', 'e']
  | .bool false => ['f', 'a', 'l', 's', 'e']
  | .number n => n.chars
  | .string s => Text.quote s
  | .array [] => ['[', ']']
  | .array (j :: rest) =>
    '[' :: (lineBreak (level + 1) ++ (prettyChars (level + 1) j ++ prettyItems level rest))
  | .object [] => ['{', '}']
  | .object ((name, j) :: rest) =>
    '{' :: (lineBreak (level + 1) ++ (Text.quote name ++ ':' :: ' ' ::
      (prettyChars (level + 1) j ++ prettyMembers level rest)))

def prettyItems (level : Nat) : List Json → List Char
  | [] => lineBreak level ++ [']']
  | j :: rest =>
    ',' :: (lineBreak (level + 1) ++ (prettyChars (level + 1) j ++ prettyItems level rest))

def prettyMembers (level : Nat) : List (String × Json) → List Char
  | [] => lineBreak level ++ ['}']
  | (name, j) :: rest =>
    ',' :: (lineBreak (level + 1) ++ (Text.quote name ++ ':' :: ' ' ::
      (prettyChars (level + 1) j ++ prettyMembers level rest)))

end

def pretty (j : Json) : String := String.ofList (j.prettyChars 0)

end FormProgram.Json
