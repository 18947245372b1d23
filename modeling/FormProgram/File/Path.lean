/-
Paths as text, taken apart without looking at any file.

A path is a head and parts between slashes. The head is the root `/` or a dot that the path starts
with; empty parts and further dots say nothing, but they stay in the text (`sub/../p` is not
shortened).
-/
set_option autoImplicit false

namespace FormProgram.Path

def parts : List Char → List (List Char)
  | [] => [[]]
  | c :: cs =>
    if c = '/' then [] :: parts cs
    else
      match parts cs with
      | [] => [[c]]
      | p :: ps => (c :: p) :: ps

def unparts : List (List Char) → List Char
  | [] => []
  | [p] => p
  | p :: ps => p ++ '/' :: unparts ps

theorem parts_ne_nil (cs : List Char) : parts cs ≠ [] := by
  cases cs with
  | nil => simp [parts]
  | cons c cs =>
    unfold parts
    split
    · simp
    · split <;> simp

theorem unparts_parts (cs : List Char) : unparts (parts cs) = cs := by
  induction cs with
  | nil => rfl
  | cons c cs ih =>
    unfold parts
    split
    · rename_i h
      cases hp : parts cs with
      | nil => exact absurd hp (parts_ne_nil cs)
      | cons p ps => rw [hp] at ih; simp [unparts, ih, h]
    · cases hp : parts cs with
      | nil => exact absurd hp (parts_ne_nil cs)
      | cons p ps =>
        rw [hp] at ih
        cases ps with
        | nil => simpa [unparts] using ih
        | cons q qs => simpa [unparts] using ih

def isIdle (p : List Char) : Bool := p = [] || p = ['.']

def isAbsolute (path : String) : Bool := path.toList.head? = some '/'

def names (path : String) : List String := (parts path.toList).map String.ofList

/-- A relative path goes below the base; an absolute one replaces it. -/
def join (base path : String) : String :=
  if isAbsolute path || base.isEmpty then path
  else if base.toList.getLast? = some '/' then base ++ path
  else base ++ "/" ++ path

def divide : List Char → List Char × List Char
  | '/' :: rest => (['/'], rest)
  | ['.'] => (['.'], [])
  | '.' :: '/' :: rest => (['.'], '/' :: rest)
  | cs => ([], cs)

/-- The path up to the last part that says something; none for a bare root and for no path. -/
def parent? (path : String) : Option String :=
  let (head, body) := divide path.toList
  match (parts body).reverse.dropWhile isIdle with
  | [] => if head = ['.'] then some "" else none
  | _ :: before => some (String.ofList (head ++ unparts (before.dropWhile isIdle).reverse))

/-- A name up to its last dot. A leading dot is part of the name. -/
def stem (name : List Char) : List Char :=
  match name.reverse.dropWhile (· ≠ '.') with
  | [] | ['.'] => name
  | _ :: before => before.reverse

/-- The path with another extension on its last name, or a first one. The old extension goes first:
where that leaves two dots at the end of the path there is no name any more, and they are all. -/
def withExtension (path extension : String) : String :=
  let (head, body) := divide path.toList
  match (parts body).reverse.dropWhile isIdle with
  | [] | ['.', '.'] :: _ => path
  | name :: before =>
    if stem name = ['.'] && (parts body).getLast? = some name then
      String.ofList (head ++ unparts (['.', '.'] :: before).reverse)
    else String.ofList (head ++ unparts (stem name :: before).reverse ++ '.' :: extension.toList)

end FormProgram.Path
