/-
Unquoted TOML values: truth values, integers, floating-point numbers, dates and times.

A setting is a string or a truth value, so of the others only their being well formed counts. An
integer must fit 128 bits, signed or unsigned, and a floating-point number the doubles.
-/
import FormProgram.Decimal.Natural
import FormProgram.Hexadecimal

set_option autoImplicit false

namespace FormProgram.Toml

inductive Value where
  | string (s : String)
  | boolean (b : Bool)
  /-- A number, date, time, array or inline table. -/
  | other
deriving DecidableEq, Repr

namespace Scalar

/-- Digits, with single underscores between them left out. -/
def digits? (isDigit : Char → Bool) : List Char → Option (List Char)
  | [] => none
  | [c] => if isDigit c then some [c] else none
  | c :: '_' :: rest => if isDigit c then (digits? isDigit rest).map (c :: ·) else none
  | c :: rest => if isDigit c then (digits? isDigit rest).map (c :: ·) else none

/-- Decimal digits without a zero before others. -/
def whole? (cs : List Char) : Option (List Char) :=
  match digits? Char.isDigit cs with
  | some ('0' :: _ :: _) => none
  | ds => ds

/-- Whether there is a minus sign, and what follows the sign. -/
def sign : List Char → Bool × List Char
  | '-' :: cs => (true, cs)
  | '+' :: cs => (false, cs)
  | cs => (false, cs)

def hexValue (ds : List Char) : Nat := (Hexadecimal.value? ds).getD 0

/-- The value of digits below eight, or below two. -/
def baseValue (base : Nat) (ds : List Char) : Nat :=
  ds.foldl (fun n c => base * n + Decimal.digitValue c) 0

def integer? : List Char → Option Int
  | '0' :: 'x' :: cs =>
    (digits? (fun c => (Hexadecimal.digitValue? c).isSome) cs).map fun ds => hexValue ds
  | '0' :: 'o' :: cs => (digits? (fun c => '0' ≤ c && c ≤ '7') cs).map fun ds => baseValue 8 ds
  | '0' :: 'b' :: cs => (digits? (fun c => c = '0' || c = '1') cs).map fun ds => baseValue 2 ds
  | cs =>
    let (negative, cs) := sign cs
    (whole? cs).map fun ds => if negative then -(Decimal.value ds : Int) else Decimal.value ds

def fits (n : Int) : Bool :=
  -0x80000000000000000000000000000000 ≤ n && n < 0x100000000000000000000000000000000

/-- From here on a number rounds to infinity. -/
def doubleLimit : Nat := (1 <<< 1024) - (1 <<< 970)

/-- The digits as an integer, shifted by a power of ten, stay below the limit. The limit has 309
digits, so the power is only taken where the count of digits leaves the answer open. -/
def belowLimit (ds : List Char) (shift : Int) : Bool :=
  let n := Decimal.value ds
  let size := (Decimal.chars n).length + shift
  if n = 0 || size < 309 then true
  else if 309 < size then false
  else if shift < 0 then n < doubleLimit * Decimal.tenTo (-shift).toNat
  else n * Decimal.tenTo shift.toNat < doubleLimit

def exponent? (cs : List Char) : Option Int :=
  let (negative, cs) := sign cs
  (digits? Char.isDigit cs).map fun ds =>
    if negative then -(Decimal.value ds : Int) else Decimal.value ds

def isFloat (cs : List Char) : Bool :=
  let (_, cs) := sign cs
  if cs = ['i', 'n', 'f'] || cs = ['n', 'a', 'n'] then true
  else
    let isMark := fun c => c = 'e' || c = 'E'
    let mantissa := cs.takeWhile (!isMark ·)
    let whole := mantissa.takeWhile (· ≠ '.')
    let fraction := match mantissa.dropWhile (· ≠ '.') with
      | [] => some []
      | _ :: ds => digits? Char.isDigit ds
    let exponent := match cs.dropWhile (!isMark ·) with
      | [] => some 0
      | _ :: e => exponent? e
    match whole? whole, fraction, exponent with
    | some w, some f, some e => whole.length < cs.length && belowLimit (w ++ f) (e - f.length)
    | _, _, _ => false

/-- A number of `width` digits between two bounds, and what follows it. -/
def field? (width least most : Nat) (cs : List Char) : Option (Nat × List Char) :=
  let ds := cs.take width
  let n := Decimal.value ds
  if ds.length = width && ds.all Char.isDigit && least ≤ n && n ≤ most then
    some (n, cs.drop width)
  else none

def after? (c : Char) : List Char → Option (List Char)
  | d :: rest => if d = c then some rest else none
  | [] => none

def isLeapYear (year : Nat) : Bool := year % 4 = 0 && (year % 100 ≠ 0 || year % 400 = 0)

def daysIn (year month : Nat) : Nat :=
  if month = 2 then if isLeapYear year then 29 else 28
  else if [4, 6, 9, 11].contains month then 30
  else 31

def date? (cs : List Char) : Option (List Char) := do
  let (year, cs) ← field? 4 0 9999 cs
  let (month, cs) ← field? 2 1 12 (← after? '-' cs)
  let (_, cs) ← field? 2 1 (daysIn year month) (← after? '-' cs)
  some cs

/-- What follows a time of day. Seconds may be left off, and have a fraction. -/
def time? (cs : List Char) : Option (List Char) := do
  let (_, cs) ← field? 2 0 23 cs
  let (_, cs) ← field? 2 0 59 (← after? ':' cs)
  match cs with
  | ':' :: cs =>
    let (_, cs) ← field? 2 0 60 cs
    match cs with
    | '.' :: cs =>
      let rest := cs.dropWhile Char.isDigit
      if rest.length < cs.length then some rest else none
    | cs => some cs
  | cs => some cs

/-- The offset from universal time, or none. -/
def isOffset : List Char → Bool
  | [] => true
  | ['Z'] | ['z'] => true
  | c :: cs =>
    let ends : Option (List Char) := do
      let (_, cs) ← field? 2 0 23 cs
      let (_, cs) ← field? 2 0 59 (← after? ':' cs)
      some cs
    (c = '+' || c = '-') && ends == some []

def isMoment (cs : List Char) : Bool :=
  match date? cs with
  | some [] => true
  | some (c :: cs) =>
    (c = 'T' || c = 't' || c = ' ') && ((time? cs).map isOffset).getD false
  | none => time? cs == some []

def value? (cs : List Char) : Option Value :=
  if cs = ['t', 'r', 'u', 'e'] then some (.boolean true)
  else if cs = ['f', 'a', 'l', 's', 'e'] then some (.boolean false)
  else if ((integer? cs).map fits).getD false || isFloat cs || isMoment cs then some .other
  else none

end Scalar

end FormProgram.Toml
