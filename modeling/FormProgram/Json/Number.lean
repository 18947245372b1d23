/-
Numbers of JSON text: how they are spelled, and what they stand for.

A literal without fraction and exponent that fits a 64-bit word, signed or unsigned, is an integer;
every other literal, `-0` among them, is a double. `Literal.value?` fails when the magnitude is
beyond the doubles. A double is taken from a literal in two roundings: its leading digits, as many as
fit a word, and then one multiplication or division by a power of ten (`scale?`); digits beyond
the word are dropped.
-/
import FormProgram.Decimal.Shortest

set_option autoImplicit false

namespace FormProgram.Json

open Decimal

structure Finite where
  val : Float
  isFinite : val.isFinite = true
deriving DecidableEq

instance : Inhabited Finite := ⟨⟨0.0, by decide⟩⟩

def Finite.ofFloat? (x : Float) : Option Finite :=
  if h : x.isFinite = true then some ⟨x, h⟩ else none

inductive Number where
  | natural (n : UInt64)
  /-- The integer `-(m + 1)`. -/
  | negative (m : Fin 0x8000000000000000)
  | float (x : Finite)
deriving DecidableEq, Inhabited

/-- Doubles are compared as numbers: the two zeros are equal. An integer never equals a double. -/
instance : BEq Number where
  beq
    | .natural a, .natural b => a == b
    | .negative a, .negative b => a == b
    | .float x, .float y => x.val == y.val
    | _, _ => false

structure Exponent where
  negative : Bool
  digits : List Char
deriving DecidableEq, Repr

/-- A number as it is spelled. No fraction digits: no decimal point. -/
structure Literal where
  negative : Bool
  whole : List Char
  fraction : List Char
  exponent : Option Exponent
deriving DecidableEq, Repr

namespace Literal

def chars (l : Literal) : List Char :=
  (if l.negative then ['-'] else []) ++ l.whole
    ++ (if l.fraction.isEmpty then [] else '.' :: l.fraction)
    ++ match l.exponent with
      | none => []
      | some e => 'e' :: (if e.negative then '-' else '+') :: e.digits

/-- The digits before the point: a single zero, or any row that starts with another digit. -/
def scanWhole : List Char → Option (List Char × List Char)
  | [] => none
  | c :: rest =>
    if c = '0' then some (['0'], rest)
    else if c.isDigit then some (c :: rest.takeWhile Char.isDigit, rest.dropWhile Char.isDigit)
    else none

/-- One digit or more. -/
def scanDigits (cs : List Char) : Option (List Char × List Char) :=
  let ds := cs.takeWhile Char.isDigit
  if ds.isEmpty then none else some (ds, cs.dropWhile Char.isDigit)

def scanFraction : List Char → Option (List Char × List Char)
  | [] => some ([], [])
  | c :: rest => if c = '.' then scanDigits rest else some ([], c :: rest)

def scanExponent : List Char → Option (Option Exponent × List Char)
  | [] => some (none, [])
  | c :: rest =>
    if c = 'e' ∨ c = 'E' then
      match rest with
      | [] => none
      | s :: rest' =>
        if s = '-' then (scanDigits rest').map fun (ds, r) => (some ⟨true, ds⟩, r)
        else if s = '+' then (scanDigits rest').map fun (ds, r) => (some ⟨false, ds⟩, r)
        else (scanDigits rest).map fun (ds, r) => (some ⟨false, ds⟩, r)
    else some (none, c :: rest)

def scanUnsigned (negative : Bool) (cs : List Char) : Option (Literal × List Char) := do
  let (whole, cs) ← scanWhole cs
  let (fraction, cs) ← scanFraction cs
  let (exponent, cs) ← scanExponent cs
  some (⟨negative, whole, fraction, exponent⟩, cs)

/-- The number literal at the head of the text, and what follows it. -/
def scan : List Char → Option (Literal × List Char)
  | [] => none
  | c :: rest => if c = '-' then scanUnsigned true rest else scanUnsigned false (c :: rest)

/-- Takes digits into a coefficient as long as it stays a word. The second number counts the digits
taken; the rest are dropped. -/
def take (coefficient : Nat) : List Char → Nat × Nat
  | [] => (coefficient, 0)
  | c :: rest =>
    let next := 10 * coefficient + digitValue c
    if next < wordLimit then
      let (last, taken) := take next rest
      (last, taken + 1)
    else (coefficient, 0)

/-- The value of exponent digits; none when it is `2^31` or more. -/
def smallExponent? (ds : List Char) : Option Nat :=
  let n := value ds
  if n < 0x80000000 then some n else none

def powerOfTen (n : Nat) : Float := Float.ofScientific 1 false n

/-- `x / 10^n`, dividing by `10^308` at most at a time. -/
def divide (x : Float) (n : Nat) : Float :=
  if h : n ≤ 308 then x / powerOfTen n
  else if x == 0.0 then x
  else divide (x / powerOfTen 308) (n - 308)
termination_by n

/-- `coefficient * 10^exponent`, unless it is beyond the doubles. -/
def scale? (coefficient : Nat) (exponent : Int) : Option Float :=
  let x := (UInt64.ofNat coefficient).toFloat
  match exponent with
  | .ofNat n =>
    if n ≤ 308 then
      let y := x * powerOfTen n
      if y.isInf then none else some y
    else if x == 0.0 then some x
    else none
  | .negSucc n => some (divide x (n + 1))

/-- The literal as a double. -/
def float? (l : Literal) : Option Number := do
  let (whole, taken) := take 0 l.whole
  let (coefficient, places) := take whole l.fraction
  let shift : Int := ((l.whole.length - taken : Nat) : Int) - places
  let x ←
    match l.exponent with
    | none => scale? coefficient shift
    | some e =>
      match smallExponent? e.digits with
      | some n => scale? coefficient (shift + if e.negative then -(n : Int) else n)
      | none => if coefficient ≠ 0 ∧ ¬ e.negative then none else some 0.0
  let x ← Finite.ofFloat? (if l.negative then -x else x)
  some (.float x)

/-- The literal as an integer, if it is spelled as one and is in range. -/
def integer? (l : Literal) : Option Number :=
  if !l.fraction.isEmpty || l.exponent.isSome then none
  else
    let n := value l.whole
    if l.negative then
      match n with
      | 0 => none
      | m + 1 => if h : m < 0x8000000000000000 then some (.negative ⟨m, h⟩) else none
    else if n < wordLimit then some (.natural (UInt64.ofNat n))
    else none

def value? (l : Literal) : Option Number :=
  match l.integer? with
  | some n => some n
  | none => l.float?

end Literal

/-- Which decimal exponents of the first digit are written with all places, without `e`. -/
structure FloatFormat where
  least : Int
  greatest : Int

/-- Doubles from `0.00001` up to sixteen digits before the point are written with all places. -/
def floatFormat : FloatFormat := ⟨-5, 15⟩

/-- A double from its digits. A whole number keeps one place after the point, except in
scientific form. -/
def FloatFormat.literal (format : FloatFormat) (negative : Bool) (s : Scientific) : Literal :=
  let digits := Decimal.chars s.coefficient
  let lead : Int := s.exponent + digits.length - 1
  if lead < format.least ∨ format.greatest < lead then
    ⟨negative, digits.take 1, digits.drop 1, some ⟨lead < 0, Decimal.chars lead.natAbs⟩⟩
  else if lead < 0 then
    ⟨negative, ['0'], List.replicate (lead.natAbs - 1) '0' ++ digits, none⟩
  else
    let places := lead.toNat + 1
    let fraction := digits.drop places
    ⟨negative, digits.take places ++ List.replicate (places - digits.length) '0',
      if fraction.isEmpty then ['0'] else fraction, none⟩

def Number.literal : Number → Literal
  | .natural n => ⟨false, Decimal.chars n.toNat, [], none⟩
  | .negative m => ⟨true, Decimal.chars (m.val + 1), [], none⟩
  | .float x => floatFormat.literal (x.val.toBits >>> 63 == 1) (Decimal.shortest x.val)

end FormProgram.Json
