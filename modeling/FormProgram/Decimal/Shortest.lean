/-
The shortest decimal that reads back as a given binary number.

A binary floating-point number of magnitude `m * 2^q` stands for every real nearer to it than to
its neighbours, ends included when `m` is even. `shortest` looks for a multiple of a power of ten in
that interval, on coarser grids first, and takes the multiple nearest to the number on the first
grid that has one. All arithmetic is on natural numbers: a real is a fraction `num / den`.
-/
import FormProgram.Decimal.Natural

set_option autoImplicit false

namespace FormProgram.Decimal

structure Scientific where
  coefficient : Nat
  exponent : Int
deriving DecidableEq, Repr, Inhabited

/-- A positive binary number and the reals that round to it: from `low / den` over `mid / den` to
`high / den`, the ends among them if `closed`. -/
structure Interval where
  low : Nat
  mid : Nat
  high : Nat
  den : Nat
  closed : Bool
deriving Repr

namespace Interval

/-- The interval of `m * 2^q`. `narrow`: the neighbour below is only half as far away as the one
above, as it is at a power of two. -/
def ofBinary (m : Nat) (q : Int) (narrow : Bool) : Interval :=
  let scale := 1 <<< (q - 2).toNat
  { low := (4 * m - if narrow then 1 else 2) * scale
    mid := 4 * m * scale
    high := (4 * m + 2) * scale
    den := 1 <<< (2 - q).toNat
    closed := m % 2 == 0 }

def contains (i : Interval) (c : Nat) (e : Int) : Bool :=
  let x := c * tenTo e.toNat * i.den
  let unit := tenTo (-e).toNat
  if i.closed then i.low * unit ≤ x && x ≤ i.high * unit
  else i.low * unit < x && x < i.high * unit

def floorAt (i : Interval) (e : Int) : Nat :=
  i.mid * tenTo (-e).toNat / (i.den * tenTo e.toNat)

/-- Of `c` and `c + 1` units of `10^e` with the number between them, the nearer to it; of two
equally near the even one. -/
def nearer (i : Interval) (c : Nat) (e : Int) : Nat :=
  let below := 2 * i.mid * tenTo (-e).toNat
  let half := (2 * c + 1) * tenTo e.toNat * i.den
  if below < half || (below == half && c % 2 == 0) then c else c + 1

def onGrid? (i : Interval) (e : Int) : Option Nat :=
  let c := i.floorAt e
  match i.contains c e, i.contains (c + 1) e with
  | true, true => some (i.nearer c e)
  | true, false => some c
  | false, true => some (c + 1)
  | false, false => none

def leadingExponent (i : Interval) : Int :=
  if i.den ≤ i.mid then ((chars (i.mid / i.den)).length : Int) - 1
  else
    match (List.range 400).find? fun k => i.den ≤ i.mid * tenTo (k + 1) with
    | some k => -((k : Int) + 1)
    | none => -400

def shortest (i : Interval) : Scientific :=
  let lead := i.leadingExponent
  -- Seventeen digits are enough for a double, so the second case never arises for one.
  match (List.range 20).findSome? fun (k : Nat) => (i.onGrid? (lead - k)).map fun c => (c, lead - k) with
  | some (c, e) => ⟨c, e⟩
  | none => ⟨i.floorAt (lead - 20), lead - 20⟩

end Interval

def Scientific.trim (s : Scientific) : Scientific :=
  if h : s.coefficient ≠ 0 ∧ s.coefficient % 10 = 0 then
    Scientific.trim ⟨s.coefficient / 10, s.exponent + 1⟩
  else s
termination_by s.coefficient
decreasing_by omega

/-- The magnitude of a finite double as `m * 2^q`, and whether it is a power of two with a nearer
neighbour below. -/
def binaryOfBits (bits : UInt64) : Nat × Int × Bool :=
  let fraction := (bits &&& 0xFFFFFFFFFFFFF).toNat
  let biased := ((bits >>> 52) &&& 0x7FF).toNat
  if biased = 0 then (fraction, -1074, false)
  else (0x10000000000000 + fraction, Int.ofNat biased - 1075, fraction == 0 && biased != 1)

def shortest (x : Float) : Scientific :=
  let (m, q, narrow) := binaryOfBits x.toBits
  if m = 0 then ⟨0, 0⟩ else (Interval.shortest (.ofBinary m q narrow)).trim

end FormProgram.Decimal
