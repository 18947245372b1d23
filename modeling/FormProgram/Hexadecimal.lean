/-
Hexadecimal digits, in either case, and the numbers they spell.
-/
set_option autoImplicit false

namespace FormProgram.Hexadecimal

def digitValue? (c : Char) : Option Nat :=
  if c.isDigit then some (c.toNat - 48)
  else if 'a' ≤ c ∧ c ≤ 'f' then some (c.toNat - 87)
  else if 'A' ≤ c ∧ c ≤ 'F' then some (c.toNat - 55)
  else none

/-- The digit of a number below 16, letters small. -/
def smallDigit (n : Nat) : Char := if n < 10 then Char.ofNat (48 + n) else Char.ofNat (87 + n)

/-- The digit of a number below 16, letters large. -/
def largeDigit (n : Nat) : Char := if n < 10 then Char.ofNat (48 + n) else Char.ofNat (55 + n)

def value? (ds : List Char) : Option Nat :=
  (ds.mapM digitValue?).map fun values => values.foldl (fun n d => 16 * n + d) 0

end FormProgram.Hexadecimal
