/-
Natural numbers in decimal, and 64-bit words read back from it.

`value_chars`: the digits written for a number read as that number. `word?` accepts an optional
single plus sign and then ASCII digits only, leading zeros included, up to `2^64 - 1`.
-/
set_option autoImplicit false

namespace FormProgram.Decimal

/-- The digit of a number below ten. -/
def digitChar (d : Nat) : Char := Char.ofNat (48 + d)

/-- What a digit is worth. -/
def digitValue (c : Char) : Nat := c.toNat - 48

/-- The decimal digits of a number, without leading zeros. -/
def chars (n : Nat) : List Char :=
  if n < 10 then [digitChar n] else chars (n / 10) ++ [digitChar (n % 10)]
termination_by n

def text (n : Nat) : String := String.ofList (chars n)

/-- The number a row of digits stands for. -/
def value (ds : List Char) : Nat := ds.foldl (fun n c => 10 * n + digitValue c) 0

/-- The words are the numbers below `2^64`. -/
def wordLimit : Nat := UInt64.size

/-- The `n`-th power of ten. -/
def tenTo (n : Nat) : Nat := Nat.pow 10 n

/-- One or more digits that stand for a word. -/
def digitsWord? (ds : List Char) : Option UInt64 :=
  if ds.isEmpty || !ds.all Char.isDigit then none
  else if value ds < wordLimit then some (UInt64.ofNat (value ds))
  else none

/-- Digits that stand for a word, with at most one plus sign before them. -/
def word? : List Char → Option UInt64
  | '+' :: ds => digitsWord? ds
  | ds => digitsWord? ds

theorem digitValue_digitChar {d : Nat} (h : d < 10) : digitValue (digitChar d) = d := by
  have all : ∀ d, d < 10 → digitValue (digitChar d) = d := by decide
  exact all d h

theorem isDigit_digitChar {d : Nat} (h : d < 10) : (digitChar d).isDigit = true := by
  have all : ∀ d, d < 10 → (digitChar d).isDigit = true := by decide
  exact all d h

theorem value_append (ds : List Char) (c : Char) :
    value (ds ++ [c]) = 10 * value ds + digitValue c := by
  simp [value]

theorem value_chars (n : Nat) : value (chars n) = n := by
  rw [chars]
  split
  · simp [value, digitValue_digitChar ‹_›]
  · rw [value_append, value_chars (n / 10), digitValue_digitChar (by omega)]
    omega
termination_by n

theorem isDigit_of_mem_chars (n : Nat) : ∀ c ∈ chars n, c.isDigit = true := by
  rw [chars]
  split
  · simpa using isDigit_digitChar ‹_›
  · intro c hc
    rcases List.mem_append.1 hc with hc | hc
    · exact isDigit_of_mem_chars (n / 10) c hc
    · rw [List.mem_singleton.1 hc]; exact isDigit_digitChar (by omega)
termination_by n

theorem chars_ne_nil (n : Nat) : chars n ≠ [] := by
  rw [chars]; split <;> simp

end FormProgram.Decimal
