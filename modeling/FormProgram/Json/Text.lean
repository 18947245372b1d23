/-
Strings of JSON text. Writing escapes the quote, the backslash and the control characters below
U+0020; reading also accepts the other escapes, and joins two escapes that spell the halves of a
surrogate pair.
-/
import FormProgram.Hexadecimal

set_option autoImplicit false

namespace FormProgram.Json.Text

def escape (c : Char) : List Char :=
  if c = '"' then ['\\', '"']
  else if c = '\\' then ['\\', '\\']
  else if c = '\x08' then ['\\', 'b']
  else if c = '\x0c' then ['\\', 'f']
  else if c = '\n' then ['\\', 'n']
  else if c = '\r' then ['\\', 'r']
  else if c = '\t' then ['\\', 't']
  else if c.toNat < 0x20 then
    ['\\', 'u', '0', '0', Hexadecimal.smallDigit (c.toNat / 16),
      Hexadecimal.smallDigit (c.toNat % 16)]
  else [c]

def quote (s : String) : List Char := '"' :: (s.toList.flatMap escape ++ ['"'])

/-- A character, or one half of a surrogate pair. -/
inductive Part where
  | char (c : Char)
  | surrogate (n : Nat)
deriving DecidableEq, Repr

def Part.ofUnit (n : Nat) : Part :=
  if 0xD800 ≤ n ∧ n < 0xE000 then .surrogate n else .char (Char.ofNat n)

def unit? (a b c d : Char) : Option Nat := Hexadecimal.value? [a, b, c, d]

def unescape? (e : Char) : Option Char :=
  if e = '"' then some '"'
  else if e = '\\' then some '\\'
  else if e = '/' then some '/'
  else if e = 'b' then some '\x08'
  else if e = 'f' then some '\x0c'
  else if e = 'n' then some '\n'
  else if e = 'r' then some '\r'
  else if e = 't' then some '\t'
  else none

/-- The rest of a string after its opening quote, and what follows the closing one. -/
def scanBody : List Char → Option (List Part × List Char)
  | [] => none
  | c :: rest =>
    if c = '"' then some ([], rest)
    else if c = '\\' then
      match rest with
      | [] => none
      | e :: rest =>
        if e = 'u' then
          match rest with
          | a :: b :: c :: d :: rest =>
            match unit? a b c d with
            | none => none
            | some n => (scanBody rest).map fun (ps, r) => (.ofUnit n :: ps, r)
          | _ => none
        else
          match unescape? e with
          | none => none
          | some c => (scanBody rest).map fun (ps, r) => (.char c :: ps, r)
    else if c.toNat < 0x20 then none
    else (scanBody rest).map fun (ps, r) => (.char c :: ps, r)

/-- Joins the halves of surrogate pairs; none if one stands alone. -/
def join? : List Part → Option (List Char)
  | [] => some []
  | .char c :: rest => (join? rest).map (c :: ·)
  | .surrogate high :: .surrogate low :: rest =>
    if high < 0xDC00 ∧ 0xDC00 ≤ low then
      (join? rest).map (Char.ofNat (0x10000 + (high - 0xD800) * 0x400 + (low - 0xDC00)) :: ·)
    else none
  | .surrogate _ :: _ => none

theorem length_of_scanBody {cs : List Char} {ps : List Part} {r : List Char}
    (h : scanBody cs = some (ps, r)) : r.length < cs.length := by
  fun_induction scanBody cs generalizing ps r with
  | case2 rest =>
    cases h; simp
  | case5 _ _ _ _ _ _ _ _ ih | case8 _ _ _ _ _ _ ih | case10 _ _ _ _ _ ih =>
    obtain ⟨⟨ps', r'⟩, h', heq⟩ := Option.map_eq_some_iff.1 h
    cases heq
    have := ih h'
    simp only [List.length_cons]; omega
  | _ => simp at h

end FormProgram.Json.Text
