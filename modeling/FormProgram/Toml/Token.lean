/-
TOML text as tokens.

`isClean` settles what holds everywhere: a carriage return stands only before a line feed, and of the
other control characters only the tab is allowed. Such a pair ends a line as the line feed alone does,
and a quoted text keeps it as it stands. What a token means depends on where it stands: `1.5` is one
number or two names.
-/
import FormProgram.Hexadecimal

set_option autoImplicit false

namespace FormProgram.Toml

/-- No control characters but tabs and line ends. -/
def isClean : List Char → Bool
  | [] => true
  | '\r' :: '\n' :: rest => isClean rest
  | c :: rest => (c = '\n' || c = '\t' || (0x20 ≤ c.toNat && c.toNat != 0x7F)) && isClean rest

def withoutMark : List Char → List Char
  | '\uFEFF' :: cs => cs
  | cs => cs

def isBlank (c : Char) : Bool := c = ' ' || c = '\t'

/-- A line end, or the first half of one. -/
def endsLine (c : Char) : Bool := c = '\n' || c = '\r'

def afterLineEnd : List Char → List Char
  | '\r' :: '\n' :: rest => rest
  | '\n' :: rest => rest
  | cs => cs

theorem length_of_afterLineEnd (cs : List Char) : (afterLineEnd cs).length ≤ cs.length := by
  unfold afterLineEnd
  split
  · simp only [List.length_cons]; omega
  · simp only [List.length_cons]; omega
  · exact Nat.le_refl _

def numbered? (digits : List Char) : Option Char := do
  let n ← Hexadecimal.value? digits
  if n.isValidChar then some (Char.ofNat n) else none

def unescape? (e : Char) : Option Char :=
  if e = '"' then some '"'
  else if e = '\\' then some '\\'
  else if e = 'b' then some '\x08'
  else if e = 'e' then some '\x1b'
  else if e = 'f' then some '\x0c'
  else if e = 'n' then some '\n'
  else if e = 'r' then some '\r'
  else if e = 't' then some '\t'
  else none

def scanEscape : List Char → Option (Char × List Char)
  | 'x' :: a :: b :: rest => (numbered? [a, b]).map (·, rest)
  | 'u' :: a :: b :: c :: d :: rest => (numbered? [a, b, c, d]).map (·, rest)
  | 'U' :: a :: b :: c :: d :: e :: f :: g :: h :: rest =>
    (numbered? [a, b, c, d, e, f, g, h]).map (·, rest)
  | e :: rest => (unescape? e).map (·, rest)
  | [] => none

theorem length_of_scanEscape {cs r : List Char} {c : Char} (h : scanEscape cs = some (c, r)) :
    r.length < cs.length := by
  unfold scanEscape at h
  split at h <;> simp only [Option.map_eq_some_iff, Prod.mk.injEq, reduceCtorEq] at h
  all_goals obtain ⟨_, _, _, rfl⟩ := h; simp only [List.length_cons]; omega

structure Style where
  quote : Char
  /-- Three quotes on either side, and line ends allowed between them. -/
  multiline : Bool
deriving DecidableEq, Repr

/-- A backslash at the end of a line joins it with what follows the blanks on the next ones. -/
inductive Joint where
  | none
  /-- Only blanks may come before the line end. -/
  | due
  /-- Blanks and line ends are left out. -/
  | open
deriving DecidableEq, Repr

def prepend (c : Char) (scanned : Option (List Char × List Char)) :
    Option (List Char × List Char) :=
  scanned.map fun (cs, r) => (c :: cs, r)

/-- The text after its opening quotes, and what follows the closing ones. Up to two quotes may stand
right before three closing ones. -/
def scanText (s : Style) (joint : Joint) : List Char → Option (List Char × List Char)
  | [] => none
  | c :: rest =>
    if joint = .due then
      if endsLine c then scanText s .open rest
      else if isBlank c then scanText s .due rest
      else none
    else if joint = .open && (isBlank c || endsLine c) then scanText s .open rest
    else if c = s.quote then
      if !s.multiline then some ([], rest)
      else if rest.take 2 = [c, c] then
        let extra := ((rest.drop 2).take 2).takeWhile (· = c)
        some (extra, rest.drop (2 + extra.length))
      else prepend c (scanText s .none rest)
    else if endsLine c && !s.multiline then none
    else if c = '\\' && s.quote = '"' then
      if s.multiline && (rest.head?.map fun e => isBlank e || endsLine e).getD false then
        scanText s .due rest
      else
        match _hescape : scanEscape rest with
        | some (c, r) => prepend c (scanText s .none r)
        | none => none
    else prepend c (scanText s .none rest)
termination_by cs => cs.length
decreasing_by
  all_goals try have := length_of_scanEscape _hescape
  all_goals simp only [List.length_cons]; omega

theorem length_of_prepend {c : Char} {scanned : Option (List Char × List Char)} {n : Nat}
    {text r : List Char} (ih : ∀ {text r : List Char}, scanned = some (text, r) → r.length < n)
    (h : prepend c scanned = some (text, r)) : r.length < n := by
  obtain ⟨⟨cs, r'⟩, h, heq⟩ := Option.map_eq_some_iff.1 h
  cases heq; exact ih h

theorem length_of_scanText {s : Style} {joint : Joint} {cs text r : List Char}
    (h : scanText s joint cs = some (text, r)) : r.length < cs.length := by
  fun_induction scanText s joint cs generalizing text r with
  | case2 _ _ _ ih | case3 _ _ _ _ ih | case5 _ _ _ _ _ ih | case10 _ _ _ _ _ _ _ _ _ ih =>
    have := ih h; simp only [List.length_cons]; omega
  | case6 => cases h; simp
  | case7 => cases h; simp only [List.length_drop, List.length_cons]; omega
  | case8 _ _ _ _ _ _ ih | case13 _ _ _ _ _ _ _ _ ih =>
    have := length_of_prepend ih h; simp only [List.length_cons]; omega
  | case11 _ _ _ _ _ _ _ _ _ _ _ hescape ih =>
    have := length_of_prepend ih h
    have := length_of_scanEscape hescape
    simp only [List.length_cons]; omega
  | _ => simp at h

inductive Token where
  | dot
  | equals
  | comma
  | openSquare
  | closeSquare
  | openCurly
  | closeCurly
  /-- One for each half of a line end of two characters, as an empty line says nothing. -/
  | lineEnd
  | blank (cs : List Char)
  | comment
  | text (cs : List Char) (multiline : Bool)
  /-- A run of other characters. -/
  | bare (cs : List Char)
deriving DecidableEq, Repr

namespace Token

def mark? (c : Char) : Option Token :=
  if c = '.' then some .dot
  else if c = '=' then some .equals
  else if c = ',' then some .comma
  else if c = '[' then some .openSquare
  else if c = ']' then some .closeSquare
  else if c = '{' then some .openCurly
  else if c = '}' then some .closeCurly
  else if endsLine c then some .lineEnd
  else none

def isBare (c : Char) : Bool :=
  (mark? c).isNone && !isBlank c && c != '#' && c != '"' && c != '\''

/-- A text after its first quote. A line end right after three quotes is left out. -/
def scanQuoted (q : Char) (rest : List Char) : Option (Token × List Char) :=
  let multiline := rest.take 2 = [q, q]
  let body := if multiline then rest.drop 2 else rest
  let body := if multiline then afterLineEnd body else body
  (scanText ⟨q, multiline⟩ .none body).map fun (cs, r) => (.text cs multiline, r)

def scan (c : Char) (rest : List Char) : Option (Token × List Char) :=
  match mark? c with
  | some t => some (t, rest)
  | none =>
    if isBlank c then some (.blank (c :: rest.takeWhile isBlank), rest.dropWhile isBlank)
    else if c = '#' then some (.comment, rest.dropWhile (· ≠ '\n'))
    else if c = '"' || c = '\'' then scanQuoted c rest
    else some (.bare (c :: rest.takeWhile isBare), rest.dropWhile isBare)

theorem length_of_scanQuoted {q : Char} {rest r : List Char} {t : Token}
    (h : scanQuoted q rest = some (t, r)) : r.length ≤ rest.length := by
  obtain ⟨⟨cs, r'⟩, h, heq⟩ := Option.map_eq_some_iff.1 h
  cases heq
  refine Nat.le_trans (Nat.le_of_lt (length_of_scanText h)) ?_
  split
  · exact Nat.le_trans (length_of_afterLineEnd _) (by simp)
  · exact Nat.le_refl _

theorem length_of_scan {c : Char} {rest r : List Char} {t : Token}
    (h : scan c rest = some (t, r)) : r.length ≤ rest.length := by
  have dropped (p : Char → Bool) : (rest.dropWhile p).length ≤ rest.length :=
    (List.dropWhile_sublist p).length_le
  unfold scan at h
  split at h
  · cases h; simp
  · split at h
    · cases h; exact dropped _
    · split at h
      · cases h; exact dropped _
      · split at h
        · exact length_of_scanQuoted h
        · cases h; exact dropped _

/-- All tokens of a text; none if a quoted text in it is malformed. -/
def lex : List Char → Option (List Token)
  | [] => some []
  | c :: rest =>
    match _hscan : scan c rest with
    | none => none
    | some (t, r) => (lex r).map (t :: ·)
termination_by cs => cs.length
decreasing_by
  have := length_of_scan _hscan
  simp only [List.length_cons]
  omega

def ofText? (text : String) : Option (List Token) :=
  let cs := withoutMark text.toList
  if isClean cs then lex cs else none

end Token

end FormProgram.Toml
