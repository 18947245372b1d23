/-
Strings as TOML text.

A string is written in the first of the four quotings that says it without escapes, else between
double quotes with them. Tabs do not count: between double quotes they are escaped in any case.
-/
import FormProgram.Toml.Token

set_option autoImplicit false

namespace FormProgram.Toml

/-- The quotings of a string, those preferred first. -/
def Style.all : List Style := [⟨'"', false⟩, ⟨'\'', false⟩, ⟨'"', true⟩, ⟨'\'', true⟩]

def Style.quoteRun (s : Style) : Nat := if s.multiline then 2 else 0

def Style.fence (s : Style) : List Char := List.replicate (if s.multiline then 3 else 1) s.quote

namespace Quoted

def isControl (c : Char) : Bool :=
  (c.toNat < 0x20 && c != '\n' && c != '\t') || c.toNat = 0x7F

/-- Somewhere in the text more than `n` of a character stand side by side. -/
def runsOver (c : Char) (n : Nat) : List Char → Bool
  | [] => false
  | d :: cs => (List.replicate (n + 1) c).isPrefixOf (d :: cs) || runsOver c n cs

def suits (s : Style) (cs : List Char) : Bool :=
  !cs.any isControl && !runsOver s.quote s.quoteRun cs && (s.multiline || !cs.contains '\n')
    && (s.quote = '\'' || !cs.contains '\\')

def style (cs : List Char) : Style :=
  (Style.all.find? (suits · cs)).getD ⟨'"', cs.contains '\n'⟩

def escape (c : Char) : List Char :=
  if c = '\\' then ['\\', '\\']
  else if c = '\x08' then ['\\', 'b']
  else if c = '\t' then ['\\', 't']
  else if c = '\x0c' then ['\\', 'f']
  else if c = '\r' then ['\\', 'r']
  else if isControl c then
    ['\\', 'u', '0', '0', Hexadecimal.largeDigit (c.toNat / 16),
      Hexadecimal.largeDigit (c.toNat % 16)]
  else [c]

/-- A text between double quotes. As many quotes as may stand side by side are left as they are;
`run` counts those just before. -/
def escapeAll (s : Style) (run : Nat) : List Char → List Char
  | [] => []
  | c :: cs =>
    if c = '"' then
      if run < s.quoteRun then c :: escapeAll s (run + 1) cs
      else '\\' :: '"' :: escapeAll s 0 cs
    else if c = '\n' then
      if s.multiline then c :: escapeAll s 0 cs else '\\' :: 'n' :: escapeAll s 0 cs
    else escape c ++ escapeAll s 0 cs

def write (cs : List Char) : List Char :=
  let s := style cs
  let opening := s.fence ++ if s.multiline && cs.contains '\n' then ['\n'] else []
  opening ++ (if s.quote = '"' then escapeAll s 0 cs else cs) ++ s.fence

end Quoted

end FormProgram.Toml
