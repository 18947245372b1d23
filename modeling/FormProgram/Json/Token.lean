/-
JSON text as tokens. Blanks (space, tab, line feed, carriage return) may stand between any two.

`scan` reads one token and returns a shorter rest (`length_of_scan`), which is what bounds `lex`.
-/
import FormProgram.Json.Number
import FormProgram.Json.Text

set_option autoImplicit false

namespace FormProgram.Json

/-- A string token holds no string when one of its escapes is an unpaired surrogate half. -/
inductive Token where
  | openArray
  | closeArray
  | openObject
  | closeObject
  | colon
  | comma
  | null
  | bool (b : Bool)
  | number (l : Literal)
  | string (s : Option String)
deriving DecidableEq, Repr

namespace Token

def isBlank (c : Char) : Bool := c = ' ' || c = '\t' || c = '\n' || c = '\r'

def mark? (c : Char) : Option Token :=
  if c = '[' then some .openArray
  else if c = ']' then some .closeArray
  else if c = '{' then some .openObject
  else if c = '}' then some .closeObject
  else if c = ':' then some .colon
  else if c = ',' then some .comma
  else none

/-- What follows `word` at the head of the text. -/
def after? : (word cs : List Char) → Option (List Char)
  | [], cs => some cs
  | _ :: _, [] => none
  | w :: word, c :: cs => if w = c then after? word cs else none

/-- The token that starts with `c`, and what follows it. -/
def scan (c : Char) (rest : List Char) : Option (Token × List Char) :=
  match mark? c with
  | some t => some (t, rest)
  | none =>
    if c = '"' then
      (Text.scanBody rest).map fun (parts, r) => (.string ((Text.join? parts).map String.ofList), r)
    else if c = 'n' then (after? ['u', 'l', 'l'] rest).map fun r => (.null, r)
    else if c = 't' then (after? ['r', 'u', 'e'] rest).map fun r => (.bool true, r)
    else if c = 'f' then (after? ['a', 'l', 's', 'e'] rest).map fun r => (.bool false, r)
    else (Literal.scan (c :: rest)).map fun (l, r) => (.number l, r)

end Token

theorem Token.length_of_after? {word cs r : List Char} (h : after? word cs = some r) :
    r.length ≤ cs.length := by
  induction word generalizing cs with
  | nil => simp [after?] at h; simp [h]
  | cons w word ih =>
    cases cs with
    | nil => simp [after?] at h
    | cons c cs =>
      simp only [after?] at h
      split at h
      · have := ih h; simp; omega
      · simp at h

namespace Literal

theorem length_of_scanWhole {cs ds r : List Char} (h : scanWhole cs = some (ds, r)) :
    r.length < cs.length := by
  unfold scanWhole at h
  split at h
  · simp at h
  · split at h
    · cases h; simp
    · split at h
      · cases h
        exact Nat.lt_succ_of_le (List.dropWhile_sublist _).length_le
      · simp at h

theorem length_of_scanDigits {cs ds r : List Char} (h : scanDigits cs = some (ds, r)) :
    r.length ≤ cs.length := by
  simp only [scanDigits] at h
  split at h
  · simp at h
  · cases h; exact (List.dropWhile_sublist _).length_le

theorem length_of_scanFraction {cs ds r : List Char} (h : scanFraction cs = some (ds, r)) :
    r.length ≤ cs.length := by
  unfold scanFraction at h
  split at h
  · cases h; simp
  · split at h
    · have := length_of_scanDigits h; simp only [List.length_cons]; omega
    · cases h; simp

theorem length_of_scanExponent {cs r : List Char} {e : Option Exponent}
    (h : scanExponent cs = some (e, r)) : r.length ≤ cs.length := by
  have digits {f : List Char × List Char → Option Exponent × List Char} {cs : List Char}
      (hf : ∀ p, (f p).2 = p.2) (h : (scanDigits cs).map f = some (e, r)) :
      r.length ≤ cs.length := by
    obtain ⟨⟨ds, r'⟩, h, heq⟩ := Option.map_eq_some_iff.1 h
    have := length_of_scanDigits h
    have hr := hf (ds, r')
    rw [heq] at hr
    simp only at hr
    rw [hr]; exact this
  unfold scanExponent at h
  split at h
  · cases h; simp
  · split at h
    · split at h
      · simp at h
      · split at h
        · have := digits (fun _ => rfl) h; simp only [List.length_cons]; omega
        · split at h
          · have := digits (fun _ => rfl) h; simp only [List.length_cons]; omega
          · have := digits (fun _ => rfl) h; simp only [List.length_cons] at *; omega
    · cases h; simp

theorem length_of_scanUnsigned {negative : Bool} {cs r : List Char} {l : Literal}
    (h : scanUnsigned negative cs = some (l, r)) : r.length < cs.length := by
  simp only [scanUnsigned, bind, Option.bind_eq_some_iff, Prod.exists] at h
  obtain ⟨w, r1, h1, f, r2, h2, e, r3, h3, heq⟩ := h
  cases heq
  have := length_of_scanWhole h1
  have := length_of_scanFraction h2
  have := length_of_scanExponent h3
  omega

theorem length_of_scan {cs r : List Char} {l : Literal} (h : scan cs = some (l, r)) :
    r.length < cs.length := by
  unfold scan at h
  split at h
  · simp at h
  · split at h
    · have := length_of_scanUnsigned h; simp only [List.length_cons]; omega
    · exact length_of_scanUnsigned h

end Literal

namespace Token

theorem length_of_scan {c : Char} {rest r : List Char} {t : Token}
    (h : scan c rest = some (t, r)) : r.length ≤ rest.length := by
  unfold scan at h
  split at h
  · cases h; simp
  · split at h
    · obtain ⟨⟨ps, r'⟩, h', heq⟩ := Option.map_eq_some_iff.1 h
      cases heq
      exact Nat.le_of_lt (Text.length_of_scanBody h')
    · split at h
      · obtain ⟨r', h', heq⟩ := Option.map_eq_some_iff.1 h
        cases heq; exact length_of_after? h'
      · split at h
        · obtain ⟨r', h', heq⟩ := Option.map_eq_some_iff.1 h
          cases heq; exact length_of_after? h'
        · split at h
          · obtain ⟨r', h', heq⟩ := Option.map_eq_some_iff.1 h
            cases heq; exact length_of_after? h'
          · obtain ⟨⟨l, r'⟩, h', heq⟩ := Option.map_eq_some_iff.1 h
            cases heq
            have := Literal.length_of_scan h'
            simp only [List.length_cons] at this; omega

/-- All tokens of a text; none if something in it is not a token. -/
def lex (cs : List Char) : Option (List Token) :=
  match _hcs : cs.dropWhile isBlank with
  | [] => some []
  | c :: rest =>
    match _hscan : scan c rest with
    | none => none
    | some (t, r) => (lex r).map (t :: ·)
termination_by cs.length
decreasing_by
  have h1 := length_of_scan _hscan
  have h2 : (cs.dropWhile isBlank).length ≤ cs.length := (List.dropWhile_sublist isBlank).length_le
  rw [_hcs] at h2
  simp only [List.length_cons] at h2
  omega

end Token

end FormProgram.Json
