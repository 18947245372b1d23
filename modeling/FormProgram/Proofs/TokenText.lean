/-
Every token that is written is scanned back, and the scanner stops where the token ends.

For the literal of a number that needs a rest of text that does not go on with the number (`Stops`); a
string ends with its quote. Escapes are read back character by character.
-/
import FormProgram.Json.Printer
import FormProgram.Json.Token
import FormProgram.Proofs.NumberText

set_option autoImplicit false

namespace FormProgram.Json

namespace Literal

variable {ds rest : List Char} {l : Literal}

/-- What a number does not go on with. -/
def Stops (rest : List Char) : Prop := ∀ c ∈ rest.head?, c.isDigit = false ∧ c ≠ '.' ∧ c ≠ 'e' ∧ c ≠ 'E'

theorem takeWhile_digits (hd : ∀ d ∈ ds, d.isDigit = true) (hr : ∀ c ∈ rest.head?, c.isDigit = false) :
    (ds ++ rest).takeWhile Char.isDigit = ds ∧ (ds ++ rest).dropWhile Char.isDigit = rest := by
  have hrest : rest.takeWhile Char.isDigit = [] ∧ rest.dropWhile Char.isDigit = rest := by
    cases rest with
    | nil => exact ⟨rfl, rfl⟩
    | cons c rest =>
      have hc := hr c rfl
      rw [List.takeWhile_cons, List.dropWhile_cons, hc]
      exact ⟨rfl, rfl⟩
  rw [List.takeWhile_append_of_pos hd, List.dropWhile_append_of_pos hd, hrest.1, hrest.2, List.append_nil]
  exact ⟨rfl, rfl⟩

theorem scanDigits_append (hne : ds ≠ []) (hd : ∀ d ∈ ds, d.isDigit = true)
    (hr : ∀ c ∈ rest.head?, c.isDigit = false) : scanDigits (ds ++ rest) = some (ds, rest) := by
  obtain ⟨htake, hdrop⟩ := takeWhile_digits hd hr
  simp only [scanDigits, htake, hdrop, List.isEmpty_iff, hne, if_false]

theorem scanWhole_append (h : l.Spelled) (hr : ∀ c ∈ rest.head?, c.isDigit = false) :
    scanWhole (l.whole ++ rest) = some (l.whole, rest) := by
  have hdigits := h.whole_digits
  rcases h.whole_start with hw | ⟨d, ds, hw, hd⟩
  · rw [hw]
    rfl
  · rw [hw] at hdigits ⊢
    obtain ⟨htake, hdrop⟩ := takeWhile_digits (fun c hc => hdigits c (List.mem_cons_of_mem d hc)) hr
    rw [List.cons_append, scanWhole, if_neg hd, if_pos (hdigits d (List.mem_cons_self ..)), htake, hdrop]

/-- The point and the digits behind it. -/
def fractionChars (l : Literal) : List Char := if l.fraction.isEmpty then [] else '.' :: l.fraction

def exponentChars (l : Literal) : List Char :=
  match l.exponent with
  | none => []
  | some e => 'e' :: (if e.negative then '-' else '+') :: e.digits

theorem chars_eq :
    l.chars = (if l.negative then ['-'] else []) ++ l.whole ++ l.fractionChars ++ l.exponentChars := rfl

theorem scanFraction_append (h : l.Spelled) (hr : ∀ c ∈ rest.head?, c.isDigit = false ∧ c ≠ '.') :
    scanFraction (l.fractionChars ++ rest) = some (l.fraction, rest) := by
  rw [fractionChars]
  split
  next hempty =>
    rw [List.isEmpty_iff.1 hempty, List.nil_append]
    cases rest with
    | nil => rfl
    | cons c rest => rw [scanFraction, if_neg (hr c rfl).2]
  next hne =>
    rw [List.cons_append, scanFraction, if_pos rfl]
    exact scanDigits_append (by simpa using hne) h.fraction_digits fun c hc => (hr c hc).1

theorem scanExponent_append (h : l.Spelled) (hr : Stops rest) :
    scanExponent (l.exponentChars ++ rest) = some (l.exponent, rest) := by
  have hdigits := h.exponent_digits
  rw [exponentChars]
  split
  next he =>
    rw [he, List.nil_append]
    cases rest with
    | nil => rfl
    | cons c rest =>
      obtain ⟨-, -, he, hE⟩ := hr c rfl
      simp [scanExponent, he, hE]
  next e he =>
    obtain ⟨hne, hd⟩ := hdigits e (by rw [he]; rfl)
    have hscan := scanDigits_append hne hd fun c hc => (hr c hc).1
    rw [he]
    obtain ⟨negative, ds⟩ := e
    cases negative <;> simp [scanExponent, hscan]

theorem head_exponentChars (hr : Stops rest) :
    ∀ c ∈ (l.exponentChars ++ rest).head?, c.isDigit = false ∧ c ≠ '.' := by
  rw [exponentChars]
  split
  · exact fun c hc => ⟨(hr c hc).1, (hr c hc).2.1⟩
  · intro c hc
    cases hc
    decide

theorem head_fractionChars (hr : Stops rest) :
    ∀ c ∈ (l.fractionChars ++ (l.exponentChars ++ rest)).head?, c.isDigit = false := by
  rw [fractionChars]
  split
  · exact fun c hc => (head_exponentChars hr c hc).1
  · intro c hc
    cases hc
    rfl

theorem scanUnsigned_append (h : l.Spelled) (hr : Stops rest) (negative : Bool) :
    scanUnsigned negative (l.whole ++ (l.fractionChars ++ (l.exponentChars ++ rest))) =
      some (⟨negative, l.whole, l.fraction, l.exponent⟩, rest) := by
  simp only [scanUnsigned, scanWhole_append h (head_fractionChars hr),
    scanFraction_append h (head_exponentChars hr), scanExponent_append h hr, Option.bind_eq_bind,
    Option.bind_some]

/-- The first digit, which is no sign. -/
theorem exists_whole_eq_cons (h : l.Spelled) : ∃ d ds, l.whole = d :: ds ∧ d.isDigit = true := by
  rcases h.whole_start with hw | ⟨d, ds, hw, -⟩
  · exact ⟨_, _, hw, rfl⟩
  · exact ⟨d, ds, hw, h.whole_digits d (hw ▸ List.mem_cons_self ..)⟩

theorem exists_chars_eq_cons (h : l.Spelled) : ∃ c cs, l.chars = c :: cs ∧ (c = '-' ∨ c.isDigit = true) := by
  obtain ⟨d, ds, hw, hd⟩ := exists_whole_eq_cons h
  rw [chars_eq, hw]
  cases l.negative with
  | true => exact ⟨_, _, rfl, .inl rfl⟩
  | false => exact ⟨_, _, rfl, .inr hd⟩

/-- **A literal is scanned back.** -/
theorem scan_chars (h : l.Spelled) (hr : Stops rest) : scan (l.chars ++ rest) = some (l, rest) := by
  have hscan := scanUnsigned_append h hr
  obtain ⟨d, ds, hw, hd⟩ := exists_whole_eq_cons h
  rw [chars_eq, List.append_assoc, List.append_assoc, List.append_assoc]
  obtain ⟨negative, whole, fraction, exponent⟩ := l
  cases negative with
  | true => exact hscan true
  | false =>
    have hminus : d ≠ '-' := by
      rintro rfl
      cases hd
    have hscan := hscan false
    dsimp only at hw hscan ⊢
    rw [hw, List.cons_append] at hscan
    rw [if_neg Bool.false_ne_true, List.nil_append, hw, List.cons_append, scan, if_neg hminus]
    exact hscan

end Literal

namespace Text

variable {c : Char} {cs rest : List Char}

theorem unit_control : ∀ n < 0x20,
    unit? '0' '0' (Hexadecimal.smallDigit (n / 16)) (Hexadecimal.smallDigit (n % 16)) = some n ∧
      Part.ofUnit n = .char (Char.ofNat n) := by decide +kernel

/-- How a character is written: by a letter, by its number, or as it is. -/
theorem escape_cases (c : Char) :
    (∃ e, escape c = ['\\', e] ∧ e ≠ 'u' ∧ unescape? e = some c) ∨
      (c.toNat < 0x20 ∧ escape c = ['\\', 'u', '0', '0', Hexadecimal.smallDigit (c.toNat / 16),
        Hexadecimal.smallDigit (c.toNat % 16)]) ∨
      (c ≠ '"' ∧ c ≠ '\\' ∧ ¬ c.toNat < 0x20 ∧ escape c = [c]) := by
  by_cases hletter : c ∈ ['"', '\\', '\x08', '\x0c', '\n', '\r', '\t']
  · simp only [List.mem_cons, List.not_mem_nil, or_false] at hletter
    rcases hletter with rfl | rfl | rfl | rfl | rfl | rfl | rfl <;> exact .inl ⟨_, rfl, by decide, rfl⟩
  · simp only [List.mem_cons, List.not_mem_nil, or_false, not_or] at hletter
    by_cases hcontrol : c.toNat < 0x20
    · exact .inr (.inl ⟨hcontrol, by simp [escape, hletter, hcontrol]⟩)
    · exact .inr (.inr ⟨hletter.1, hletter.2.1, hcontrol, by simp [escape, hletter, hcontrol]⟩)

/-- An escaped character is read as that character. -/
theorem scanBody_escape :
    scanBody (escape c ++ rest) = (scanBody rest).map fun (ps, r) => (.char c :: ps, r) := by
  rcases escape_cases c with ⟨e, he, hu, hunescape⟩ | ⟨hcontrol, he⟩ | ⟨hquote, hbackslash, hplain, he⟩
  · simp [he, scanBody.eq_def (_ :: e :: rest), hu, hunescape]
  · obtain ⟨hunit, hpart⟩ := unit_control c.toNat hcontrol
    rw [Char.ofNat_toNat] at hpart
    simp [he, scanBody, hunit, hpart]
  · simp [he, scanBody.eq_def (c :: rest), hquote, hbackslash, hplain]

theorem scanBody_quote : scanBody (cs.flatMap escape ++ '"' :: rest) = some (cs.map .char, rest) := by
  induction cs with
  | nil => simp [scanBody.eq_def (_ :: rest)]
  | cons c cs ih =>
    rw [List.flatMap_cons, List.append_assoc, scanBody_escape, ih, List.map_cons, Option.map_some]

theorem join?_chars : join? (cs.map .char) = some cs := by
  induction cs with
  | nil => rfl
  | cons c cs ih => rw [List.map_cons, join?, ih, Option.map_some]

end Text

namespace Token

variable {c : Char} {cs rest : List Char} {t : Token}

theorem lex_nil : lex [] = some [] := by
  rw [lex.eq_def]
  rfl

/-- Blanks before a token are passed over. -/
theorem lex_blanks {ds : List Char} (h : ∀ d ∈ ds, isBlank d = true) : lex (ds ++ rest) = lex rest := by
  rw [lex.eq_def, lex.eq_def rest, List.dropWhile_append_of_pos h]

theorem lex_cons (hblank : isBlank c = false) (hscan : scan c cs = some (t, rest)) :
    lex (c :: cs) = (lex rest).map (t :: ·) := by
  have hdrop : (c :: cs).dropWhile isBlank = c :: cs := by rw [List.dropWhile_cons, hblank]; rfl
  rw [lex.eq_def]
  split
  next hnil => rw [hdrop] at hnil; cases hnil
  next c' cs' hcons =>
    rw [hdrop] at hcons
    cases hcons
    split
    next hnone => rw [hscan] at hnone; cases hnone
    next hsome =>
      rw [hscan] at hsome
      cases hsome
      rfl

theorem lex_blank (h : isBlank c = true) : lex (c :: rest) = lex rest :=
  have hc : ∀ d ∈ [c], isBlank d = true := by simpa using h
  lex_blanks hc

theorem lex_mark (hblank : isBlank c = false) (hmark : mark? c = some t) :
    lex (c :: rest) = (lex rest).map (t :: ·) := lex_cons hblank (by rw [scan, hmark])

theorem lex_null : lex (['n', 'u', 'l', 'l'] ++ rest) = (lex rest).map (.null :: ·) := lex_cons rfl rfl

theorem lex_bool (b : Bool) : lex (Json.prettyChars 0 (.bool b) ++ rest) = (lex rest).map (.bool b :: ·) := by
  cases b <;> exact lex_cons rfl rfl

/-- **A string is scanned back.** -/
theorem lex_quote (s : String) : lex (Text.quote s ++ rest) = (lex rest).map (.string (some s) :: ·) := by
  rw [Text.quote, List.cons_append, List.append_assoc, List.singleton_append]
  refine lex_cons rfl ?_
  simp [scan, mark?, Text.scanBody_quote, Text.join?_chars]

/-- A sign or a digit starts a number and nothing else. -/
theorem scan_number (hc : c = '-' ∨ c.isDigit = true) :
    isBlank c = false ∧ scan c cs = (Literal.scan (c :: cs)).map fun (l, r) => (.number l, r) := by
  have hne : ∀ d : Char, d ≠ '-' → d.isDigit = false → c ≠ d := by
    rintro d hminus hdigit rfl
    rcases hc with rfl | hc
    · exact hminus rfl
    · rw [hdigit] at hc
      cases hc
  constructor
  · simp [isBlank, hne]
  · simp [scan, mark?, hne]

/-- **A number is scanned back.** -/
theorem lex_number (n : Number) (hr : Literal.Stops rest) :
    lex (n.chars ++ rest) = (lex rest).map (.number n.literal :: ·) := by
  have hscan := Literal.scan_chars n.spelled hr
  obtain ⟨c, cs, hchars, hc⟩ := Literal.exists_chars_eq_cons n.spelled
  rw [Number.chars]
  rw [hchars, List.cons_append] at hscan ⊢
  obtain ⟨hblank, hnumber⟩ := scan_number hc
  exact lex_cons hblank (by rw [hnumber, hscan, Option.map_some])

end Token

end FormProgram.Json
