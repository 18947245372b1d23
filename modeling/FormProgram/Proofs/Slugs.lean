/-
The slug of a program: the runs of letters and digits in its name, in lower case, with a dash between two of them.

The loop that writes it passes one character at a time and holds a dash back until the next run begins. What it
writes from a place within a run is the rest of that run and then each further run behind a dash
(`slugChars_begun`). Every dash it writes stands before a letter or digit (`Slugged`), which is all that it takes for
a text to be left as it is.
-/
import FormProgram.Program.Lookup
import Mathlib.Data.List.Chain

set_option autoImplicit false

namespace FormProgram

open Program (slugChars)

variable {cs run : List Char} {pieces runs : List (List Char)} {c : Char} {begun gap : Bool}

/-- The parts of a text between its characters that are neither ASCII letters nor digits; some may be empty. -/
def alphanumericPieces (cs : List Char) : List (List Char) := cs.splitOnP fun c => !c.isAlphanum

/-- The runs of ASCII letters and digits in a text, each as long as possible. -/
def alphanumericRuns (cs : List Char) : List (List Char) := (alphanumericPieces cs).filter (!·.isEmpty)

theorem exists_pieces (cs : List Char) : ∃ run pieces, alphanumericPieces cs = run :: pieces :=
  List.exists_cons_of_ne_nil (List.splitOnP_ne_nil _ cs)

theorem pieces_gap (hc : c.isAlphanum = false) : alphanumericPieces (c :: cs) = [] :: alphanumericPieces cs := by
  rw [alphanumericPieces, List.splitOnP_cons_eq_if_modifyHead, if_pos (by rw [hc, Bool.not_false])]
  rfl

theorem pieces_letter (hc : c.isAlphanum = true) (h : alphanumericPieces cs = run :: pieces) :
    alphanumericPieces (c :: cs) = (c :: run) :: pieces := by
  rw [alphanumericPieces] at h
  rw [alphanumericPieces, List.splitOnP_cons_eq_if_modifyHead, if_neg (by rw [hc]; decide), h, List.modifyHead_cons]

theorem runs_gap (hc : c.isAlphanum = false) : alphanumericRuns (c :: cs) = alphanumericRuns cs := by
  rw [alphanumericRuns, pieces_gap hc]
  rfl

theorem runs_letter (hc : c.isAlphanum = true) (h : alphanumericPieces cs = run :: pieces) :
    alphanumericRuns (c :: cs) = (c :: run) :: pieces.filter (!·.isEmpty) := by
  rw [alphanumericRuns, pieces_letter hc h]
  rfl

/-- Runs in lower case, each behind a dash. -/
def dashed (runs : List (List Char)) : List Char := runs.flatMap fun run => '-' :: run.map Char.toLower

theorem dashed_cons : dashed (run :: runs) = '-' :: run.map Char.toLower ++ dashed runs := rfl

theorem intercalate_dash (run : List Char) (runs : List (List Char)) :
    ['-'].intercalate ((run :: runs).map (·.map Char.toLower)) = run.map Char.toLower ++ dashed runs := by
  induction runs generalizing run with
  | nil => simp [dashed]
  | cons next runs ih =>
    rw [List.map_cons, List.map_cons, List.intercalate_cons_cons, ← List.map_cons, ih, dashed_cons,
      List.append_assoc]
    rfl

theorem slugChars_gap (hc : c.isAlphanum = false) : slugChars begun gap (c :: cs) = slugChars begun true cs := by
  rw [slugChars, if_neg (by rw [hc]; decide)]

theorem slugChars_letter (hc : c.isAlphanum = true) :
    slugChars begun gap (c :: cs) =
      if gap && begun then '-' :: c.toLower :: slugChars true false cs else c.toLower :: slugChars true false cs := by
  rw [slugChars, if_pos hc]

/-- Once something is written: within a run its rest, behind a gap the next run, and the further runs, all of these
behind dashes. -/
theorem slugChars_begun (h : alphanumericPieces cs = run :: pieces) :
    slugChars true false cs = run.map Char.toLower ++ dashed (pieces.filter (!·.isEmpty)) ∧
      slugChars true true cs = dashed (alphanumericRuns cs) := by
  induction cs generalizing run pieces with
  | nil =>
    cases h
    exact ⟨rfl, rfl⟩
  | cons c cs ih =>
    obtain ⟨next, rest, hcs⟩ := exists_pieces cs
    obtain ⟨hwithin, hbehind⟩ := ih hcs
    cases hc : c.isAlphanum with
    | false =>
      rw [pieces_gap hc] at h
      cases h
      rw [slugChars_gap hc, slugChars_gap hc, hbehind, runs_gap hc]
      exact ⟨rfl, rfl⟩
    | true =>
      rw [pieces_letter hc hcs] at h
      cases h
      rw [slugChars_letter hc, slugChars_letter hc, runs_letter hc hcs, hwithin]
      exact ⟨rfl, rfl⟩

/-- **The loop joins the runs.** -/
theorem slugChars_eq : slugChars false gap cs = ['-'].intercalate ((alphanumericRuns cs).map (·.map Char.toLower)) := by
  induction cs generalizing gap with
  | nil => rfl
  | cons c cs ih =>
    cases hc : c.isAlphanum with
    | false => rw [slugChars_gap hc, ih, runs_gap hc]
    | true =>
      obtain ⟨run, pieces, hcs⟩ := exists_pieces cs
      rw [slugChars_letter hc, Bool.and_false, runs_letter hc hcs, intercalate_dash, (slugChars_begun hcs).1]
      rfl

/-- A lower-case letter or a digit, of ASCII. -/
def SlugLetter (c : Char) : Prop := c.isLower = true ∨ c.isDigit = true

theorem isLower_iff : c.isLower = true ↔ 97 ≤ c.toNat ∧ c.toNat ≤ 122 :=
  Bool.and_eq_true_iff.trans (and_congr decide_eq_true_iff decide_eq_true_iff)

theorem isDigit_iff : c.isDigit = true ↔ 48 ≤ c.toNat ∧ c.toNat ≤ 57 :=
  Bool.and_eq_true_iff.trans (and_congr decide_eq_true_iff decide_eq_true_iff)

theorem isUpper_iff : c.isUpper = true ↔ 65 ≤ c.toNat ∧ c.toNat ≤ 90 := decide_eq_true_iff

/-- The lower-case letters stand in the order of the upper-case ones, 32 places behind them. -/
theorem toNat_toLower (h : c.isUpper = true) : c.toLower.toNat = c.toNat + 32 := by
  have hlower : c.toLower.toNat = (c.val + 32).toNat := congrArg Char.toNat (dif_pos (of_decide_eq_true h))
  have hle : c.val.toNat ≤ 90 := (isUpper_iff.1 h).2
  rw [hlower, UInt32.toNat_add]
  exact Nat.mod_eq_of_lt (by simp only [UInt32.reduceToNat]; omega)

theorem slugLetter_toLower (hc : c.isAlphanum = true) : SlugLetter c.toLower := by
  cases hupper : c.isUpper with
  | true =>
    obtain ⟨hlow, hhigh⟩ := isUpper_iff.1 hupper
    refine .inl (isLower_iff.2 ?_)
    rw [toNat_toLower hupper]
    omega
  | false =>
    rw [show c.toLower = c from dif_neg (of_decide_eq_false hupper)]
    rcases Bool.or_eq_true_iff.1 hc with halpha | hdigit
    · rcases Bool.or_eq_true_iff.1 halpha with hyes | hlower
      · rw [hupper] at hyes
        cases hyes
      · exact .inl hlower
    · exact .inr hdigit

namespace SlugLetter

variable (h : SlugLetter c)
include h

theorem isAlphanum : c.isAlphanum = true := by
  rcases h with hlower | hdigit
  · exact Bool.or_eq_true_iff.2 (.inl (Bool.or_eq_true_iff.2 (.inr hlower)))
  · exact Bool.or_eq_true_iff.2 (.inr hdigit)

theorem toLower_eq : c.toLower = c := by
  refine dif_neg fun hupper => ?_
  have hrange : 65 ≤ c.toNat ∧ c.toNat ≤ 90 := hupper
  rcases h with hlower | hdigit
  · have := isLower_iff.1 hlower
    omega
  · have := isDigit_iff.1 hdigit
    omega

theorem ne_dash : c ≠ '-' := by
  rintro rfl
  rcases h with h | h <;> cases h

end SlugLetter

/-- A text of lower-case letters, digits and dashes, each dash before a letter or digit. -/
inductive Slugged : List Char → Prop
  | nil : Slugged []
  | letter {c : Char} {cs : List Char} (letter : SlugLetter c) (rest : Slugged cs) : Slugged (c :: cs)
  | dash {c : Char} {cs : List Char} (letter : SlugLetter c) (rest : Slugged cs) : Slugged ('-' :: c :: cs)

theorem slugged_slugChars : Slugged (slugChars begun gap cs) := by
  induction cs generalizing begun gap with
  | nil => exact .nil
  | cons c cs ih =>
    cases hc : c.isAlphanum with
    | false =>
      rw [slugChars_gap hc]
      exact ih
    | true =>
      rw [slugChars_letter hc]
      split
      · exact .dash (slugLetter_toLower hc) ih
      · exact .letter (slugLetter_toLower hc) ih

theorem head?_slugChars : (slugChars false gap cs).head? ≠ some '-' := by
  induction cs generalizing gap with
  | nil => nofun
  | cons c cs ih =>
    cases hc : c.isAlphanum with
    | false =>
      rw [slugChars_gap hc]
      exact ih
    | true =>
      rw [slugChars_letter hc, Bool.and_false]
      intro hdash
      exact (slugLetter_toLower hc).ne_dash (Option.some.inj hdash)

namespace Slugged

theorem letter_or_dash (h : Slugged cs) : ∀ c ∈ cs, SlugLetter c ∨ c = '-' := by
  induction h with
  | nil => exact List.forall_mem_nil _
  | letter hc _ ih => exact List.forall_mem_cons.2 ⟨.inl hc, ih⟩
  | dash hc _ ih => exact List.forall_mem_cons.2 ⟨.inr rfl, List.forall_mem_cons.2 ⟨.inl hc, ih⟩⟩

theorem getLast?_ne_dash (h : Slugged cs) : cs.getLast? ≠ some '-' := by
  have hcons : ∀ {c cs}, SlugLetter c → cs.getLast? ≠ some '-' → (c :: cs).getLast? ≠ some '-' := by
    intro c cs hc ih
    rw [List.getLast?_cons]
    cases hlast : cs.getLast? with
    | none => exact fun h => hc.ne_dash (Option.some.inj h)
    | some d => rwa [hlast] at ih
  induction h with
  | nil => nofun
  | letter hc _ ih => exact hcons hc ih
  | dash hc _ ih =>
    rw [List.getLast?_cons_cons]
    exact hcons hc ih

/-- No two dashes stand side by side. -/
theorem isChain (h : Slugged cs) : cs.IsChain fun a b => ¬ (a = '-' ∧ b = '-') := by
  induction h with
  | nil => exact .nil
  | letter hc _ ih => exact List.isChain_cons.2 ⟨fun _ _ h => hc.ne_dash h.1, ih⟩
  | dash hc _ ih =>
    refine List.isChain_cons_cons.2 ⟨fun h => hc.ne_dash h.2, ?_⟩
    exact List.isChain_cons.2 ⟨fun _ _ h => hc.ne_dash h.1, ih⟩

theorem slugChars_begun (h : Slugged cs) : slugChars true false cs = cs := by
  induction h with
  | nil => rfl
  | letter hc _ ih =>
    rw [slugChars_letter hc.isAlphanum, hc.toLower_eq, ih]
    rfl
  | dash hc _ ih =>
    rw [slugChars_gap rfl, slugChars_letter hc.isAlphanum, hc.toLower_eq, ih]
    rfl

/-- A text of this shape that does not start with a dash is its own slug. -/
theorem slugChars_eq (h : Slugged cs) (hhead : cs.head? ≠ some '-') : slugChars false false cs = cs := by
  cases h with
  | nil => rfl
  | letter hc hcs =>
    rw [slugChars_letter hc.isAlphanum, hc.toLower_eq, hcs.slugChars_begun]
    rfl
  | dash => exact absurd rfl hhead

end Slugged

/-- **A slug joins the runs of letters and digits of the name**, in lower case, by single dashes. So it holds nothing
but lower-case letters, digits and dashes, neither starts nor ends with a dash and has no two side by side; and it is
its own slug. -/
theorem slug_joins_runs (p : Program) :
    p.slug = "-".intercalate
      ((alphanumericRuns p.details.adminName.toList).map fun run => String.ofList (run.map Char.toLower)) ∧
    (∀ c ∈ p.slug.toList, c.isLower = true ∨ c.isDigit = true ∨ c = '-') ∧
    p.slug.toList.head? ≠ some '-' ∧ p.slug.toList.getLast? ≠ some '-' ∧
    (p.slug.toList.IsChain fun a b => ¬ (a = '-' ∧ b = '-')) ∧
    ∀ q : Program, q.details.adminName = p.slug → q.slug = p.slug := by
  have hs : p.slug.toList = slugChars false false p.details.adminName.toList := String.toList_ofList
  have hslugged : Slugged p.slug.toList := hs ▸ slugged_slugChars
  have hhead : p.slug.toList.head? ≠ some '-' := hs ▸ head?_slugChars
  refine ⟨?_, fun c hc => or_assoc.1 (hslugged.letter_or_dash c hc), hhead, hslugged.getLast?_ne_dash, hslugged.isChain,
    fun q hq => ?_⟩
  · rw [← String.toList_inj, hs, slugChars_eq, String.toList_intercalate, List.map_map]
    simp only [Function.comp_def, String.toList_ofList]
    rfl
  · rw [Program.slug, hq, hslugged.slugChars_eq hhead, String.ofList_toList]

/-- A name with accents, with blanks around it and more than one sign between two words. -/
theorem slug_joins_runs_rebate :
    let p := Draft.build { details := { adminName := "  Été: Car Tab -- Rebate 2024! " } }
    let q := Draft.build { details := { adminName := "t-car-tab-rebate-2024" } }
    p.slug = "t-car-tab-rebate-2024" ∧ '2' ∈ p.slug.toList ∧
      ('2'.isLower = true ∨ '2'.isDigit = true ∨ '2' = '-') ∧ p.slug.toList.head? ≠ some '-' ∧
      q.details.adminName = p.slug ∧ q.slug = p.slug := by
  intro p q
  have hp : p.slug = "t-car-tab-rebate-2024" := by decide +kernel
  have htwo : '2' ∈ p.slug.toList := by rw [hp]; decide +kernel
  obtain ⟨-, hchars, hhead, -, -, hagain⟩ := slug_joins_runs p
  exact ⟨hp, htwo, hchars '2' htwo, hhead, hp.symm, hagain q hp.symm⟩

end FormProgram
