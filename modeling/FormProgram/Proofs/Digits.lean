/-
Rows of decimal digits: what they are worth, and how a coefficient is read from them.

A number has one row of digits without zeros in front (`exists_zeros`). A coefficient takes digits as long as it stays
a word (`Literal.take`); what it leaves out only makes it smaller (`take_bounds`).
-/
import FormProgram.Json.Number
import Mathlib.Data.List.Induction
import Mathlib.Tactic.Ring

set_option autoImplicit false

namespace FormProgram.Decimal

variable {c n : Nat} {ds es : List Char}

/-- The number that a row of digits makes of the number before it. -/
def valueFrom (c : Nat) (ds : List Char) : Nat := ds.foldl (fun n d => 10 * n + digitValue d) c

theorem valueFrom_zero : valueFrom 0 ds = value ds := rfl

theorem valueFrom_append : valueFrom c (ds ++ es) = valueFrom (valueFrom c ds) es := List.foldl_append

theorem valueFrom_eq : valueFrom c ds = c * 10 ^ ds.length + value ds := by
  induction ds generalizing c with
  | nil => simp [valueFrom, value]
  | cons d ds ih =>
    have hd : value (d :: ds) = valueFrom (digitValue d) ds := by
      rw [← valueFrom_zero, valueFrom, List.foldl_cons, Nat.mul_zero, Nat.zero_add]
      rfl
    have hc : valueFrom c (d :: ds) = valueFrom (10 * c + digitValue d) ds := rfl
    rw [hc, hd, ih, ih, List.length_cons, Nat.pow_succ']
    ring

theorem valueFrom_take_drop (ds : List Char) (n : Nat) :
    valueFrom (value (ds.take n)) (ds.drop n) = value ds := by
  rw [← valueFrom_zero, ← valueFrom_append, List.take_append_drop, valueFrom_zero]

theorem mul_pow_le_valueFrom : c * 10 ^ ds.length ≤ valueFrom c ds := by
  rw [valueFrom_eq]
  exact Nat.le_add_right _ _

theorem le_valueFrom : c ≤ valueFrom c ds :=
  Nat.le_trans (Nat.le_mul_of_pos_right c (Nat.pow_pos (by decide))) mul_pow_le_valueFrom

theorem digitValue_lt {d : Char} (h : d.isDigit = true) : digitValue d < 10 := by
  simp only [Char.isDigit, Bool.and_eq_true, decide_eq_true_eq] at h
  have hle : d.toNat ≤ 57 := h.2
  rw [digitValue]
  omega

theorem digitChar_digitValue {c : Char} (h : c.isDigit = true) : digitChar (digitValue c) = c := by
  simp only [Char.isDigit, Bool.and_eq_true, decide_eq_true_eq] at h
  have hlow : 48 ≤ c.toNat := h.1
  rw [digitChar, digitValue, Nat.add_sub_cancel' hlow, Char.ofNat_toNat]

theorem value_lt_pow (h : ∀ d ∈ ds, d.isDigit = true) : value ds < 10 ^ ds.length := by
  induction ds with
  | nil => exact Nat.one_pos
  | cons d ds ih =>
    have hd := digitValue_lt (h d (by simp))
    have hds := ih fun d' hd' => h d' (by simp [hd'])
    have hv : value (d :: ds) = digitValue d * 10 ^ ds.length + value ds := by
      rw [← valueFrom_eq, ← valueFrom_zero, valueFrom, List.foldl_cons, Nat.mul_zero, Nat.zero_add]
      rfl
    have hmul := Nat.mul_le_mul_right (10 ^ ds.length) (Nat.le_of_lt_succ hd)
    rw [hv, List.length_cons, Nat.pow_succ]
    omega

theorem chars_of_lt {d : Nat} (h : d < 10) : chars d = [digitChar d] := by rw [chars, if_pos h]

theorem chars_append_digit {d : Nat} (hn : 0 < n) (h : d < 10) : chars (10 * n + d) = chars n ++ [digitChar d] := by
  have htens : (10 * n + d) / 10 = n := by omega
  have hunit : (10 * n + d) % 10 = d := by omega
  rw [chars, if_neg (by omega), htens, hunit]

/-- A number has so many digits that it reaches that power of ten. -/
theorem pow_length_chars_le (n : Nat) (h : 0 < n) : 10 ^ ((chars n).length - 1) ≤ n := by
  rw [chars]
  split
  · exact h
  next hn =>
    have ih := pow_length_chars_le (n / 10) (by omega)
    have hlen : 0 < (chars (n / 10)).length := List.length_pos_iff.2 (chars_ne_nil _)
    obtain ⟨k, hk⟩ := Nat.exists_eq_succ_of_ne_zero (Nat.ne_of_gt hlen)
    rw [hk, Nat.succ_sub_one] at ih
    rw [List.length_append, List.length_singleton, Nat.add_sub_cancel, hk, Nat.pow_succ]
    omega
termination_by n

theorem length_chars {k : Nat} (hlow : tenTo k ≤ n) (hhigh : n < tenTo (k + 1)) : (chars n).length = k + 1 := by
  change 10 ^ k ≤ n at hlow
  change n < 10 ^ (k + 1) at hhigh
  have hpos : 0 < n := Nat.lt_of_lt_of_le (Nat.pow_pos (by decide)) hlow
  have hv := value_lt_pow (isDigit_of_mem_chars n)
  rw [value_chars] at hv
  have hleast := (Nat.pow_lt_pow_iff_right (by decide : 1 < 10)).1 (Nat.lt_of_le_of_lt hlow hv)
  have hmost := Nat.lt_of_le_of_lt (pow_length_chars_le n hpos) hhigh
  rw [Nat.pow_lt_pow_iff_right (by decide : 1 < 10)] at hmost
  omega

/-- The first digit of a positive number is not zero. -/
theorem head_chars_ne_zero (n : Nat) (h : 0 < n) : (chars n).head? ≠ some '0' := by
  rw [chars]
  split
  next hn =>
    have all : ∀ n < 10, 0 < n → [digitChar n].head? ≠ some '0' := by decide
    exact all n hn h
  next hn =>
    have ih := head_chars_ne_zero (n / 10) (by omega)
    rw [List.head?_append]
    cases hc : (chars (n / 10)).head? with
    | none => exact absurd (List.head?_eq_none_iff.1 hc) (chars_ne_nil _)
    | some c =>
      rw [hc] at ih
      exact ih
termination_by n

/-- The digits of a positive number start with another digit than zero. -/
theorem exists_chars_eq_cons {n : Nat} (h : 0 < n) : ∃ d ds, chars n = d :: ds ∧ d ≠ '0' := by
  have hne := head_chars_ne_zero n h
  cases hc : chars n with
  | nil => exact absurd hc (chars_ne_nil n)
  | cons d ds =>
    refine ⟨d, ds, rfl, fun hd => hne ?_⟩
    rw [hc, hd, List.head?_cons]

/-- The digits of a number are those that the library writes. -/
theorem chars_eq_toDigits (n : Nat) : chars n = Nat.toDigits 10 n := by
  have hdigit : ∀ d < 10, digitChar d = d.digitChar := by decide
  rw [chars, Nat.toDigits_eq_if (by decide)]
  split
  next h => rw [hdigit n h]
  next => rw [chars_eq_toDigits (n / 10), hdigit (n % 10) (Nat.mod_lt n (by decide))]
termination_by n

theorem text_eq_toString (n : Nat) : text n = toString n := congrArg String.ofList (chars_eq_toDigits n)

theorem isDigit_zeros (n : Nat) : ∀ c ∈ List.replicate n '0', c.isDigit = true := by
  intro c hc
  rw [(List.mem_replicate.1 hc).2]
  rfl

/-- Whatever digits stand for a number, they are zeros and then the digits written for it. -/
theorem exists_zeros (hne : ds ≠ []) (hd : ∀ c ∈ ds, c.isDigit = true) :
    ∃ zeros, ds = List.replicate zeros '0' ++ chars (value ds) := by
  induction ds using List.reverseRecOn with
  | nil => exact absurd rfl hne
  | append_singleton ds c ih =>
    have hc : c.isDigit = true := hd c (by simp)
    have hlt := digitValue_lt hc
    have hlast : value ds = 0 → chars (value (ds ++ [c])) = [c] := fun hzero => by
      rw [value_append, hzero, Nat.mul_zero, Nat.zero_add, chars_of_lt hlt, digitChar_digitValue hc]
    by_cases hds : ds = []
    · subst hds
      exact ⟨0, (hlast rfl).symm⟩
    · obtain ⟨zeros, hzeros⟩ := ih hds fun d hmem => hd d (List.mem_append_left _ hmem)
      by_cases hzero : value ds = 0
      · -- so far there are zeros only
        rw [hzero, chars_of_lt (by omega)] at hzeros
        exact ⟨zeros + 1, by rw [hlast hzero, hzeros, List.replicate_succ']; rfl⟩
      · refine ⟨zeros, ?_⟩
        rw [value_append, chars_append_digit (Nat.pos_of_ne_zero hzero) hlt, digitChar_digitValue hc,
          ← List.append_assoc, ← hzeros]

theorem value_zeros (zeros : Nat) : value (List.replicate zeros '0' ++ ds) = value ds := by
  induction zeros with
  | zero => rfl
  | succ zeros ih => exact ih

end FormProgram.Decimal

namespace FormProgram.Json.Literal

open Decimal

variable {c : Nat} {ds : List Char}

/-- What has been taken is a word, and the digits left out would only make it larger. -/
theorem take_bounds (ds : List Char) (hc : c < wordLimit) :
    (take c ds).1 < wordLimit ∧ (take c ds).2 ≤ ds.length ∧
      (take c ds).1 * 10 ^ (ds.length - (take c ds).2) ≤ valueFrom c ds := by
  induction ds generalizing c with
  | nil => simpa [take, valueFrom] using hc
  | cons d ds ih =>
    rw [take]
    dsimp only
    split
    next hnext =>
      obtain ⟨hw, hlen, hv⟩ := ih hnext
      refine ⟨hw, Nat.succ_le_succ hlen, ?_⟩
      rw [List.length_cons, Nat.add_sub_add_right]
      exact hv
    next => exact ⟨hc, Nat.zero_le _, mul_pow_le_valueFrom⟩

/-- Digits that stay a word are all taken. -/
theorem take_all (h : valueFrom c ds < wordLimit) : take c ds = (valueFrom c ds, ds.length) := by
  induction ds generalizing c with
  | nil => rfl
  | cons d ds ih =>
    have hv : valueFrom c (d :: ds) = valueFrom (10 * c + digitValue d) ds := rfl
    rw [hv] at h ⊢
    rw [take, if_pos (Nat.lt_of_le_of_lt le_valueFrom h), ih h]
    rfl

end FormProgram.Json.Literal
