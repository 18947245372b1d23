/-
The decimal written for a double is positive and not above the greatest real that rounds to the double
(`Interval.Proper.shortest_spec`). That is far enough below the point where reading overflows, except for the
greatest five doubles (`shortest_ofBinary_le`).
-/
import FormProgram.Proofs.Digits
import FormProgram.Proofs.Rounding
import Mathlib.Algebra.Order.Field.Basic
import Mathlib.Algebra.Order.Field.Power
import Mathlib.Data.Nat.Cast.Order.Field
import Mathlib.Data.Rat.Cast.Order
import Mathlib.Tactic.FieldSimp
import Mathlib.Tactic.Linarith
import Mathlib.Tactic.NormNum
import Mathlib.Tactic.Positivity

set_option autoImplicit false

namespace FormProgram.Decimal

/-- The number that a decimal stands for. -/
def Scientific.val (s : Scientific) : ℚ := s.coefficient * 10 ^ s.exponent

variable {a b c d : Nat} {e : Int} {i : Interval}

theorem tenTo_eq (n : Nat) : tenTo n = 10 ^ n := rfl

/-- A multiple of a power of ten against a fraction, without denominators. -/
theorem mul_zpow_le_div_iff (hd : 0 < d) :
    (a : ℚ) * 10 ^ e ≤ b / d ↔ a * tenTo e.toNat * d ≤ b * tenTo (-e).toNat := by
  have hsplit : (10 : ℚ) ^ e = 10 ^ e.toNat / 10 ^ (-e).toNat := by
    rw [← zpow_natCast, ← zpow_natCast, ← zpow_sub₀ (by norm_num)]
    congr 1
    omega
  have hd : (0 : ℚ) < d := by exact_mod_cast hd
  rw [hsplit, ← mul_div_assoc, div_le_div_iff₀ (by positivity) hd, tenTo_eq, tenTo_eq]
  norm_cast

namespace Interval

theorem bounds_of_contains (h : i.contains c e = true) :
    i.low * tenTo (-e).toNat ≤ c * tenTo e.toNat * i.den ∧
      c * tenTo e.toNat * i.den ≤ i.high * tenTo (-e).toNat := by
  rw [contains] at h
  split at h
  · simpa using h
  · simp only [Bool.and_eq_true, decide_eq_true_eq] at h
    exact ⟨Nat.le_of_lt h.1, Nat.le_of_lt h.2⟩

theorem contains_of_onGrid? (h : i.onGrid? e = some c) : i.contains c e = true := by
  rw [onGrid?] at h
  split at h
  next h₁ h₂ =>
    cases h
    rw [nearer]
    split <;> assumption
  next h₁ _ =>
    cases h
    exact h₁
  next _ h₂ =>
    cases h
    exact h₂
  next => cases h

/-- The numbers of an interval are positive, and not so small that their first digit is not found. -/
structure Proper (i : Interval) : Prop where
  den_pos : 0 < i.den
  low_pos : 0 < i.low
  mid_le : i.mid ≤ i.high
  bounded : i.den ≤ i.mid * tenTo 400

namespace Proper

variable (h : i.Proper)
include h

/-- The number has a digit at its leading exponent. -/
theorem zpow_leadingExponent_le : (10 : ℚ) ^ i.leadingExponent ≤ i.mid / i.den := by
  have hden : (0 : ℚ) < i.den := by exact_mod_cast h.den_pos
  rw [leadingExponent]
  split
  next hle =>
    have hpos : 0 < i.mid / i.den := Nat.div_pos hle h.den_pos
    have hlen : 0 < (chars (i.mid / i.den)).length := List.length_pos_iff.2 (chars_ne_nil _)
    have hcast : ((chars (i.mid / i.den)).length : Int) - 1 = ((chars (i.mid / i.den)).length - 1 : Nat) := by
      omega
    rw [hcast, zpow_natCast]
    calc (10 : ℚ) ^ ((chars (i.mid / i.den)).length - 1)
        ≤ ((i.mid / i.den : Nat) : ℚ) := by exact_mod_cast pow_length_chars_le _ hpos
      _ ≤ i.mid / i.den := Nat.cast_div_le
  next =>
    have hten : ∀ n : Nat, i.den ≤ i.mid * tenTo n → (10 : ℚ) ^ (-(n : Int)) ≤ i.mid / i.den := by
      intro n hn
      have := (mul_zpow_le_div_iff (a := 1) (b := i.mid) (e := -(n : Int)) h.den_pos).2
        (by simpa [tenTo] using hn)
      simpa using this
    split
    next k hk => exact_mod_cast hten (k + 1) (by simpa using List.find?_some hk)
    next => exact_mod_cast hten 400 h.bounded

/-- On a grid finer than the leading digit the number below is a positive multiple. -/
theorem floorAt_pos (he : e ≤ i.leadingExponent) : 0 < i.floorAt e := by
  have hden : 0 < i.den * tenTo e.toNat := Nat.mul_pos h.den_pos (Nat.pow_pos (by decide))
  have hle : (10 : ℚ) ^ e ≤ i.mid / i.den :=
    le_trans (zpow_le_zpow_right₀ (by norm_num) he) h.zpow_leadingExponent_le
  have hle := (mul_zpow_le_div_iff (a := 1) (b := i.mid) h.den_pos).1 (by simpa using hle)
  rw [Nat.one_mul, Nat.mul_comm] at hle
  exact Nat.div_pos hle hden

theorem floorAt_le : (i.floorAt e : ℚ) * 10 ^ e ≤ i.high / i.den := by
  rw [mul_zpow_le_div_iff h.den_pos, Nat.mul_assoc, Nat.mul_comm (tenTo e.toNat)]
  exact Nat.le_trans (Nat.div_mul_le_self _ _) (Nat.mul_le_mul_right _ h.mid_le)

/-- **The shortest decimal is positive and rounds to the number**, or at least is not above all that do. -/
theorem shortest_spec : 0 < i.shortest.coefficient ∧ i.shortest.val ≤ i.high / i.den := by
  rw [shortest]
  split
  next c e hfind =>
    obtain ⟨k, -, hk⟩ := List.exists_of_findSome?_eq_some hfind
    obtain ⟨c', hc, heq⟩ := Option.map_eq_some_iff.1 hk
    cases heq
    obtain ⟨hlow, hhigh⟩ := bounds_of_contains (contains_of_onGrid? hc)
    refine ⟨Nat.pos_of_ne_zero ?_, (mul_zpow_le_div_iff h.den_pos).2 hhigh⟩
    -- Zero is below the interval.
    rintro rfl
    rw [Nat.zero_mul, Nat.zero_mul, Nat.le_zero] at hlow
    exact absurd hlow (Nat.ne_of_gt (Nat.mul_pos h.low_pos (Nat.pow_pos (by decide))))
  next => exact ⟨h.floorAt_pos (by omega), h.floorAt_le⟩

end Proper

end Interval

/-- A bound on a decimal, with both sides in units of its last digit. -/
theorem Scientific.mul_pow_le (s : Scientific) {limit n k : Nat} (h : s.val ≤ limit)
    (hn : (n : Int) = s.exponent + k) : s.coefficient * 10 ^ n ≤ limit * 10 ^ k := by
  have hten : (10 : ℚ) ^ n = 10 ^ s.exponent * 10 ^ k := by
    rw [← zpow_natCast, hn, zpow_add₀ (by norm_num), zpow_natCast]
  have hle : (s.coefficient : ℚ) * 10 ^ n ≤ limit * 10 ^ k := by
    rw [hten, ← mul_assoc]
    exact mul_le_mul_of_nonneg_right h (by positivity)
  exact_mod_cast hle

theorem Scientific.trim_spec (s : Scientific) (h : 0 < s.coefficient) :
    0 < s.trim.coefficient ∧ s.trim.val = s.val := by
  induction s using Scientific.trim.induct with
  | case1 s hs ih =>
    obtain ⟨hpos, hval⟩ := ih (by dsimp only; omega)
    rw [trim, dif_pos hs]
    refine ⟨hpos, hval.trans ?_⟩
    have hten : s.coefficient = s.coefficient / 10 * 10 := by omega
    have hcast : (s.coefficient : ℚ) = (s.coefficient / 10 : Nat) * 10 := by exact_mod_cast hten
    rw [val, val, hcast, zpow_add_one₀ (by norm_num)]
    ring
  | case2 s hs =>
    rw [trim, dif_neg hs]
    exact ⟨h, rfl⟩

theorem one_shiftLeft_pos (n : Nat) : 0 < 1 <<< n := by
  rw [Nat.one_shiftLeft]
  exact Nat.two_pow_pos n

theorem two_pow_le_tenTo {n k : Nat} (h : n ≤ 3 * k) : 2 ^ n ≤ tenTo k := by
  calc 2 ^ n ≤ 2 ^ (3 * k) := Nat.pow_le_pow_right (by decide) h
    _ = 8 ^ k := Nat.pow_mul 2 3 k
    _ ≤ 10 ^ k := Nat.pow_le_pow_left (by decide) k

theorem proper_ofBinary {m : Nat} {q : Int} (narrow : Bool) (hm : 0 < m) (hq : -1074 ≤ q) :
    (Interval.ofBinary m q narrow).Proper := by
  have hscale := one_shiftLeft_pos (q - 2).toNat
  have hsub : (if narrow then 1 else 2) ≤ 2 := by cases narrow <;> decide
  refine ⟨one_shiftLeft_pos _, Nat.mul_pos (by omega) hscale, Nat.mul_le_mul_right _ (by omega), ?_⟩
  have hmid : 1 ≤ 4 * m * 1 <<< (q - 2).toNat := Nat.mul_pos (by omega) hscale
  calc 1 <<< (2 - q).toNat
      ≤ 1 * tenTo 400 := by
        rw [Nat.one_shiftLeft, Nat.one_mul]
        exact two_pow_le_tenTo (by omega)
    _ ≤ 4 * m * 1 <<< (q - 2).toNat * tenTo 400 := Nat.mul_le_mul_right _ hmid

open Rounding in
/-- A finite double that is not among the greatest five is written as a decimal below the limit. -/
theorem shortest_ofBinary_le {m : Nat} {q : Int} {narrow : Bool} (hm : 0 < m) (hlt : m < 2 ^ 53)
    (hq : -1074 ≤ q) (hq' : q ≤ 971) (htop : q ≠ 971 ∨ m < 2 ^ 53 - 5) :
    (Interval.ofBinary m q narrow).shortest.val ≤ scaleLimit := by
  have h := proper_ofBinary narrow hm hq
  have hden : (1 : ℚ) ≤ (Interval.ofBinary m q narrow).den := by exact_mod_cast h.den_pos
  have hhigh : (Interval.ofBinary m q narrow).high ≤ scaleLimit := by
    change (4 * m + 2) * 1 <<< (q - 2).toNat ≤ scaleLimit
    rw [Nat.one_shiftLeft]
    generalize hk : (q - 2).toNat = k
    rcases Nat.lt_or_ge m (2 ^ 53 - 5) with hm' | hm'
    · calc (4 * m + 2) * 2 ^ k = (2 * m + 1) * 2 ^ (k + 1) := by rw [Nat.pow_succ]; ring
        _ ≤ scaleLimit := le_scaleLimit (by omega) (by omega)
    · calc (4 * m + 2) * 2 ^ k ≤ (2 ^ 54 - 11) * 4 * 2 ^ k := Nat.mul_le_mul_right _ (by omega)
        _ = (2 ^ 54 - 11) * 2 ^ (k + 2) := by rw [Nat.pow_add]; ring
        _ ≤ scaleLimit := le_scaleLimit (Nat.le_refl _) (by omega)
  have hhigh : ((Interval.ofBinary m q narrow).high : ℚ) ≤ scaleLimit := by exact_mod_cast hhigh
  calc (Interval.ofBinary m q narrow).shortest.val
      ≤ (Interval.ofBinary m q narrow).high / (Interval.ofBinary m q narrow).den := h.shortest_spec.2
    _ ≤ (Interval.ofBinary m q narrow).high := div_le_self (Nat.cast_nonneg _) hden
    _ ≤ scaleLimit := hhigh

theorem leadingExponent_greatest :
    ∀ k < 5, (Interval.ofBinary (2 ^ 53 - 5 + k) 971 false).leadingExponent = 308 := by
  have hbounds : ∀ k < 5, let i := Interval.ofBinary (2 ^ 53 - 5 + k) 971 false
      i.den ≤ i.mid ∧ tenTo 308 ≤ i.mid / i.den ∧ i.mid / i.den < tenTo 309 := by decide +kernel
  intro k hk
  obtain ⟨hle, hlow, hhigh⟩ := hbounds k hk
  rw [Interval.leadingExponent, if_pos hle, length_chars hlow hhigh]
  rfl

/-- The greatest five doubles, as they are written. -/
def greatestDecimals : List Scientific :=
  [⟨1797693134862315, 293⟩, ⟨17976931348623151, 292⟩, ⟨17976931348623153, 292⟩, ⟨17976931348623155, 292⟩,
    ⟨17976931348623157, 292⟩]

/-- The first digit is found without writing the number out, which the grids are then laid from. -/
theorem shortest_greatest :
    ∀ k < 5, (Interval.ofBinary (2 ^ 53 - 5 + k) 971 false).shortest.trim ∈ greatestDecimals := by
  have hgrid : ∀ k < 5, ((List.range 20).findSome? fun (n : Nat) =>
      ((Interval.ofBinary (2 ^ 53 - 5 + k) 971 false).onGrid? (308 - n)).map fun c => (c, (308 : Int) - n)).any
        (fun (c, e) => (Scientific.mk c e).trim ∈ greatestDecimals) = true := by decide +kernel
  intro k hk
  have hany := hgrid k hk
  rw [Interval.shortest, leadingExponent_greatest k hk]
  split
  next c e hfind =>
    rw [hfind] at hany
    exact of_decide_eq_true hany
  next hfind =>
    rw [hfind] at hany
    cases hany

end FormProgram.Decimal
