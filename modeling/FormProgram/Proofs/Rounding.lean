/-
Upper bounds for rounded doubles.

`Within top x`: the double `x` is finite, and the unit of its last place is `2^top` at most. A product, a
quotient or a converted word is within `top` if its exact value is clearly below `2^(top + 53)`
(`within_round`), so the operations that read a decimal cannot overflow unless the decimal is beyond the
doubles.
-/
import FormProgram.Json.Number
import Mathlib.Tactic.NormNum
import Mathlib.Tactic.Positivity
import Mathlib.Tactic.Ring

set_option autoImplicit false

namespace FormProgram.Rounding

open Float.Model UnpackedFloat

/-- The format of the doubles. -/
abbrev double : Format := Format.binary64

variable {m k : Nat} {e top : Int} {s : Sign} {a : Accuracy}

/-! ## One rounding -/

/-- The exponent that the format wants for `m * 2^e`. -/
theorem targetExponent_eq : double.targetExponent (totalExponent m e) = max (m.log2 + e - 52) (-1074) := by
  have hbits : double.mantissaBits = 53 := rfl
  simp only [Format.targetExponent, totalExponent, Format.minExponent, hbits]
  omega

theorem mantissa_shiftRight (em : ExtendedMantissa) (k : Nat) : (em >>> k).mantissa = em.mantissa / 2 ^ k := by
  induction k with
  | zero => exact (Nat.div_one _).symm
  | succ k ih =>
    change (em >>> k).mantissa / 2 = _
    rw [ih, Nat.div_div_eq_div_mul, Nat.pow_succ]

theorem roundedMantissa_bounds (em : ExtendedMantissa) :
    em.mantissa ≤ em.roundedMantissa ∧ em.roundedMantissa ≤ em.mantissa + 1 := by
  obtain ⟨m, round, sticky⟩ := em
  cases round <;> cases sticky <;>
    simp only [ExtendedMantissa.roundedMantissa, ExtendedMantissa.accuracy, Accuracy.roundToNearestEven] <;>
    omega

/-- Bits dropped to reach the wanted exponent. -/
def dropped (m : Nat) (e : Int) : Nat := (max (m.log2 + e - 52) (-1074) - e).toNat

theorem shift_mantissa : (shiftToTargetExponent double m e a).1.mantissa = m / 2 ^ dropped m e := by
  rw [shiftToTargetExponent, targetExponent_eq, shiftToExponent, mantissa_shiftRight]
  cases a with
  | exact => rfl
  | inexact o => cases o <;> rfl

theorem shift_exponent : (shiftToTargetExponent double m e a).2 = e + dropped m e := by
  rw [shiftToTargetExponent, targetExponent_eq]
  rfl

theorem lt_two_pow_of_dropped : m / 2 ^ dropped m e < 2 ^ 53 := by
  have hle : m.log2 + 1 ≤ dropped m e + 53 := by
    rw [dropped]
    omega
  rw [Nat.div_lt_iff_lt_mul (Nat.two_pow_pos _), ← Nat.pow_add, Nat.add_comm 53]
  exact Nat.lt_of_lt_of_le Nat.lt_log2_self (Nat.pow_le_pow_right (by decide) hle)

/-- The mantissa after the first rounding. -/
def rounded (m : Nat) (e : Int) (a : Accuracy) : Nat := (shiftToTargetExponent double m e a).1.roundedMantissa

theorem rounded_bounds : m / 2 ^ dropped m e ≤ rounded m e a ∧ rounded m e a ≤ m / 2 ^ dropped m e + 1 := by
  rw [← shift_mantissa (a := a)]
  exact roundedMantissa_bounds _

theorem rounded_le : rounded m e a ≤ 2 ^ 53 := by
  have h := (rounded_bounds (m := m) (e := e) (a := a)).2
  have hlt := lt_two_pow_of_dropped (m := m) (e := e)
  omega

/-- The exponent of a rounded number: that of the first rounding, or one more if that carried. -/
theorem round_eq : roundWithAccuracy double s m e a =
    let r := rounded m e a
    let e := e + dropped m e
    if h : r / 2 ^ dropped r e = 0 then .zero s
    else .finite s (r / 2 ^ dropped r e) (e + dropped r e) (Nat.pos_of_ne_zero h) := by
  have hround : roundWithAccuracy double s m e a =
      let second := shiftToTargetExponent double (rounded m e a) (shiftToTargetExponent double m e a).2 .exact
      if h : second.1.mantissa = 0 then .zero s
      else .finite s second.1.mantissa second.2 (Nat.pos_of_ne_zero h) := rfl
  rw [hround, shift_exponent]
  have hmantissa := shift_mantissa (m := rounded m e a) (e := e + dropped m e) (a := .exact)
  have hexponent := shift_exponent (m := rounded m e a) (e := e + dropped m e) (a := .exact)
  generalize shiftToTargetExponent double (rounded m e a) (e + dropped m e) .exact = second at *
  obtain ⟨⟨m', round, sticky⟩, e'⟩ := second
  cases hmantissa
  cases hexponent
  rfl

/-- Finite, with an exponent of `top` at most. -/
def UnpackedWithin (top : Int) : UnpackedFloat → Prop
  | .zero _ => True
  | .finite _ _ e _ => e ≤ top
  | _ => False

theorem log2_lt_of_lt (hk : 0 < k) (h : m < 2 ^ k) : m.log2 < k := by
  by_cases h0 : m = 0
  · subst h0
    rwa [Nat.log2_zero]
  · exact (Nat.log2_lt h0).2 h

/-- A number below `(2^53 - 1) * 2^top` is rounded to one with an exponent of `top` at most. -/
theorem unpackedWithin_round (htop : -1074 ≤ top) (he : e ≤ top)
    (hm : m < (2 ^ 53 - 1) * 2 ^ (top - e).toNat) : UnpackedWithin top (roundWithAccuracy double s m e a) := by
  have hlog : m.log2 < 53 + (top - e).toNat := by
    refine log2_lt_of_lt (by omega) (Nat.lt_of_lt_of_le hm ?_)
    rw [Nat.pow_add]
    exact Nat.mul_le_mul_right _ (by decide)
  have hfirst : e + dropped m e ≤ top := by
    rw [dropped]
    omega
  -- The first rounding carries only where it has left room for one more bit to be dropped.
  have hsecond : (rounded m e a).log2 + (e + dropped m e) - 52 ≤ top := by
    rcases Int.lt_or_eq_of_le hfirst with hlt | heq
    · have hr : (rounded m e a).log2 < 54 :=
        log2_lt_of_lt (by decide) (Nat.lt_of_le_of_lt rounded_le (by decide))
      omega
    · have hd : (top - e).toNat = dropped m e := by omega
      have hfloor : m / 2 ^ dropped m e < 2 ^ 53 - 1 := by
        rw [Nat.div_lt_iff_lt_mul (Nat.two_pow_pos _), ← hd]
        exact hm
      have hle := (rounded_bounds (m := m) (e := e) (a := a)).2
      have hr : (rounded m e a).log2 < 53 := log2_lt_of_lt (by decide) (by omega)
      omega
  rw [round_eq]
  dsimp only
  generalize he₁ : e + (dropped m e : Int) = e₁ at *
  by_cases hzero : rounded m e a / 2 ^ dropped (rounded m e a) e₁ = 0
  · rw [dif_pos hzero]
    trivial
  · rw [dif_neg hzero]
    change e₁ + (dropped (rounded m e a) e₁ : Int) ≤ top
    simp only [dropped] at *
    omega

/-! ## Rounding a number with bits enough -/

theorem dropped_of_normal (hlog : 52 ≤ m.log2) (hmin : -1074 ≤ e) : dropped m e = m.log2 - 52 := by
  rw [dropped]
  omega

theorem le_div_of_log2 {n : Nat} (hlog : n + k ≤ m.log2) (hk : 0 < n) : 2 ^ n ≤ m / 2 ^ k := by
  have h0 : m ≠ 0 := by
    rintro rfl
    rw [Nat.log2_zero] at hlog
    omega
  rw [Nat.le_div_iff_mul_le (Nat.two_pow_pos _), ← Nat.pow_add]
  exact (Nat.le_log2 h0).1 hlog

/-- The rounding adds `2^-52` of the number at most. -/
theorem round_normal (hlog : 52 ≤ m.log2) (hmin : -1074 ≤ e) : ∃ m' d, ∃ hm : 0 < m',
    roundWithAccuracy double s m e a = .finite s m' (e + (d : Nat)) hm ∧
      2 ^ 52 ≤ m' ∧ m' < 2 ^ 53 ∧ m.log2 - 52 ≤ d ∧ d ≤ m.log2 - 51 ∧
      m' * 2 ^ d * 2 ^ 52 ≤ m * (2 ^ 52 + 1) := by
  have h0 : m ≠ 0 := by
    rintro rfl
    exact absurd hlog (by decide)
  have hd := dropped_of_normal hlog hmin
  obtain ⟨hlow, hhigh⟩ := rounded_bounds (m := m) (e := e) (a := a)
  have hle : rounded m e a ≤ 2 ^ 53 := rounded_le
  have hnormal : 2 ^ 52 ≤ rounded m e a := Nat.le_trans (le_div_of_log2 (by omega) (by decide)) hlow
  generalize hr : rounded m e a = r at *
  have hrlog : 52 ≤ r.log2 := (Nat.le_log2 (by omega)).2 hnormal
  have hrlog' : r.log2 < 54 := log2_lt_of_lt (by decide) (Nat.lt_of_le_of_lt hle (by decide))
  have hd₂ := dropped_of_normal hrlog (e := e + dropped m e) (by omega)
  have hm' : 2 ^ 52 ≤ r / 2 ^ dropped r (e + dropped m e) := le_div_of_log2 (by omega) (by decide)
  refine ⟨r / 2 ^ dropped r (e + dropped m e), dropped m e + dropped r (e + dropped m e), by omega, ?_, hm',
    lt_two_pow_of_dropped, by omega, by omega, ?_⟩
  · rw [round_eq, hr]
    dsimp only
    rw [dif_neg (by omega), Int.natCast_add, Int.add_assoc]
  · generalize dropped r (e + dropped m e) = d₂ at *
    have hunit : 2 ^ dropped m e * 2 ^ 52 ≤ m := by
      rw [hd, ← Nat.pow_add, Nat.sub_add_cancel hlog]
      exact Nat.log2_self_le h0
    calc r / 2 ^ d₂ * 2 ^ (dropped m e + d₂) * 2 ^ 52
        = r / 2 ^ d₂ * 2 ^ d₂ * (2 ^ dropped m e * 2 ^ 52) := by rw [Nat.pow_add]; ring
      _ ≤ r * (2 ^ dropped m e * 2 ^ 52) := Nat.mul_le_mul_right _ (Nat.div_mul_le_self _ _)
      _ ≤ (m / 2 ^ dropped m e + 1) * (2 ^ dropped m e * 2 ^ 52) := Nat.mul_le_mul_right _ hhigh
      _ = m / 2 ^ dropped m e * 2 ^ dropped m e * 2 ^ 52 + 2 ^ dropped m e * 2 ^ 52 := by ring
      _ ≤ m * 2 ^ 52 + m :=
        Nat.add_le_add (Nat.mul_le_mul_right _ (Nat.div_mul_le_self _ _)) hunit
      _ = m * (2 ^ 52 + 1) := by ring

theorem finite_congr {m' : Nat} {e' : Int} {hm : 0 < m} {hm' : 0 < m'} (h : m = m') (he : e = e') :
    UnpackedFloat.finite s m e hm = .finite s m' e' hm' := by
  subst h he
  rfl

/-- What a double of 64 bits stands for, by its fields. -/
theorem unpack_double (b : BitVec double.numBits) :
    UnpackedFloat.unpack double b =
      if unpackExponent b = -1#11 then
        if unpackMantissa b = 0#52 then .infinity (.ofBitVec (unpackSign b)) else .notANumber
      else if unpackExponent b = 0#11 then
        if h : (unpackMantissa b).toNat = 0 then .zero (.ofBitVec (unpackSign b))
        else .finite (.ofBitVec (unpackSign b)) (unpackMantissa b).toNat (-1074) (Nat.pos_of_ne_zero h)
      else .finite (.ofBitVec (unpackSign b)) (2 ^ 52 + (unpackMantissa b).toNat) ((unpackExponent b).toNat - 1075)
        (by omega) := by
  have hzero : unpackMantissa b = 0#52 ↔ (unpackMantissa b).toNat = 0 := by
    rw [← BitVec.toNat_inj]
    rfl
  have hwhole : (1#1 ++ unpackMantissa b).toNat = 2 ^ 52 + (unpackMantissa b).toNat := by
    rw [BitVec.toNat_append, ← Nat.shiftLeft_add_eq_or_of_lt (unpackMantissa b).isLt]
    rfl
  refine if_congr Iff.rfl rfl (ite_congr rfl (fun hsubnormal => ?_) fun _ => ?_)
  · by_cases h : unpackMantissa b = 0#52
    · rw [dif_pos h, dif_pos (hzero.1 h)]
    · rw [dif_neg h, dif_neg (mt hzero.2 h)]
      exact finite_congr rfl (by rw [hsubnormal]; rfl)
  · exact finite_congr hwhole rfl

theorem sign_packComponents {ex : BitVec 11} {fraction : BitVec 52} :
    Sign.ofBitVec (unpackSign (packComponents double s ex fraction)) = s := by
  have hbit : unpackSign (packComponents double s ex fraction) = s.toBitVec := by
    change BitVec.extractLsb' 63 1 (s.toBitVec ++ ex ++ fraction) = s.toBitVec
    rw [BitVec.extractLsb'_append_eq_of_le (by decide), BitVec.extractLsb'_append_eq_of_le (by decide)]
    exact BitVec.extractLsb'_eq_self
  rw [hbit]
  cases s <;> rfl

/-- What packed fields stand for, when the exponent field is not that of the infinities. -/
theorem unpack_components {ex : BitVec 11} {fraction : BitVec 52} (hex : ex.toNat < 2047) :
    UnpackedFloat.unpack double (packComponents double s ex fraction) =
      if ex.toNat = 0 then
        if h : fraction.toNat = 0 then .zero s
        else .finite s fraction.toNat (-1074) (Nat.pos_of_ne_zero h)
      else .finite s (2 ^ 52 + fraction.toNat) (ex.toNat - 1075) (by omega) := by
  have hinf : ex ≠ -1#11 := by
    rintro rfl
    exact absurd hex (by decide)
  have hzero : ex = 0#11 ↔ ex.toNat = 0 := by
    rw [← BitVec.toNat_inj]
    rfl
  have hexponent : @unpackExponent double (packComponents double s ex fraction) = ex := unpackExponent_packComponents
  have hmantissa : @unpackMantissa double (packComponents double s ex fraction) = fraction :=
    unpackMantissa_packComponents
  have hsign : Sign.ofBitVec (@unpackSign double (packComponents double s ex fraction)) = s := sign_packComponents
  generalize packComponents double s ex fraction = b at *
  subst hexponent hmantissa hsign
  rw [unpack_double, if_neg hinf]
  exact if_congr hzero rfl rfl

theorem pack_finite (hm : 0 < m) (he : e ≤ 971) : UnpackedFloat.pack double (.finite s m e hm) =
    packComponents double s (if m.log2 = 52 then BitVec.ofNat 11 (e + 1075).toNat else 0#11)
      (BitVec.ofNat 52 m) := by
  have hbias : e + (double.exponentBias : Int) + (double.mantissaBitsWithoutImplicit : Int) = e + 1075 := by
    change e + 1023 + 52 = _
    omega
  have hinf : ¬ 2 ^ 11 ≤ (e + 1075).toNat + 1 := by omega
  have hbits : m.log2 + 1 = double.mantissaBits ↔ m.log2 = 52 := by
    change m.log2 + 1 = 53 ↔ _
    omega
  have hfield : (e + (double.exponentBias : Int) + (double.mantissaBitsWithoutImplicit : Int)).toNat =
      (e + 1075).toNat := by rw [hbias]
  refine (if_neg (hfield ▸ hinf)).trans ?_
  rw [hfield]
  by_cases h : m.log2 = 52
  · rw [if_pos h, if_pos (hbits.2 h)]
  · rw [if_neg h, if_neg (mt hbits.1 h)]

theorem toNat_exponent_field (he : e ≤ 971) :
    (if m.log2 = 52 then BitVec.ofNat 11 (e + 1075).toNat else 0#11).toNat =
      if m.log2 = 52 then (e + 1075).toNat else 0 := by
  split
  · rw [BitVec.toNat_ofNat, Nat.mod_eq_of_lt (by omega)]
  · rfl

/-! ## Doubles within a bound -/

/-- Packing and unpacking keeps an exponent that is not beyond the greatest. -/
theorem unpackedWithin_pack {u : UnpackedFloat} (hmin : -1074 ≤ top) (hmax : top ≤ 971)
    (h : UnpackedWithin top u) : UnpackedWithin top (Float.Model.pack u).unpack := by
  cases u with
  | notANumber => cases h
  | infinity => cases h
  | zero s =>
    change UnpackedWithin top (UnpackedFloat.unpack double (packComponents double s 0#11 0#52))
    rw [unpack_components (by decide)]
    trivial
  | finite s m e hm =>
    have he : e ≤ top := h
    change UnpackedWithin top (UnpackedFloat.unpack double (UnpackedFloat.pack double (.finite s m e hm)))
    rw [pack_finite hm (by omega)]
    have hfield := toNat_exponent_field (m := m) (Int.le_trans he hmax)
    generalize (if m.log2 = 52 then BitVec.ofNat 11 (e + 1075).toNat else 0#11) = field at *
    have hle : field.toNat ≤ (e + 1075).toNat := by
      rw [hfield]
      split <;> omega
    rw [unpack_components (by omega)]
    by_cases hsubnormal : field.toNat = 0
    · rw [if_pos hsubnormal]
      by_cases hzero : (BitVec.ofNat 52 m).toNat = 0
      · rw [dif_pos hzero]
        trivial
      · rw [dif_neg hzero]
        exact hmin
    · rw [if_neg hsubnormal]
      change (field.toNat : Int) - 1075 ≤ top
      omega

/-- A number with all its bits that is not beyond the greatest double is packed as it is. -/
theorem unpack_pack_normal (hm : 0 < m) (hlow : 2 ^ 52 ≤ m) (hhigh : m < 2 ^ 53) (hmin : -1074 ≤ e)
    (hmax : e ≤ 971) : (Float.Model.pack (.finite s m e hm)).unpack = .finite s m e hm := by
  have hlog : m.log2 = 52 := (Nat.log2_eq_iff (by omega)).2 ⟨hlow, hhigh⟩
  have hfraction : (BitVec.ofNat 52 m).toNat = m - 2 ^ 52 := by
    rw [BitVec.toNat_ofNat, Nat.mod_eq_sub_mod hlow, Nat.mod_eq_of_lt (by omega)]
  have hfield := toNat_exponent_field (m := m) hmax
  change UnpackedFloat.unpack double (UnpackedFloat.pack double (.finite s m e hm)) = _
  rw [pack_finite hm hmax]
  generalize (if m.log2 = 52 then BitVec.ofNat 11 (e + 1075).toNat else 0#11) = field at *
  rw [if_pos hlog] at hfield
  rw [unpack_components (by omega), if_neg (by omega)]
  have he : (field.toNat : Int) - 1075 = e := by omega
  exact finite_congr (by rw [hfraction, Nat.add_sub_cancel' hlow]) he

/-- Finite, and the unit of the last place is `2^top` at most. -/
def Within (top : Int) (x : Float) : Prop := UnpackedWithin top x.toModel.unpack

theorem Within.isFinite {x : Float} (h : Within top x) : x.isFinite = true := by
  change x.toModel.unpack.isFinite = true
  unfold Within at h
  cases hu : x.toModel.unpack with
  | zero => rfl
  | finite => rfl
  | infinity | notANumber =>
    rw [hu] at h
    cases h

theorem Within.isInf {x : Float} (h : Within top x) : x.isInf = false := by
  change x.toModel.unpack.isInf = false
  unfold Within at h
  cases hu : x.toModel.unpack with
  | zero | finite | notANumber => rfl
  | infinity =>
    rw [hu] at h
    cases h

theorem Within.mono {x : Float} {top' : Int} (h : Within top x) (hle : top ≤ top') : Within top' x := by
  unfold Within at *
  cases hu : x.toModel.unpack with
  | zero => trivial
  | finite =>
    rw [hu] at h
    exact Int.le_trans h hle
  | infinity | notANumber =>
    rw [hu] at h
    cases h

theorem Within.neg {x : Float} (hmin : -1074 ≤ top) (hmax : top ≤ 971) (h : Within top x) :
    Within top (-x) := by
  refine unpackedWithin_pack hmin hmax ?_
  unfold Within at h
  cases hu : x.toModel.unpack <;> rw [hu] at h <;> exact h

/-! ## Words, powers of ten, products and quotients -/

/-- A positive double with all its bits. -/
structure Normal (x : Float) (m : Nat) (e : Int) : Prop where
  pos : 0 < m
  unpack : x.toModel.unpack = .finite .positive m e pos
  low : 2 ^ 52 ≤ m
  high : m < 2 ^ 53

theorem unpack_toFloat_zero : (UInt64.ofNat 0).toFloat.toModel.unpack = .zero .positive := rfl

/-- A word as a double, which is larger by `2^-52` of the word at most. -/
theorem normal_toFloat {c : Nat} (h0 : 0 < c) (hc : c < Decimal.wordLimit) :
    ∃ m e, Normal (UInt64.ofNat c).toFloat m e ∧ -52 ≤ e ∧ e ≤ 12 ∧
      m * 2 ^ (e + 52).toNat ≤ c * (2 ^ 52 + 1) := by
  have hc : c < 2 ^ 64 := hc
  have hword : (UInt64.ofNat c).toNat = c := UInt64.toNat_ofNat_of_lt' hc
  have hlog : c.log2 < 64 := log2_lt_of_lt (by decide) hc
  have hround : (UInt64.ofNat c).toFloat.toModel = Float.Model.pack (round double .positive c 0) := by
    change Float.Model.pack (normalize double ((UInt64.ofNat c).toNat : Int) 0 .positive) = _
    have hpos : compare (c : Int) 0 = .gt := Int.compare_eq_gt.2 (by omega)
    rw [hword, UnpackedFloat.normalize, hpos]
    rfl
  have hshift : round double .positive c 0 =
      roundWithAccuracy double .positive (c <<< (52 - c.log2)) (-((52 - c.log2 : Nat) : Int)) .exact := by
    have hk : (0 - max ((c.log2 : Int) + 0 - 52) (-1074)).toNat = 52 - c.log2 := by omega
    rw [UnpackedFloat.round, targetExponent_eq, decreaseExponent]
    simp only [hk]
    rw [Int.zero_sub]
  generalize hk : 52 - c.log2 = k at *
  have hcode : 2 ^ c.log2 * 2 ^ k ≤ c * 2 ^ k := Nat.mul_le_mul_right _ (Nat.log2_self_le (by omega))
  have hlow : 52 ≤ (c <<< k).log2 := by
    rw [Nat.shiftLeft_eq, Nat.le_log2 (by have := Nat.two_pow_pos k; positivity)]
    refine Nat.le_trans ?_ hcode
    rw [← Nat.pow_add]
    exact Nat.pow_le_pow_right (by decide) (by omega)
  have hhigh : (c <<< k).log2 < 64 + k := by
    refine log2_lt_of_lt (by omega) ?_
    rw [Nat.shiftLeft_eq, Nat.pow_add]
    exact Nat.mul_lt_mul_of_pos_right hc (Nat.two_pow_pos k)
  obtain ⟨m, d, hm, hr, hlo, hhi, -, hd, hv⟩ := round_normal (s := .positive) (a := .exact) hlow
    (e := -(k : Int)) (by omega)
  refine ⟨m, -(k : Int) + d, ⟨hm, ?_, hlo, hhi⟩, by omega, by omega, ?_⟩
  · rw [hround, hshift, hr]
    exact unpack_pack_normal hm hlo hhi (by omega) (by omega)
  · -- Both sides are multiplied by `2^52`, and the shift by `k` is taken out of them.
    have he : (-(k : Int) + d + 52).toNat = d + (52 - k) := by omega
    have hk52 : 2 ^ k * 2 ^ (52 - k) = 2 ^ 52 := by
      rw [← Nat.pow_add, Nat.add_sub_cancel' (by omega)]
    refine Nat.le_of_mul_le_mul_right ?_ (Nat.two_pow_pos 52)
    calc m * 2 ^ (-(k : Int) + d + 52).toNat * 2 ^ 52
        = m * 2 ^ d * 2 ^ 52 * 2 ^ (52 - k) := by rw [he, Nat.pow_add]; ring
      _ ≤ c <<< k * (2 ^ 52 + 1) * 2 ^ (52 - k) := Nat.mul_le_mul_right _ hv
      _ = c * (2 ^ 52 + 1) * (2 ^ k * 2 ^ (52 - k)) := by rw [Nat.shiftLeft_eq]; ring
      _ = c * (2 ^ 52 + 1) * 2 ^ 52 := by rw [hk52]

/-- A power of ten as a double, which is larger by `2^-52` of the power at most. -/
structure IsPower (n : Nat) (m : Nat) (e : Int) : Prop extends Normal (Json.Literal.powerOfTen n) m e where
  least : -52 ≤ e
  close : m * 2 ^ (e + 52).toNat ≤ 10 ^ n * (2 ^ 52 + 1)

/-- `IsPower` as a check, with the exponent bounded from below. -/
def isPower (least : Int) (n : Nat) : Bool :=
  match (Json.Literal.powerOfTen n).toModel.unpack with
  | .finite .positive m e _ =>
    decide (2 ^ 52 ≤ m ∧ m < 2 ^ 53 ∧ -52 ≤ e ∧ least ≤ e ∧ m * 2 ^ (e + 52).toNat ≤ 10 ^ n * (2 ^ 52 + 1))
  | _ => false

theorem exists_isPower_of_check {n : Nat} {least : Int} (h : isPower least n = true) :
    ∃ m e, IsPower n m e ∧ least ≤ e := by
  unfold isPower at h
  split at h
  next m e hm hu =>
    obtain ⟨hlow, hhigh, he, hl, hc⟩ := of_decide_eq_true h
    exact ⟨m, e, ⟨⟨hm, hu, hlow, hhigh⟩, he, hc⟩, hl⟩
  next => cases h

theorem isPower_small : ∀ n < 23, isPower (-52) n = true := by decide +kernel

theorem isPower_greatest : isPower 0 308 = true := by decide +kernel

/-- The powers that are not in the table are multiplied out and rounded. -/
theorem powerOfTen_eq {n : Nat} (hlow : 22 < n) (hhigh : n < 308) : (Json.Literal.powerOfTen n).toModel =
    Float.Model.pack (roundWithAccuracy double .positive (2 ^ 53 * 10 ^ n) (-53) .exact) := by
  have hslow : ¬ (1 < 2 ^ 53 ∧ n ≤ 22) := by omega
  have hhuge : ¬ ((n : Int) > 2 ^ double.exponentBits) := by
    change ¬ ((n : Int) > 2048)
    omega
  have htiny : ¬ ((n : Int) < -((2 ^ double.exponentBits : Int) + (Nat.log2 1 : Nat))) := by
    change ¬ ((n : Int) < -2048)
    omega
  rw [Json.Literal.powerOfTen, Float.ofScientific, dif_neg hslow]
  simp only [Bool.false_eq_true, if_false, Float.Model.ofScientific, Int.ofNat_eq_natCast]
  rw [UnpackedFloat.ofScientific, dif_neg Nat.one_ne_zero, if_neg hhuge, if_neg htiny, if_pos (by omega)]
  rfl

theorem exists_isPower {n : Nat} (h : n ≤ 308) : ∃ m e, IsPower n m e := by
  by_cases hsmall : n < 23
  · obtain ⟨m, e, hp, -⟩ := exists_isPower_of_check (isPower_small n hsmall)
    exact ⟨m, e, hp⟩
  by_cases hlast : n = 308
  · subst hlast
    obtain ⟨m, e, hp, -⟩ := exists_isPower_of_check isPower_greatest
    exact ⟨m, e, hp⟩
  have hlog : 105 ≤ (2 ^ 53 * 10 ^ n).log2 := by
    have hten : 10 ^ 16 ≤ 10 ^ n := Nat.pow_le_pow_right (by decide) (by omega)
    rw [Nat.le_log2 (by positivity)]
    exact Nat.le_trans (by decide +kernel) (Nat.mul_le_mul_left (2 ^ 53) hten)
  have hlog' : (2 ^ 53 * 10 ^ n).log2 < 1074 := by
    have hten := Nat.pow_le_pow_right (by decide : 0 < 10) (by omega : n ≤ 307)
    refine log2_lt_of_lt (by decide) (Nat.lt_of_le_of_lt (Nat.mul_le_mul_left (2 ^ 53) hten) ?_)
    decide +kernel
  obtain ⟨m, d, hm, hr, hlo, hhi, hd, hd', hv⟩ := round_normal (s := .positive) (a := .exact) (e := -53)
    (by omega : 52 ≤ (2 ^ 53 * 10 ^ n).log2) (by omega)
  refine ⟨m, -53 + d, ⟨⟨hm, ?_, hlo, hhi⟩, by omega, ?_⟩⟩
  · rw [powerOfTen_eq (by omega) (by omega), hr]
    exact unpack_pack_normal hm hlo hhi (by omega) (by omega)
  · have he : (-53 + (d : Int) + 52).toNat + 1 = d := by omega
    rw [← he, Nat.pow_succ] at hv
    refine Nat.le_of_mul_le_mul_right (c := 2 ^ 53) ?_ (Nat.two_pow_pos 53)
    calc m * 2 ^ (-53 + (d : Int) + 52).toNat * 2 ^ 53
        = m * (2 ^ (-53 + (d : Int) + 52).toNat * 2) * 2 ^ 52 := by ring
      _ ≤ 2 ^ 53 * 10 ^ n * (2 ^ 52 + 1) := hv
      _ = 10 ^ n * (2 ^ 52 + 1) * 2 ^ 53 := by ring

variable {x y : Float} {m₁ m₂ : Nat} {e₁ e₂ : Int}

/-- A product that is clearly below the greatest double. -/
theorem Normal.within_mul (hx : Normal x m₁ e₁) (hy : Normal y m₂ e₂) (hx' : -52 ≤ e₁) (hy' : -52 ≤ e₂)
    (h : m₁ * 2 ^ (e₁ + 52).toNat * (m₂ * 2 ^ (e₂ + 52).toNat) < (2 ^ 53 - 1) * 2 ^ 1075) :
    Within 971 (x * y) := by
  have hexp : (e₁ + 52).toNat + (e₂ + 52).toNat = (e₁ + e₂ + 104).toNat := by omega
  have hvalue : m₁ * m₂ * 2 ^ (e₁ + e₂ + 104).toNat < (2 ^ 53 - 1) * 2 ^ 1075 := by
    rw [← hexp, Nat.pow_add]
    calc _ = m₁ * 2 ^ (e₁ + 52).toNat * (m₂ * 2 ^ (e₂ + 52).toNat) := by ring
      _ < _ := h
  have hmantissa : 2 ^ 104 ≤ m₁ * m₂ := Nat.le_trans (by norm_num) (Nat.mul_le_mul hx.low hy.low)
  have hsmall : e₁ + e₂ ≤ 971 := by
    have hlt : 2 ^ (104 + (e₁ + e₂ + 104).toNat) < 2 ^ 1128 := by
      rw [Nat.pow_add]
      refine Nat.lt_of_le_of_lt (Nat.mul_le_mul_right _ hmantissa) (Nat.lt_of_lt_of_le hvalue ?_)
      decide +kernel
    have := (Nat.pow_lt_pow_iff_right (by decide : 1 < 2)).1 hlt
    omega
  change UnpackedWithin 971
    (Float.Model.pack (UnpackedFloat.mul double x.toModel.unpack y.toModel.unpack)).unpack
  rw [hx.unpack, hy.unpack]
  refine unpackedWithin_pack (by decide) (by decide) (unpackedWithin_round (by decide) hsmall ?_)
  have htop : (971 - (e₁ + e₂)).toNat + (e₁ + e₂ + 104).toNat = 1075 := by omega
  rw [← htop, Nat.pow_add, ← Nat.mul_assoc] at hvalue
  exact Nat.lt_of_mul_lt_mul_right hvalue

theorem lt_of_unpack {b : BitVec double.numBits} {hm : 0 < m} (hu : UnpackedFloat.unpack double b = .finite s m e hm) :
    m < 2 ^ 53 := by
  have hfield := (unpackMantissa b).isLt
  rw [unpack_double] at hu
  by_cases hspecial : unpackExponent b = -1#11
  · rw [if_pos hspecial] at hu
    by_cases hinf : unpackMantissa b = 0#52
    · rw [if_pos hinf] at hu
      cases hu
    · rw [if_neg hinf] at hu
      cases hu
  rw [if_neg hspecial] at hu
  by_cases hsubnormal : unpackExponent b = 0#11
  · rw [if_pos hsubnormal] at hu
    by_cases hzero : (unpackMantissa b).toNat = 0
    · rw [dif_pos hzero] at hu
      cases hu
    · rw [dif_neg hzero] at hu
      cases hu
      exact Nat.lt_trans hfield (by decide : 2 ^ 52 < 2 ^ 53)
  · rw [if_neg hsubnormal] at hu
    cases hu
    exact Nat.add_lt_add_left hfield (2 ^ 52)

/-- A quotient by a normal double. -/
theorem Normal.within_div (hx : Within e₁ x) (hy : Normal y m₂ e₂) (he : e₁ - e₂ ≤ top) (hmin : -1074 ≤ top)
    (hmax : top ≤ 971) : Within top (x / y) := by
  change UnpackedWithin top
    (Float.Model.pack (UnpackedFloat.div double x.toModel.unpack y.toModel.unpack)).unpack
  rw [hy.unpack]
  refine unpackedWithin_pack hmin hmax ?_
  unfold Within at hx
  cases hu : x.toModel.unpack with
  | notANumber | infinity =>
    rw [hu] at hx
    cases hx
  | zero => trivial
  | finite s m e hm =>
    rw [hu] at hx
    have hx : e ≤ e₁ := hx
    have hlt := lt_of_unpack hu
    -- The quotient is taken with an exponent so low that it has all its bits.
    have hdiv : UnpackedFloat.div double (.finite s m e hm) (.finite .positive m₂ e₂ hy.pos) =
        let t := min (e - e₂) (double.targetExponent (totalExponent m e - totalExponent m₂ e₂))
        let n := m <<< (e - e₂ - t).toNat
        roundWithAccuracy double (s / .positive) (n / m₂) t (accuracyOfFraction (n % m₂) m₂) := rfl
    change UnpackedWithin top (UnpackedFloat.div double (.finite s m e hm) (.finite .positive m₂ e₂ hy.pos))
    rw [hdiv]
    dsimp only
    generalize ht : min (e - e₂) (double.targetExponent (totalExponent m e - totalExponent m₂ e₂)) = t
    refine unpackedWithin_round hmin (by omega) ?_
    have hshift : 2 ^ (e - e₂ - t).toNat ≤ 2 ^ (top - t).toNat := Nat.pow_le_pow_right (by decide) (by omega)
    rw [Nat.div_lt_iff_lt_mul hy.pos, Nat.shiftLeft_eq]
    calc m * 2 ^ (e - e₂ - t).toNat
        < 2 ^ 53 * 2 ^ (e - e₂ - t).toNat := Nat.mul_lt_mul_of_pos_right hlt (Nat.two_pow_pos _)
      _ ≤ 2 ^ 53 * 2 ^ (top - t).toNat := Nat.mul_le_mul_left _ hshift
      _ ≤ (2 ^ 53 - 1) * 2 ^ (top - t).toNat * 2 ^ 52 := by omega
      _ ≤ (2 ^ 53 - 1) * 2 ^ (top - t).toNat * m₂ := Nat.mul_le_mul_left _ hy.low

/-! ## Scaling by a power of ten -/

/-- Dividing by powers of ten does not lead out of the doubles. -/
theorem within_divide (hx : Within 12 x) : ∀ n, Within 64 (Json.Literal.divide x n) := by
  intro n
  induction n using Nat.strongRecOn generalizing x with
  | ind n ih =>
    rw [Json.Literal.divide]
    split
    next h =>
      obtain ⟨m₂, e₂, hp⟩ := exists_isPower h
      exact hp.within_div hx (by have := hp.least; omega) (by decide) (by decide)
    next h =>
      split
      next => exact hx.mono (by decide)
      next =>
        obtain ⟨m₂, e₂, hp, he⟩ := exists_isPower_of_check isPower_greatest
        exact ih (n - 308) (by omega) (hp.within_div hx (by omega) (by decide) (by decide))

theorem Normal.within {m : Nat} {e : Int} (h : Normal x m e) (he : e ≤ top) : Within top x := by
  rw [Within, h.unpack]
  exact he

theorem within_toFloat {c : Nat} (hc : c < Decimal.wordLimit) : Within 12 (UInt64.ofNat c).toFloat := by
  by_cases h0 : c = 0
  · subst h0
    rw [Within, unpack_toFloat_zero]
    trivial
  · obtain ⟨m, e, hn, -, he, -⟩ := normal_toFloat (Nat.pos_of_ne_zero h0) hc
    exact hn.within he

theorem within_zero_mul {n : Nat} (hn : n ≤ 308) :
    Within 971 ((UInt64.ofNat 0).toFloat * Json.Literal.powerOfTen n) := by
  obtain ⟨m, e, hp⟩ := exists_isPower hn
  change UnpackedWithin 971 (Float.Model.pack (UnpackedFloat.mul double (UInt64.ofNat 0).toFloat.toModel.unpack
    (Json.Literal.powerOfTen n).toModel.unpack)).unpack
  rw [unpack_toFloat_zero, hp.unpack]
  exact unpackedWithin_pack (by decide) (by decide) trivial

/-- A number that is clearly below the greatest double. -/
def scaleLimit : Nat := (2 ^ 54 - 11) * 2 ^ 970

theorem le_scaleLimit {a k : Nat} (ha : a ≤ 2 ^ 54 - 11) (hk : k ≤ 970) : a * 2 ^ k ≤ scaleLimit := by
  have hpow := Nat.pow_le_pow_right (by decide : 0 < 2) hk
  rw [scaleLimit]
  gcongr

/-- A power of ten that is not beyond the limit has a small exponent. -/
theorem lt_of_pow_le_scaleLimit {n : Nat} (h : 10 ^ n ≤ scaleLimit) : n < 309 := by
  by_contra hn
  have hten := Nat.pow_le_pow_right (by decide : 0 < 10) (Nat.le_of_not_lt hn)
  exact absurd (Nat.le_trans hten h) (by decide +kernel)

theorem within_toFloat_mul {c n : Nat} (hc : c < Decimal.wordLimit) (hn : n ≤ 308)
    (h : c * 10 ^ n ≤ scaleLimit) :
    Within 971 ((UInt64.ofNat c).toFloat * Json.Literal.powerOfTen n) := by
  by_cases h0 : c = 0
  · subst h0
    exact within_zero_mul hn
  obtain ⟨m₁, e₁, hx, he₁, -, hv₁⟩ := normal_toFloat (Nat.pos_of_ne_zero h0) hc
  obtain ⟨m₂, e₂, hy⟩ := exists_isPower hn
  refine hx.within_mul hy.toNormal he₁ hy.least ?_
  calc m₁ * 2 ^ (e₁ + 52).toNat * (m₂ * 2 ^ (e₂ + 52).toNat)
      ≤ c * (2 ^ 52 + 1) * (10 ^ n * (2 ^ 52 + 1)) := Nat.mul_le_mul hv₁ hy.close
    _ = c * 10 ^ n * (2 ^ 52 + 1) ^ 2 := by ring
    _ ≤ scaleLimit * (2 ^ 52 + 1) ^ 2 := Nat.mul_le_mul_right _ h
    _ < (2 ^ 53 - 1) * 2 ^ 1075 := by decide +kernel

/-- A decimal below the limit is read as a finite double. -/
theorem exists_scale {c : Nat} (exponent : Int) (hc : c < Decimal.wordLimit)
    (h : ∀ n : Nat, exponent = n → c * 10 ^ n ≤ scaleLimit) :
    ∃ x, Json.Literal.scale? c exponent = some x ∧ Within 971 x := by
  have hx := within_toFloat hc
  cases exponent with
  | negSucc n => exact ⟨_, rfl, (within_divide hx (n + 1)).mono (by decide)⟩
  | ofNat n =>
    have hlimit := h n rfl
    by_cases hn : n ≤ 308
    · have hmul := within_toFloat_mul hc hn hlimit
      refine ⟨_, ?_, hmul⟩
      simp only [Json.Literal.scale?, if_pos hn, hmul.isInf, Bool.false_eq_true, if_false]
    · -- A coefficient of one would be beyond the limit.
      have h0 : c = 0 := by
        by_contra h0
        have hle := Nat.le_trans (Nat.le_mul_of_pos_left (10 ^ n) (Nat.pos_of_ne_zero h0)) hlimit
        exact hn (Nat.le_of_lt_succ (lt_of_pow_le_scaleLimit hle))
      subst h0
      refine ⟨(UInt64.ofNat 0).toFloat, ?_, hx.mono (by decide)⟩
      simp only [Json.Literal.scale?, if_neg hn]
      rfl

end FormProgram.Rounding
