/-
Numbers survive being written: the literal of every number is read as a number again
(`Number.value?_literal`), and the scanner takes exactly the literal off a text that goes on with
something else (`Literal.scan_chars`).

An integer is read as itself. A double is read as a double, never as nothing: its digits are worth so
little that scaling them back cannot overflow, the greatest five doubles being read one by one.
-/
import FormProgram.Proofs.ShortestDecimal

set_option autoImplicit false

namespace FormProgram.Json

open Decimal Rounding

variable {l : Literal}

theorem toNat_fraction (bits : UInt64) : (bits &&& 0xFFFFFFFFFFFFF).toNat < 2 ^ 52 := by
  have hmask : (0xFFFFFFFFFFFFF : UInt64).toNat = 2 ^ 52 - 1 := by decide
  rw [UInt64.toNat_and, hmask, Nat.and_two_pow_sub_one_eq_mod]
  exact Nat.mod_lt _ (Nat.two_pow_pos 52)

theorem toNat_biased (bits : UInt64) : ((bits >>> 52) &&& 0x7FF).toNat =
    (@Float.Model.UnpackedFloat.unpackExponent double bits.toBitVec).toNat := by
  have hmask : (0x7FF : UInt64).toNat = 2 ^ 11 - 1 := by decide
  rw [UInt64.toNat_and, hmask, Nat.and_two_pow_sub_one_eq_mod]
  rfl

/-- The exponent field of a finite double is not that of the infinities. -/
theorem biased_lt {x : Float} (h : x.isFinite = true) : ((x.toBits >>> 52) &&& 0x7FF).toNat < 2047 := by
  rw [toNat_biased]
  have hne : @Float.Model.UnpackedFloat.unpackExponent double x.toBits.toBitVec ≠ -1#11 := by
    intro hinf
    change (Float.Model.UnpackedFloat.unpack double x.toBits.toBitVec).isFinite = true at h
    rw [unpack_double, if_pos hinf] at h
    split at h <;> cases h
  have hlt := (@Float.Model.UnpackedFloat.unpackExponent double x.toBits.toBitVec).isLt
  refine Nat.lt_of_le_of_ne (Nat.le_of_lt_succ hlt) fun heq => hne ?_
  rw [← BitVec.toNat_inj]
  exact heq

theorem binaryOfBits_bounds {x : Float} (h : x.isFinite = true) :
    (binaryOfBits x.toBits).1 < 2 ^ 53 ∧ -1074 ≤ (binaryOfBits x.toBits).2.1 ∧
      (binaryOfBits x.toBits).2.1 ≤ 971 := by
  have hfraction := toNat_fraction x.toBits
  have hbiased := biased_lt h
  simp only [binaryOfBits]
  generalize (x.toBits &&& 0xFFFFFFFFFFFFF).toNat = fraction at *
  generalize ((x.toBits >>> 52) &&& 0x7FF).toNat = biased at *
  split
  · dsimp only
    omega
  · simp only [Int.ofNat_eq_natCast]
    omega

/-- Only a power of two has a nearer neighbour below. -/
theorem narrow_binaryOfBits (bits : UInt64) :
    2 ^ 52 < (binaryOfBits bits).1 → (binaryOfBits bits).2.2 = false := by
  simp only [binaryOfBits]
  split
  · exact fun _ => rfl
  · intro hlt
    dsimp only at hlt ⊢
    have hne : (bits &&& 0xFFFFFFFFFFFFF).toNat ≠ 0 := by omega
    rw [beq_eq_false_iff_ne.2 hne, Bool.false_and]

theorem exists_ofFloat {x : Float} (negative : Bool) (h : Within 971 x) :
    ∃ y, Finite.ofFloat? (if negative then -x else x) = some y := by
  have hx : (if negative then -x else x).isFinite = true := by
    cases negative with
    | false => exact h.isFinite
    | true => exact (h.neg (by decide) (by decide)).isFinite
  exact ⟨⟨_, hx⟩, dif_pos hx⟩

namespace Literal

theorem wordLimit_le_scaleLimit : wordLimit ≤ scaleLimit := by decide +kernel

/-- A coefficient with places left out, in units of the last digit that it has. -/
theorem scaled_le {c v places length n limit : Nat} (hplaces : places ≤ length)
    (hv : c * 10 ^ (length - places) ≤ v) (hlimit : v * 10 ^ (n + places) ≤ limit * 10 ^ length) :
    c * 10 ^ n ≤ limit := by
  refine Nat.le_of_mul_le_mul_right (Nat.le_trans ?_ hlimit) (Nat.pow_pos (n := length) (by decide : 0 < 10))
  calc c * 10 ^ n * 10 ^ length
      = c * 10 ^ (length - places) * 10 ^ (n + places) := by
        rw [Nat.mul_assoc, Nat.mul_assoc, ← Nat.pow_add, ← Nat.pow_add]
        congr 2
        omega
    _ ≤ v * 10 ^ (n + places) := Nat.mul_le_mul_right _ hv

/-- Without an exponent no literal is beyond the doubles. -/
theorem exists_float_plain (hw : value l.whole < wordLimit) (he : l.exponent = none) :
    ∃ x, l.float? = some (.float x) := by
  have hword := (take_bounds l.fraction hw).1
  obtain ⟨x, hx, hwithin⟩ := exists_scale (((0 : Nat) : Int) - (take (value l.whole) l.fraction).2) hword (by
    intro n hn
    have hn : n = 0 := by omega
    rw [hn, Nat.pow_zero, Nat.mul_one]
    exact Nat.le_trans (Nat.le_of_lt hword) wordLimit_le_scaleLimit)
  obtain ⟨y, hy⟩ := exists_ofFloat l.negative hwithin
  refine ⟨y, ?_⟩
  simp only [float?, @take_all 0 l.whole hw, valueFrom_zero, Nat.sub_self, he, hx, hy, Option.bind_eq_bind,
    Option.bind_some]

/-- With an exponent a literal is not beyond the doubles if its value is not beyond the limit. -/
theorem exists_float_scientific {e : Exponent} (hw : value l.whole < wordLimit) (he : l.exponent = some e)
    (hpos : 10 ^ l.fraction.length ≤ valueFrom (value l.whole) l.fraction)
    (hlimit : e.negative = false →
      valueFrom (value l.whole) l.fraction * 10 ^ value e.digits ≤ scaleLimit * 10 ^ l.fraction.length) :
    ∃ x, l.float? = some (.float x) := by
  obtain ⟨hword, hplaces, hv⟩ := take_bounds l.fraction hw
  by_cases hsmall : value e.digits < 0x80000000
  · obtain ⟨x, hx, hwithin⟩ := exists_scale (((0 : Nat) : Int) - (take (value l.whole) l.fraction).2 +
        if e.negative then -(value e.digits : Int) else value e.digits) hword (by
      intro n hn
      cases hneg : e.negative with
      | true =>
        have hn : n = 0 := by
          rw [hneg, if_pos rfl] at hn
          omega
        rw [hn, Nat.pow_zero, Nat.mul_one]
        exact Nat.le_trans (Nat.le_of_lt hword) wordLimit_le_scaleLimit
      | false =>
        have hn : value e.digits = n + (take (value l.whole) l.fraction).2 := by
          rw [hneg, if_neg Bool.false_ne_true] at hn
          omega
        exact scaled_le hplaces hv (hn ▸ hlimit hneg))
    obtain ⟨y, hy⟩ := exists_ofFloat l.negative hwithin
    refine ⟨y, ?_⟩
    simp only [float?, @take_all 0 l.whole hw, valueFrom_zero, Nat.sub_self, he, smallExponent?,
      if_pos hsmall, hx, hy, Option.bind_eq_bind, Option.bind_some]
  · -- So great an exponent is negative: with a positive one even a coefficient of one is beyond the limit.
    have hneg : e.negative = true := by
      by_contra hneg
      have hle := Nat.le_trans (Nat.mul_le_mul_right _ hpos) (hlimit (by simpa using hneg))
      rw [Nat.mul_comm] at hle
      have := lt_of_pow_le_scaleLimit (Nat.le_of_mul_le_mul_right hle (Nat.pow_pos (by decide)))
      omega
    obtain ⟨y, hy⟩ := exists_ofFloat (x := 0.0) l.negative trivial
    refine ⟨y, ?_⟩
    simp only [float?, @take_all 0 l.whole hw, valueFrom_zero, he, smallExponent?,
      if_neg hsmall, hneg, not_true_eq_false, and_false, if_false, hy, Option.bind_eq_bind, Option.bind_some]

/-- A literal as the scanner takes it off a text. -/
structure Spelled (l : Literal) : Prop where
  whole_digits : ∀ d ∈ l.whole, d.isDigit = true
  whole_start : l.whole = ['0'] ∨ ∃ d ds, l.whole = d :: ds ∧ d ≠ '0'
  fraction_digits : ∀ d ∈ l.fraction, d.isDigit = true
  exponent_digits : ∀ e ∈ l.exponent, e.digits ≠ [] ∧ ∀ d ∈ e.digits, d.isDigit = true

theorem Spelled.whole {negative : Bool} (n : Nat) : Spelled ⟨negative, Decimal.chars n, [], none⟩ where
  whole_digits := isDigit_of_mem_chars n
  whole_start := by
    rcases Nat.eq_zero_or_pos n with rfl | hn
    · exact .inl (by rw [Decimal.chars]; rfl)
    · exact .inr (exists_chars_eq_cons hn)
  fraction_digits := nofun
  exponent_digits := nofun

theorem value?_of_not_integer (h : l.fraction ≠ [] ∨ l.exponent ≠ none) : l.value? = l.float? := by
  have hnone : l.integer? = none := by
    rw [integer?, if_pos]
    rcases h with h | h
    · simp [h]
    · simp [Option.isSome_iff_ne_none.2 h]
  rw [value?, hnone]

end Literal

namespace FloatFormat

variable {format : FloatFormat} {negative : Bool} {s : Scientific}

theorem literal_zero : floatFormat.literal negative ⟨0, 0⟩ = ⟨negative, ['0'], ['0'], none⟩ := by
  cases negative <;> decide +kernel

theorem spelled_zero : (floatFormat.literal negative ⟨0, 0⟩).Spelled := by
  rw [literal_zero]
  exact {
    whole_digits := List.forall_mem_singleton.2 rfl
    whole_start := .inl rfl
    fraction_digits := List.forall_mem_singleton.2 rfl
    exponent_digits := nofun }

theorem fraction_ne_nil (digits : List Char) : (if digits.isEmpty then ['0'] else digits) ≠ [] := by
  cases digits <;> simp

theorem spelled_literal (h : 0 < s.coefficient) : (format.literal negative s).Spelled := by
  have hdigits := isDigit_of_mem_chars s.coefficient
  obtain ⟨d, ds, hd, hd0⟩ := exists_chars_eq_cons h
  have htake : ∀ n, (chars s.coefficient).take (n + 1) = d :: ds.take n := fun n => by
    rw [hd, List.take_succ_cons]
  rw [literal]
  split
  next =>
    exact {
      whole_digits := fun c hc => hdigits c (List.mem_of_mem_take hc)
      whole_start := .inr ⟨d, _, htake 0, hd0⟩
      fraction_digits := fun c hc => hdigits c (List.mem_of_mem_drop hc)
      exponent_digits := by
        intro e he
        cases he
        exact ⟨chars_ne_nil _, isDigit_of_mem_chars _⟩ }
  next =>
    split
    next =>
      exact {
        whole_digits := List.forall_mem_singleton.2 rfl
        whole_start := .inl rfl
        fraction_digits := List.forall_mem_append.2 ⟨isDigit_zeros _, hdigits⟩
        exponent_digits := nofun }
    next =>
      dsimp only
      exact {
        whole_digits :=
          List.forall_mem_append.2 ⟨fun c hc => hdigits c (List.mem_of_mem_take hc), isDigit_zeros _⟩
        whole_start := .inr ⟨d, _, by rw [htake, List.cons_append], hd0⟩
        fraction_digits := by
          split
          next => exact List.forall_mem_singleton.2 rfl
          next => exact fun c hc => hdigits c (List.mem_of_mem_drop hc)
        exponent_digits := nofun }

/-- The digits before the point are so few that they are worth a word. -/
theorem value_whole_lt (h : 0 < s.coefficient) : value (floatFormat.literal negative s).whole < wordLimit := by
  have hlen : (floatFormat.literal negative s).whole.length ≤ 16 := by
    rw [literal]
    split
    · rw [List.length_take]
      omega
    next hlead =>
      split
      · exact (by decide : 1 ≤ 16)
      · have hgreatest : s.exponent + (chars s.coefficient).length - 1 ≤ 15 := Int.not_lt.1 (not_or.1 hlead).2
        simp only [List.length_append, List.length_take, List.length_replicate]
        omega
  calc value (floatFormat.literal negative s).whole
      < 10 ^ (floatFormat.literal negative s).whole.length := value_lt_pow (spelled_literal h).whole_digits
    _ ≤ 10 ^ 16 := Nat.pow_le_pow_right (by decide) hlen
    _ ≤ wordLimit := by decide

/-- **A decimal below the limit is written so that it is read as a double.** -/
theorem exists_value (h : 0 < s.coefficient) (hval : s.val ≤ scaleLimit) :
    ∃ x, (floatFormat.literal negative s).value? = some (.float x) := by
  have hw : value (floatFormat.literal negative s).whole < wordLimit := value_whole_lt h
  rw [literal] at hw ⊢
  split at hw
  next hlead =>
    rw [if_pos hlead, Literal.value?_of_not_integer (.inr (by simp))]
    have hlen : 0 < (chars s.coefficient).length := List.length_pos_iff.2 (chars_ne_nil _)
    refine Literal.exists_float_scientific hw rfl ?_ fun hneg => ?_
    · rw [valueFrom_take_drop, value_chars, List.length_drop]
      exact pow_length_chars_le _ h
    · rw [decide_eq_false_iff_not] at hneg
      rw [valueFrom_take_drop, value_chars, value_chars, List.length_drop]
      exact s.mul_pow_le hval (by omega)
  next hlead =>
    rw [if_neg hlead]
    split at hw
    next hsmall =>
      rw [if_pos hsmall, Literal.value?_of_not_integer (.inl (by simp [chars_ne_nil]))]
      exact Literal.exists_float_plain hw rfl
    next hsmall =>
      rw [if_neg hsmall, Literal.value?_of_not_integer (.inl (fraction_ne_nil _))]
      exact Literal.exists_float_plain hw rfl

theorem exists_value_greatest (hs : s ∈ greatestDecimals) :
    ∃ n, (floatFormat.literal negative s).value? = some n := by
  have hall : ∀ s ∈ greatestDecimals, ∀ negative, (floatFormat.literal negative s).value?.isSome = true := by
    decide +kernel
  exact Option.isSome_iff_exists.1 (hall s hs negative)

end FloatFormat

/-- The digits of a finite double: zero, a decimal below the limit, or one of the greatest five. -/
theorem shortest_cases (x : Finite) : Decimal.shortest x.val = ⟨0, 0⟩ ∨
    (0 < (Decimal.shortest x.val).coefficient ∧
      ((Decimal.shortest x.val).val ≤ scaleLimit ∨ Decimal.shortest x.val ∈ greatestDecimals)) := by
  obtain ⟨hlt, hq, hq'⟩ := binaryOfBits_bounds x.isFinite
  have hnarrow := narrow_binaryOfBits x.val.toBits
  rw [Decimal.shortest]
  generalize binaryOfBits x.val.toBits = parts at *
  obtain ⟨m, q, narrow⟩ := parts
  dsimp only at *
  split
  next => exact .inl rfl
  next h0 =>
    have hm := Nat.pos_of_ne_zero h0
    obtain ⟨hpos, hval⟩ := Scientific.trim_spec _ (proper_ofBinary narrow hm hq).shortest_spec.1
    refine .inr ⟨hpos, ?_⟩
    -- The limit is too rough for the greatest five, whose decimals are found one by one.
    by_cases htop : q ≠ 971 ∨ m < 2 ^ 53 - 5
    · rw [hval]
      exact .inl (shortest_ofBinary_le hm hlt hq hq' htop)
    · obtain ⟨rfl, hge⟩ := not_or.1 htop |>.imp not_not.1 Nat.not_lt.1
      have hfalse : narrow = false := hnarrow (by omega)
      have hgreatest := shortest_greatest (m - (2 ^ 53 - 5)) (by omega)
      rw [Nat.add_sub_cancel' hge] at hgreatest
      exact .inr (hfalse ▸ hgreatest)

namespace Number

theorem value?_natural (n : UInt64) : (natural n).literal.value? = some (natural n) := by
  have hn : n.toNat < wordLimit := n.toNat_lt
  simp [literal, Literal.value?, Literal.integer?, value_chars, hn]

theorem value?_negative (m : Fin 0x8000000000000000) : (negative m).literal.value? = some (negative m) := by
  simp [literal, Literal.value?, Literal.integer?, value_chars]

/-- **Every number is read again when it has been written.** -/
theorem exists_value : ∀ n : Number, ∃ n', n.literal.value? = some n'
  | .natural n => ⟨_, value?_natural n⟩
  | .negative m => ⟨_, value?_negative m⟩
  | .float x => by
    rw [literal]
    generalize (x.val.toBits >>> 63 == 1) = negative
    rcases shortest_cases x with h0 | ⟨hpos, hval | hgreatest⟩
    · have hvalue : Decimal.value ['0'] < wordLimit := by decide
      have hread := Literal.value?_of_not_integer (l := ⟨negative, ['0'], ['0'], none⟩)
        (.inl (List.cons_ne_nil '0' []))
      obtain ⟨y, hy⟩ := Literal.exists_float_plain (l := ⟨negative, ['0'], ['0'], none⟩) hvalue rfl
      exact ⟨_, by rw [h0, FloatFormat.literal_zero, hread, hy]⟩
    · obtain ⟨y, hy⟩ := FloatFormat.exists_value hpos hval
      exact ⟨_, hy⟩
    · exact FloatFormat.exists_value_greatest hgreatest

theorem spelled : ∀ n : Number, n.literal.Spelled
  | .natural n => .whole n.toNat
  | .negative m => .whole (m + 1)
  | .float x => by
    rw [literal]
    rcases shortest_cases x with h0 | ⟨hpos, -⟩
    · rw [h0]
      exact FloatFormat.spelled_zero
    · exact FloatFormat.spelled_literal hpos

end Number

end FormProgram.Json
