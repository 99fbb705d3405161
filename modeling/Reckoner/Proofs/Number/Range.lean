import Reckoner.Proofs.Number.Exact

/-!
# Literals within the range of the doubles

Rounding leaves the exponent of a number where its magnitude puts it
(`InRange.roundWithAccuracy`), on the short way over the table of powers of ten as on the long
one. A literal that says a number up to `2 ^ 900`, or exactly a double, therefore has a finite
value (`Numeral.isFinite_value`, `Numeral.isFinite_value_of_eq`).
-/

namespace Reckoner

open Float.Model Float.Model.UnpackedFloat

/-- Zero, or a number with an exponent that a double has room for. -/
def InRange : UnpackedFloat → Prop
  | .zero _ => True
  | .finite _ _ e _ => e ≤ 971
  | _ => False

/-! ### Packing -/

theorem isFinite_unpack_packComponents {s : UnpackedFloat.Sign} {k : BitVec 11} (f : BitVec 52)
    (hk : k ≠ -1#11) :
    (UnpackedFloat.unpack .binary64 (packComponents .binary64 s k f)).isFinite = true := by
  unfold UnpackedFloat.unpack
  simp only [unpackMantissa_packComponents, unpackExponent_packComponents,
    unpackSign_packComponents]
  split
  · rename_i h
    exact absurd h hk
  · split
    · split <;> rfl
    · rfl

/-- A number in range stays finite when it is packed. -/
theorem InRange.isFinite_unpack_pack {u : UnpackedFloat} (h : InRange u) :
    (Float.Model.pack u).unpack.isFinite = true := by
  show (UnpackedFloat.unpack .binary64 (UnpackedFloat.pack .binary64 u)).isFinite = true
  cases u with
  | notANumber => exact h.elim
  | infinity s => exact h.elim
  | zero s => exact isFinite_unpack_packComponents _ (by decide)
  | finite s m e hm =>
    have he : e ≤ 971 := h
    have hbias : (Format.binary64.exponentBias : Int) = 1023 := rfl
    have hbits : Format.binary64.mantissaBitsWithoutImplicit = 52 := rfl
    have hexponents : 2 ^ Format.binary64.exponentBits = 2048 := rfl
    unfold UnpackedFloat.pack
    dsimp only
    rw [if_neg (by omega)]
    split
    · refine isFinite_unpack_packComponents _ fun heq => ?_
      have heq := congrArg BitVec.toNat heq
      rw [BitVec.toNat_ofNat, show (-1#11).toNat = 2047 from rfl] at heq
      omega
    · exact isFinite_unpack_packComponents _ (by decide)

/-! ### Rounding -/

theorem log2_le_of_le_two_pow {m k : Nat} (h : m ≤ 2 ^ k) : m.log2 ≤ k := by
  obtain rfl | hm := Nat.eq_zero_or_pos m
  · exact Nat.zero_le k
  · have hlt : 2 ^ k < 2 ^ (k + 1) := Nat.pow_lt_pow_right (by norm_num) (Nat.lt_succ_self k)
    exact Nat.lt_succ_iff.mp ((Nat.log2_lt hm.ne').mpr (Nat.lt_of_le_of_lt h hlt))

/-- Bits are only dropped where the exponent is too small for the magnitude. -/
theorem shiftToTargetExponent_snd (m : Nat) (e : Int) (a : Accuracy) :
    (shiftToTargetExponent .binary64 m e a).2 = max e (max ((m.log2 : Int) + e - 52) (-1074)) := by
  simp only [shiftToTargetExponent, shiftToExponent, Format.targetExponent, totalExponent,
    Format.mantissaBits, Format.minExponent]
  push_cast
  omega

/-- The bits that are left, rounded, have no larger magnitude than a carry gives. -/
theorem log2_roundedMantissa_le (m : Nat) (e : Int) (a : Accuracy) :
    ((shiftToTargetExponent .binary64 m e a).1.roundedMantissa.log2 : Int) +
      (shiftToTargetExponent .binary64 m e a).2 ≤
        max ((m.log2 : Int) + e + 1) (shiftToTargetExponent .binary64 m e a).2 := by
  obtain ⟨k, hk, heq⟩ : ∃ k : Nat, (shiftToTargetExponent .binary64 m e a).2 = e + k ∧
      (shiftToTargetExponent .binary64 m e a).1 =
        ExtendedMantissa.ofMantissaAndAccuracy m a >>> k := ⟨_, rfl, rfl⟩
  have hmantissa : (ExtendedMantissa.ofMantissaAndAccuracy m a).mantissa = m := by
    cases a with
    | exact => rfl
    | inexact o => cases o <;> rfl
  have hrounded := (roundedMantissa_bounds (ExtendedMantissa.ofMantissaAndAccuracy m a >>> k)).2
  rw [mantissa_shiftRight, hmantissa] at hrounded
  have hquotient : m / 2 ^ k < 2 ^ (m.log2 + 1 - k) := by
    rw [Nat.div_lt_iff_lt_mul (Nat.two_pow_pos k), ← Nat.pow_add]
    exact Nat.lt_of_lt_of_le Nat.lt_log2_self (Nat.pow_le_pow_right two_pos (by omega))
  have hlog := log2_le_of_le_two_pow (Nat.le_trans hrounded hquotient)
  rw [heq, hk]
  omega

/-- The exponent of a rounded number is no larger than its magnitude. -/
theorem InRange.roundWithAccuracy {s : UnpackedFloat.Sign} {m : Nat} {e : Int} (a : Accuracy)
    (h : (m.log2 : Int) + e ≤ 900) :
    InRange (UnpackedFloat.roundWithAccuracy .binary64 s m e a) := by
  have hexponent := shiftToTargetExponent_snd m e a
  have hlog := log2_roundedMantissa_le m e a
  have hagain := shiftToTargetExponent_snd
    (shiftToTargetExponent .binary64 m e a).1.roundedMantissa
    (shiftToTargetExponent .binary64 m e a).2 .exact
  unfold UnpackedFloat.roundWithAccuracy
  dsimp only
  split
  · trivial
  · show (shiftToTargetExponent .binary64 _ _ .exact).2 ≤ 971
    omega

/-! ### Products and quotients -/

section

variable {s₁ s₂ : UnpackedFloat.Sign} {m₁ m₂ : Nat} {e₁ e₂ : Int} {h₁ : 0 < m₁} {h₂ : 0 < m₂}

theorem log2_add_le {m : Nat} {e : Int} (hm : 0 < m) {k : Int} (h : (m : ℚ) * 2 ^ e ≤ 2 ^ k) :
    (m.log2 : Int) + e ≤ k :=
  (zpow_le_zpow_iff_right₀ one_lt_two).mp ((two_zpow_le_multiple hm e).trans h)

theorem InRange.mul (h : (m₁ : ℚ) * 2 ^ e₁ * (m₂ * 2 ^ e₂) ≤ 2 ^ (900 : Int)) :
    InRange (UnpackedFloat.mul .binary64 (.finite s₁ m₁ e₁ h₁) (.finite s₂ m₂ e₂ h₂)) := by
  refine InRange.roundWithAccuracy _ (log2_add_le (Nat.mul_pos h₁ h₂) ?_)
  calc ((m₁ * m₂ : Nat) : ℚ) * 2 ^ (e₁ + e₂) = m₁ * 2 ^ e₁ * (m₂ * 2 ^ e₂) := by
        rw [zpow_add₀ two_ne_zero]
        push_cast
        ring
    _ ≤ 2 ^ (900 : Int) := h

/-- The quotient of the significands is cut off, and has no larger magnitude than it was meant to
have. -/
theorem log2_divCore_le {k : Int} (hk : -1074 ≤ k) (h₁ : 0 < m₁) (h₂ : 0 < m₂)
    (h : (m₁ : ℚ) * 2 ^ e₁ ≤ 2 ^ k * (m₂ * 2 ^ e₂)) :
    ((divCore .binary64 m₁ e₁ m₂ e₂).1.log2 : Int) + (divCore .binary64 m₁ e₁ m₂ e₂).2.1 ≤ k := by
  set t := min (e₁ - e₂) (Format.binary64.targetExponent (totalExponent m₁ e₁ - totalExponent m₂ e₂))
    with ht
  show ((m₁ <<< (e₁ - e₂ - t).toNat / m₂).log2 : Int) + t ≤ k
  have hti : t ≤ e₁ - e₂ := min_le_left _ _
  obtain ⟨i, hi⟩ : ∃ i : Nat, e₁ - e₂ - t = i := ⟨(e₁ - e₂ - t).toNat, by omega⟩
  rw [hi, Int.toNat_natCast, Nat.shiftLeft_eq]
  obtain hq | hq := Nat.eq_zero_or_pos (m₁ * 2 ^ i / m₂)
  · -- the exponent alone is left
    have hlt : (2 : ℚ) ^ ((m₁.log2 : Int) + e₁) < 2 ^ (k + ((m₂.log2 : Int) + 1 + e₂)) := by
      calc (2 : ℚ) ^ ((m₁.log2 : Int) + e₁) ≤ m₁ * 2 ^ e₁ := two_zpow_le_multiple h₁ e₁
        _ ≤ 2 ^ k * (m₂ * 2 ^ e₂) := h
        _ < 2 ^ k * 2 ^ ((m₂.log2 : Int) + 1 + e₂) := by
            gcongr
            exact multiple_lt_two_zpow m₂ e₂
        _ = _ := (zpow_add₀ two_ne_zero _ _).symm
    have hlog := (zpow_lt_zpow_iff_right₀ one_lt_two).mp hlt
    simp only [Format.targetExponent, totalExponent, Format.mantissaBits, Format.minExponent] at ht
    push_cast at ht
    rw [hq, Nat.log2_zero]
    omega
  · refine log2_add_le hq ?_
    have hle : m₁ * 2 ^ i / m₂ * m₂ ≤ m₁ * 2 ^ i := Nat.div_mul_le_self _ _
    have hdivisor : (0 : ℚ) < m₂ * 2 ^ e₂ := multiple_pos h₂ e₂
    refine le_of_mul_le_mul_right ?_ hdivisor
    calc ((m₁ * 2 ^ i / m₂ : Nat) : ℚ) * 2 ^ t * (m₂ * 2 ^ e₂)
        = (m₁ * 2 ^ i / m₂ * m₂ : Nat) * 2 ^ (t + e₂) := by
          rw [zpow_add₀ two_ne_zero]
          push_cast
          ring
      _ ≤ (m₁ * 2 ^ i : Nat) * 2 ^ (t + e₂) := by gcongr
      _ = m₁ * 2 ^ e₁ := by
          rw [← cast_scaled m₁ e₁ i]
          congr 2
          omega
      _ ≤ 2 ^ k * (m₂ * 2 ^ e₂) := h

theorem InRange.div (h : (m₁ : ℚ) * 2 ^ e₁ ≤ 2 ^ (900 : Int) * (m₂ * 2 ^ e₂)) :
    InRange (UnpackedFloat.div .binary64 (.finite s₁ m₁ e₁ h₁) (.finite s₂ m₂ e₂ h₂)) :=
  InRange.roundWithAccuracy _ (log2_divCore_le (by norm_num) h₁ h₂ h)

end

/-! ### The short way -/

section

variable {c : Nat} {y : Float} {s : UnpackedFloat.Sign} {m : Nat} {e : Int} {hm : 0 < m}

/-- A whole number is converted to zero or to itself. -/
theorem unpack_natCast (hc : c < 2 ^ 53) :
    (c = 0 ∧ c.toUInt64.toFloat.toModel.unpack = .zero .positive) ∨
      ∃ m e, ∃ h : 0 < m, c.toUInt64.toFloat.toModel.unpack = .finite .positive m e h ∧
        (m : ℚ) * 2 ^ e = c := by
  obtain rfl | hpos := Nat.eq_zero_or_pos c
  · exact .inl ⟨rfl, rfl⟩
  · obtain ⟨m, e, hm, hunpack, -, heq⟩ := unpack_toFloat hpos hc
    exact .inr ⟨m, e, hm, hunpack, heq⟩

theorem isFinite_natCast_mul (hc : c < 2 ^ 53) (hy : y.toModel.unpack = .finite s m e hm)
    (h : (c : ℚ) * (m * 2 ^ e) ≤ 2 ^ (900 : Int)) : (c.toUInt64.toFloat * y).isFinite = true := by
  suffices InRange (UnpackedFloat.mul .binary64 c.toUInt64.toFloat.toModel.unpack
      y.toModel.unpack) from this.isFinite_unpack_pack
  obtain ⟨rfl, hzero⟩ | ⟨m₁, e₁, hm₁, hunpack, heq⟩ := unpack_natCast hc
  · rw [hzero, hy]
    trivial
  · rw [hunpack, hy]
    refine InRange.mul ?_
    rw [heq]
    exact h

theorem isFinite_natCast_div (hc : c < 2 ^ 53) (hy : y.toModel.unpack = .finite s m e hm)
    (h : (c : ℚ) ≤ 2 ^ (900 : Int) * (m * 2 ^ e)) : (c.toUInt64.toFloat / y).isFinite = true := by
  suffices InRange (UnpackedFloat.div .binary64 c.toUInt64.toFloat.toModel.unpack
      y.toModel.unpack) from this.isFinite_unpack_pack
  obtain ⟨rfl, hzero⟩ | ⟨m₁, e₁, hm₁, hunpack, heq⟩ := unpack_natCast hc
  · rw [hzero, hy]
    trivial
  · rw [hunpack, hy]
    refine InRange.div ?_
    rw [heq]
    exact h

end

/-! ### The long way -/

theorem InRange.ofScientific {c : Nat} {z : Int} (h : (c : ℚ) * 10 ^ z ≤ 2 ^ (900 : Int)) :
    InRange (UnpackedFloat.ofScientific .binary64 c z) := by
  unfold UnpackedFloat.ofScientific
  split
  · trivial
  · rename_i hc
    have hone : (1 : ℚ) ≤ c := by exact_mod_cast Nat.pos_of_ne_zero hc
    have hexponents : (2 : Int) ^ Format.binary64.exponentBits = 2048 := rfl
    split
    · -- such a power of ten is beyond the range alone
      rename_i hz
      have hpow : (2 : ℚ) ^ z ≤ 2 ^ (900 : Int) := by
        calc (2 : ℚ) ^ z ≤ 10 ^ z := zpow_le_zpow_left₀ (by omega) (by norm_num) (by norm_num)
          _ ≤ c * 10 ^ z := le_mul_of_one_le_left (by positivity) hone
          _ ≤ 2 ^ (900 : Int) := h
      have := (zpow_le_zpow_iff_right₀ (one_lt_two : (1 : ℚ) < 2)).mp hpow
      omega
    · split
      · trivial
      · split
        · rename_i hz
          obtain ⟨k, rfl⟩ := Int.eq_ofNat_of_zero_le hz
          refine InRange.mul ?_
          have hshift : ((c <<< Format.binary64.mantissaBits : Nat) : ℚ)
              * 2 ^ (-(Format.binary64.mantissaBits : Int)) = c := by
            rw [Nat.shiftLeft_eq, Nat.cast_mul, mul_assoc, Nat.cast_pow, ← zpow_natCast]
            simp
          rw [hshift, Int.toNat_natCast]
          simpa using h
        · rename_i hz
          obtain ⟨k, rfl⟩ := Int.exists_eq_neg_ofNat (not_le.mp hz).le
          refine InRange.div ?_
          rw [zpow_neg, ← div_eq_mul_inv, div_le_iff₀ (by positivity)] at h
          simpa using h

/-! ### Values of literals -/

namespace Numeral

/-- The number that a literal says. -/
def magnitude (n : Numeral) : ℚ := n.coefficient * 10 ^ n.scale

theorem magnitude_nonneg (n : Numeral) : 0 ≤ n.magnitude := by
  unfold magnitude
  positivity

/-- A literal that says a number in range has a finite value. -/
theorem isFinite_value {n : Numeral} (h : n.magnitude ≤ 2 ^ (900 : Int)) :
    n.value.isFinite = true := by
  unfold magnitude at h
  unfold value Float.ofScientific
  split
  · rename_i hshort
    have hsize : n.scale.natAbs < Float.exactlyRepresentablePowersOfTen.size :=
      Nat.lt_succ_of_le hshort.2
    obtain ⟨m, e, hm, hpower, -, heq⟩ := exists_of_isPowerOfTen (isPowerOfTen_table _ hsize)
    rw [← zpow_natCast] at heq
    cases hs : decide (n.scale < 0) with
    | true =>
      refine isFinite_natCast_div hshort.1 hpower ?_
      rw [heq, Int.ofNat_natAbs_of_nonpos (of_decide_eq_true hs).le]
      rw [← neg_neg n.scale, zpow_neg, ← div_eq_mul_inv, div_le_iff₀ (by positivity)] at h
      exact h
    | false =>
      refine isFinite_natCast_mul hshort.1 hpower ?_
      rw [heq, Int.natAbs_of_nonneg (not_lt.mp (of_decide_eq_false hs))]
      exact h
  · refine (InRange.ofScientific ?_).isFinite_unpack_pack
    by_cases hs : n.scale < 0
    · rw [if_pos (decide_eq_true hs), Int.negOfNat_eq, Int.ofNat_eq_natCast,
        Int.ofNat_natAbs_of_nonpos hs.le, neg_neg]
      exact h
    · rw [if_neg (by simpa using hs), Int.ofNat_eq_natCast, Int.natAbs_of_nonneg (not_lt.mp hs)]
      exact h

/-- A literal that says exactly a double has a finite value. -/
theorem isFinite_value_of_eq {n : Numeral} {m : Nat} {e : Int} (hlt : m < 2 ^ 53)
    (hleast : -1074 ≤ e) (he : e ≤ 971) (h : n.magnitude = m * 2 ^ e) : n.value.isFinite = true := by
  obtain rfl | hm := Nat.eq_zero_or_pos m
  · refine isFinite_value ?_
    rw [h, Nat.cast_zero, zero_mul]
    positivity
  · obtain ⟨m', e', hcanonical, he', heq⟩ := exists_canonical_eq hm hlt hleast
    have hdouble : (Float.ofModel (.pack (.finite .positive m' e' hcanonical.pos))).toModel.unpack =
        .finite .positive m' e' hcanonical.pos := unpack_pack hcanonical (he'.trans he)
    rw [value_eq hdouble (h.trans heq.symm)]
    exact isFinite_of_unpack hdouble

end Numeral

end Reckoner
