import Mathlib
import Reckoner.Number.Binary

/-!
# Exact results need no rounding

A finite double has a full significand or the least exponent (`Canonical`), and it has
no other representation of this kind. A product or quotient that is exactly a double is
rounded to this double, however the operands are represented.
-/

namespace Reckoner

open Float.Model Float.Model.UnpackedFloat

/-- The representation of a finite number with a full significand or the least exponent. -/
structure Canonical (m : Nat) (e : Int) : Prop where
  pos : 0 < m
  lt : m < 2 ^ 53
  least : -1074 ≤ e
  full : 2 ^ 52 ≤ m ∨ e = -1074

namespace Canonical

variable {m : Nat} {e : Int}

theorem log2_lt (h : Canonical m e) : m.log2 < 53 :=
  (Nat.log2_lt h.pos.ne').mpr h.lt

theorem targetExponent_eq (h : Canonical m e) :
    Format.binary64.targetExponent (totalExponent m e) = e := by
  have hlt := h.log2_lt
  have hleast := h.least
  simp only [Format.targetExponent, totalExponent, Format.mantissaBits, Format.minExponent]
  rcases h.full with hfull | rfl
  · have := (Nat.le_log2 h.pos.ne').mpr hfull
    push_cast
    omega
  · push_cast
    omega

end Canonical

/-! ### Packing -/

variable {s : UnpackedFloat.Sign} {m : Nat} {e : Int}

theorem toNat_one_append (f : BitVec 52) : (1#1 ++ f).toNat = 2 ^ 52 + f.toNat := by
  rw [BitVec.toNat_append, ← Nat.shiftLeft_add_eq_or_of_lt f.isLt]
  rfl

/-- A double that is read from its bits as a finite number is in canonical form. -/
theorem canonical_of_unpack {x : Float.Model} {hm : 0 < m}
    (h : x.unpack = .finite s m e hm) : Canonical m e ∧ e ≤ 971 := by
  unfold Float.Model.unpack UnpackedFloat.unpack at h
  set f : BitVec 52 := @unpackMantissa .binary64 x.toBits.toBitVec with hf
  set k : BitVec 11 := @unpackExponent .binary64 x.toBits.toBitVec with hk
  have hflt := f.isLt
  have hklt := k.isLt
  have hbias : (Format.binary64.exponentBias : Int) = 1023 := rfl
  dsimp only at h
  split at h
  · split at h <;> cases h
  · rename_i hmax
    split at h
    · rename_i hzero
      split at h
      · cases h
      · -- a subnormal number
        cases h
        simp only [hzero, hbias, BitVec.toNat_ofNat]
        exact ⟨⟨hm, by omega, by norm_num, .inr (by norm_num)⟩, by norm_num⟩
    · rename_i hzero
      cases h
      have hne : k.toNat ≠ 0 := fun h0 => hzero (BitVec.eq_of_toNat_eq h0)
      have hne' : k.toNat ≠ 2047 := fun h1 => hmax (BitVec.eq_of_toNat_eq h1)
      have hfull : (1#1 ++ @unpackMantissa .binary64 x.toBits.toBitVec).toNat = 2 ^ 52 + f.toNat :=
        toNat_one_append f
      simp only [hbias, hfull]
      refine ⟨⟨by omega, by omega, by omega, .inl (by omega)⟩, by omega⟩

theorem unpack_pack_subnormal (hm : 0 < m) (hlt : m < 2 ^ 52) :
    (Float.Model.pack (.finite s m (-1074) hm)).unpack = .finite s m (-1074) hm := by
  have hlog : m.log2 + 1 ≠ 53 := by
    have := (Nat.log2_lt hm.ne').mpr hlt
    omega
  have hmod : (BitVec.ofNat 52 m).toNat = m := by
    rw [BitVec.toNat_ofNat, Nat.mod_eq_of_lt hlt]
  have hne : BitVec.ofNat 52 m ≠ 0#52 := by
    intro heq
    rw [heq] at hmod
    exact hm.ne hmod
  have hpack : UnpackedFloat.pack .binary64 (.finite s m (-1074) hm) =
      packComponents .binary64 s 0#11 (BitVec.ofNat 52 m) := by
    unfold UnpackedFloat.pack
    exact (if_neg (by decide)).trans (if_neg hlog)
  show UnpackedFloat.unpack .binary64 (UnpackedFloat.pack .binary64 _) = _
  rw [hpack]
  unfold UnpackedFloat.unpack
  simp only [unpackMantissa_packComponents, unpackExponent_packComponents,
    unpackSign_packComponents, UnpackedFloat.Sign.ofBitVec_toBitVec]
  rw [if_neg (by decide), if_pos trivial, dif_neg hne]
  simp only [hmod]
  rfl

theorem unpack_pack_normal (hm : 0 < m) (hfull : 2 ^ 52 ≤ m)
    (hlt : m < 2 ^ 53) (hleast : -1074 ≤ e) (he : e ≤ 971) :
    (Float.Model.pack (.finite s m e hm)).unpack = .finite s m e hm := by
  obtain ⟨k, hk⟩ : ∃ k : Nat, e + 1075 = k := ⟨(e + 1075).toNat, by omega⟩
  have hlog : m.log2 + 1 = 53 := by
    have := (Nat.le_log2 hm.ne').mpr hfull
    have := (Nat.log2_lt hm.ne').mpr hlt
    omega
  have hmod : 2 ^ 52 + (BitVec.ofNat 52 m).toNat = m := by
    rw [BitVec.toNat_ofNat]
    omega
  have hexp : (BitVec.ofNat 11 k).toNat = k := by
    rw [BitVec.toNat_ofNat, Nat.mod_eq_of_lt (by omega)]
  have hmax : BitVec.ofNat 11 k ≠ -1#11 := by
    intro heq
    have h2047 : (-1#11).toNat = 2047 := rfl
    rw [← heq, hexp] at h2047
    omega
  have hzero : BitVec.ofNat 11 k ≠ 0#11 := by
    intro heq
    have h0 : (0#11).toNat = 0 := rfl
    rw [← heq, hexp] at h0
    omega
  have hbiased : (e + Format.binary64.exponentBias
      + Format.binary64.mantissaBitsWithoutImplicit).toNat = k := by
    have : (Format.binary64.exponentBias : Int) = 1023 := rfl
    have : Format.binary64.mantissaBitsWithoutImplicit = 52 := rfl
    omega
  have hpack : UnpackedFloat.pack .binary64 (.finite s m e hm) =
      packComponents .binary64 s (BitVec.ofNat 11 k) (BitVec.ofNat 52 m) := by
    unfold UnpackedFloat.pack
    simp only [hbiased]
    exact (if_neg (by omega)).trans (if_pos hlog)
  have hback : (k : Int) - (Format.binary64.exponentBias + (52 : Nat)) = e := by
    have : (Format.binary64.exponentBias : Int) = 1023 := rfl
    omega
  show UnpackedFloat.unpack .binary64 (UnpackedFloat.pack .binary64 _) = _
  rw [hpack]
  unfold UnpackedFloat.unpack
  simp only [unpackMantissa_packComponents, unpackExponent_packComponents,
    unpackSign_packComponents, UnpackedFloat.Sign.ofBitVec_toBitVec, if_neg hmax, if_neg hzero,
    toNat_one_append, hexp, hmod, hback]

/-- A number in canonical form is not changed by packing. -/
theorem unpack_pack (h : Canonical m e) (he : e ≤ 971) :
    (Float.Model.pack (.finite s m e h.pos)).unpack = .finite s m e h.pos := by
  by_cases hfull : 2 ^ 52 ≤ m
  · exact unpack_pack_normal h.pos hfull h.lt h.least he
  · obtain rfl := h.full.resolve_left hfull
    exact unpack_pack_subnormal h.pos (Nat.lt_of_not_le hfull)

/-- A double is determined by what its bits stand for. -/
theorem pack_unpack (x : Float.Model) : Float.Model.pack x.unpack = x := by
  obtain ⟨bits, hvalid⟩ := x
  simp only [Float.Model.unpack, Float.Model.pack, pack_unpack_of_valid hvalid]

/-! ### Rounding -/

theorem shiftRight_exact (m k : Nat) :
    (ExtendedMantissa.mk (m * 2 ^ k) false false) >>> k = ⟨m, false, false⟩ := by
  show k.repeat ExtendedMantissa.shiftRightOne _ = _
  induction k generalizing m with
  | zero => simp [Nat.repeat]
  | succ k ih =>
    have := ih (2 * m)
    rw [Nat.repeat, Nat.pow_succ', ← Nat.mul_assoc, Nat.mul_comm m 2, this]
    simp [ExtendedMantissa.shiftRightOne]

theorem log2_mul_two_pow {m : Nat} (hm : 0 < m) (k : Nat) : (m * 2 ^ k).log2 = m.log2 + k := by
  have hne : m * 2 ^ k ≠ 0 := (Nat.mul_pos hm (Nat.two_pow_pos k)).ne'
  rw [Nat.log2_eq_iff hne, Nat.add_right_comm, Nat.pow_add, Nat.pow_add]
  obtain ⟨hle, hlt⟩ := (Nat.log2_eq_iff hm.ne').mp rfl
  exact ⟨Nat.mul_le_mul_right _ hle, Nat.mul_lt_mul_of_pos_right hlt (Nat.two_pow_pos k)⟩

/-- A number is between the powers of two that its leading bit says. -/
theorem two_zpow_le_multiple {m : Nat} (hm : 0 < m) (e : Int) :
    (2 : ℚ) ^ ((m.log2 : Int) + e) ≤ m * 2 ^ e := by
  have hlow : (2 : ℚ) ^ (m.log2 : Int) ≤ m := by exact_mod_cast Nat.log2_self_le hm.ne'
  rw [zpow_add₀ two_ne_zero]
  gcongr

theorem multiple_lt_two_zpow (m : Nat) (e : Int) :
    (m : ℚ) * 2 ^ e < 2 ^ ((m.log2 : Int) + 1 + e) := by
  have hhigh : (m : ℚ) < 2 ^ ((m.log2 : Int) + 1) := by exact_mod_cast Nat.lt_log2_self
  rw [zpow_add₀ two_ne_zero]
  gcongr

/-- Rounding only drops the zeros behind a significand in canonical form. -/
theorem roundWithAccuracy_exact (h : Canonical m e) (k : Nat) :
    roundWithAccuracy .binary64 s (m * 2 ^ k) (e - k) .exact = .finite s m e h.pos := by
  have htotal : totalExponent (m * 2 ^ k) (e - k) = totalExponent m e := by
    rw [totalExponent, totalExponent, log2_mul_two_pow h.pos]
    push_cast
    ring
  have hfirst : shiftToTargetExponent .binary64 (m * 2 ^ k) (e - k) .exact
      = (⟨m, false, false⟩, e) := by
    have hk : (e - (e - k)).toNat = k := by omega
    rw [shiftToTargetExponent, htotal, h.targetExponent_eq]
    simp only [shiftToExponent, hk, ExtendedMantissa.ofMantissaAndAccuracy, shiftRight_exact]
    congr 1
    omega
  -- the significand is full, so rounding again changes nothing
  have hsecond : shiftToTargetExponent .binary64 m e .exact = (⟨m, false, false⟩, e) := by
    have := shiftRight_exact m 0
    rw [Nat.pow_zero, Nat.mul_one] at this
    rw [shiftToTargetExponent, h.targetExponent_eq]
    simp [shiftToExponent, ExtendedMantissa.ofMantissaAndAccuracy, this]
  unfold roundWithAccuracy
  rw [hfirst]
  simp only [ExtendedMantissa.roundedMantissa, ExtendedMantissa.accuracy,
    Accuracy.roundToNearestEven, hsecond]
  rw [dif_neg h.pos.ne']

/-- Equal numbers with a smaller exponent have more zeros behind the significand. -/
theorem exists_eq_mul_two_pow {m₁ m₂ : Nat} {e₁ e₂ : Int} (hle : e₁ ≤ e₂)
    (heq : (m₁ : ℚ) * 2 ^ e₁ = m₂ * 2 ^ e₂) : ∃ k : Nat, m₁ = m₂ * 2 ^ k ∧ e₁ = e₂ - k := by
  obtain ⟨k, hk⟩ := Int.eq_ofNat_of_zero_le (sub_nonneg.mpr hle)
  obtain rfl : e₂ = e₁ + k := by omega
  refine ⟨k, ?_, by omega⟩
  rw [zpow_add₀ two_ne_zero, zpow_natCast, mul_comm ((2 : ℚ) ^ e₁), ← mul_assoc] at heq
  exact_mod_cast mul_right_cancel₀ (zpow_ne_zero e₁ two_ne_zero) heq

/-- Equal numbers with a larger significand have a smaller exponent. -/
theorem exponent_le_of_eq {m m' : Nat} {e e' : Int} (hm : 0 < m) (hle : m ≤ m')
    (heq : (m' : ℚ) * 2 ^ e' = m * 2 ^ e) : e' ≤ e := by
  by_contra hlt
  have hm : (0 : ℚ) < m := by exact_mod_cast hm
  have hle : (m : ℚ) ≤ m' := by exact_mod_cast hle
  have : (m : ℚ) * 2 ^ e < m' * 2 ^ e' :=
    mul_lt_mul' hle (zpow_lt_zpow_right₀ one_lt_two (not_le.mp hlt)) (by positivity)
      (hm.trans_le hle)
  exact this.ne heq.symm

theorem roundWithAccuracy_eq {m' : Nat} {e' : Int} (h : Canonical m e)
    (hle : e' ≤ e) (heq : (m' : ℚ) * 2 ^ e' = m * 2 ^ e) :
    roundWithAccuracy .binary64 s m' e' .exact = .finite s m e h.pos := by
  obtain ⟨k, rfl, rfl⟩ := exists_eq_mul_two_pow hle heq
  exact roundWithAccuracy_exact h k

section

variable {s₁ s₂ : UnpackedFloat.Sign} {m₁ m₂ : Nat} {e₁ e₂ : Int} {h₁ : 0 < m₁} {h₂ : 0 < m₂}

/-- A product that is a double is rounded to it if its digits are kept. -/
theorem mul_exact (h : Canonical m e) (hle : m ≤ m₁ * m₂)
    (heq : (m₁ : ℚ) * 2 ^ e₁ * (m₂ * 2 ^ e₂) = m * 2 ^ e) :
    UnpackedFloat.mul .binary64 (.finite s₁ m₁ e₁ h₁) (.finite s₂ m₂ e₂ h₂)
      = .finite (s₁ * s₂) m e h.pos := by
  have heq : ((m₁ * m₂ : Nat) : ℚ) * 2 ^ (e₁ + e₂) = m * 2 ^ e := by
    rw [← heq, zpow_add₀ two_ne_zero]
    push_cast
    ring
  exact roundWithAccuracy_eq h (exponent_le_of_eq h.pos hle heq) heq

/-- The quotient has no fewer digits than the division asks for. -/
theorem totalExponent_sub_le (hm : 0 < m)
    (h₁ : 0 < m₁) (h₂ : 0 < m₂) (heq : (m₁ : ℚ) * 2 ^ e₁ = m * 2 ^ e * (m₂ * 2 ^ e₂)) :
    totalExponent m₁ e₁ - totalExponent m₂ e₂ ≤ totalExponent m e := by
  have hlt : (2 : ℚ) ^ ((m₁.log2 : Int) + e₁) <
      2 ^ ((m.log2 : Int) + 1 + e + ((m₂.log2 : Int) + 1 + e₂)) := by
    calc (2 : ℚ) ^ ((m₁.log2 : Int) + e₁) ≤ m₁ * 2 ^ e₁ := two_zpow_le_multiple h₁ e₁
      _ = m * 2 ^ e * (m₂ * 2 ^ e₂) := heq
      _ < 2 ^ ((m.log2 : Int) + 1 + e) * 2 ^ ((m₂.log2 : Int) + 1 + e₂) :=
          mul_lt_mul'' (multiple_lt_two_zpow m e) (multiple_lt_two_zpow m₂ e₂) (by positivity)
            (by positivity)
      _ = _ := (zpow_add₀ two_ne_zero _ _).symm
  have := (zpow_lt_zpow_iff_right₀ one_lt_two).mp hlt
  simp only [totalExponent]
  omega

/-- A quotient that is a double is rounded to it. -/
theorem div_exact (h : Canonical m e) (heq : (m₁ : ℚ) * 2 ^ e₁ = m * 2 ^ e * (m₂ * 2 ^ e₂)) :
    UnpackedFloat.div .binary64 (.finite s₁ m₁ e₁ h₁) (.finite s₂ m₂ e₂ h₂)
      = .finite (s₁ / s₂) m e h.pos := by
  set t := min (e₁ - e₂)
    (Format.binary64.targetExponent (totalExponent m₁ e₁ - totalExponent m₂ e₂))
    with ht
  have hte : t ≤ e := by
    have htotal := totalExponent_sub_le h.pos h₁ h₂ heq
    have htarget := h.targetExponent_eq
    simp only [Format.targetExponent] at ht htarget
    omega
  have hti : t ≤ e₁ - e₂ := min_le_left _ _
  obtain ⟨i, hi⟩ : ∃ i : Nat, e₁ - e₂ - t = i := ⟨(e₁ - e₂ - t).toNat, by omega⟩
  obtain ⟨k, hk⟩ : ∃ k : Nat, e - t = k := ⟨(e - t).toNat, by omega⟩
  -- with its zeros the dividend is a multiple of the divisor
  have hdvd : m₁ <<< i = m * 2 ^ k * m₂ := by
    rw [Nat.shiftLeft_eq]
    have hi' : e₁ = i + e₂ + t := by omega
    have hk' : e = k + t := by omega
    rw [hi', hk', zpow_add₀ two_ne_zero, zpow_add₀ two_ne_zero, zpow_add₀ two_ne_zero,
      zpow_natCast, zpow_natCast] at heq
    have hne : (2 : ℚ) ^ e₂ * 2 ^ t ≠ 0 :=
      mul_ne_zero (zpow_ne_zero _ two_ne_zero) (zpow_ne_zero _ two_ne_zero)
    have : ((m₁ : ℚ) * 2 ^ i) * ((2 : ℚ) ^ e₂ * 2 ^ t) = (m * 2 ^ k * m₂) * (2 ^ e₂ * 2 ^ t) := by
      linear_combination heq
    exact_mod_cast mul_right_cancel₀ hne this
  have hcore : divCore .binary64 m₁ e₁ m₂ e₂ = (m * 2 ^ k, e - k, .exact) := by
    unfold divCore
    simp only [← ht, hi, Int.toNat_natCast, hdvd, Nat.mul_div_cancel _ h₂, Nat.mul_mod_left,
      accuracyOfFraction, if_true]
    congr 2
    clear_value t
    omega
  simp only [UnpackedFloat.div, hcore]
  exact roundWithAccuracy_exact h k

end

end Reckoner
