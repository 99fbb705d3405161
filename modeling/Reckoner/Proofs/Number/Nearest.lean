import Reckoner.Proofs.Number.Rounding

/-!
# Rounding to a double

What a number is rounded to depends on the number and not on the power of two that it is
counted in (`round_congr`). A double is rounded to itself (`round_exact`), and a number that
is not larger than a double is rounded to one that is not larger either
(`exists_round_le`). Whatever is rounded, the exponent stays near the magnitude of the number
(`Ordinary.roundWithAccuracy`), so that only large numbers become infinite.
-/

namespace Reckoner

open Float.Model Float.Model.UnpackedFloat

variable {s : UnpackedFloat.Sign} {m : Nat} {e : Int}

/-! ### Multiples of powers of two -/

theorem multiple_pos {m : Nat} (hm : 0 < m) (e : Int) : (0 : ℚ) < m * 2 ^ e := by
  have : (0 : ℚ) < m := by exact_mod_cast hm
  positivity

theorem cast_scaled (m : Nat) (e : Int) (k : Nat) :
    ((m * 2 ^ k : Nat) : ℚ) * 2 ^ (e - k) = m * 2 ^ e := by
  rw [zpow_sub₀ two_ne_zero, zpow_natCast]
  push_cast
  field_simp

/-- A multiple of a power of two is a multiple of each smaller one. -/
theorem cast_shifted (m : Nat) {e t : Int} (h : t ≤ e) :
    ((m * 2 ^ (e - t).toNat : Nat) : ℚ) * 2 ^ t = m * 2 ^ e := by
  have := cast_scaled m e (e - t).toNat
  rwa [Int.toNat_sub_of_le h, sub_sub_cancel] at this

/-! ### Shifts -/

theorem totalExponent_scaled (hm : 0 < m) (e : Int) (k : Nat) :
    totalExponent (m * 2 ^ k) (e - k) = totalExponent m e := by
  rw [totalExponent, totalExponent, log2_mul_two_pow hm]
  push_cast
  ring

theorem shiftRight_add (em : ExtendedMantissa) (i j : Nat) : em >>> (i + j) = (em >>> i) >>> j := by
  induction j with
  | zero => rfl
  | succ j ih => exact congrArg ExtendedMantissa.shiftRightOne ih

theorem mantissa_shiftRight (em : ExtendedMantissa) (k : Nat) :
    (em >>> k).mantissa = em.mantissa / 2 ^ k := by
  induction k with
  | zero =>
    rw [Nat.pow_zero, Nat.div_one]
    rfl
  | succ k ih =>
    show (em >>> k).mantissa / 2 = _
    rw [ih, Nat.div_div_eq_div_mul, Nat.pow_succ]

theorem roundedMantissa_bounds (em : ExtendedMantissa) :
    em.mantissa ≤ em.roundedMantissa ∧ em.roundedMantissa ≤ em.mantissa + 1 := by
  obtain ⟨m, roundBit, stickyBit⟩ := em
  have hparity := Nat.mod_lt m two_pos
  cases roundBit <;> cases stickyBit <;>
    simp only [ExtendedMantissa.roundedMantissa, ExtendedMantissa.accuracy,
      Accuracy.roundToNearestEven] <;> omega

/-- Bits that are dropped do not raise a significand above a whole number. -/
theorem roundedMantissa_le {k n : Nat} (h : m ≤ n * 2 ^ k) :
    (ExtendedMantissa.mk m false false >>> k).roundedMantissa ≤ n := by
  by_cases hdvd : 2 ^ k ∣ m
  · obtain ⟨q, rfl⟩ := hdvd
    rw [Nat.mul_comm, shiftRight_exact]
    rw [Nat.mul_comm] at h
    exact Nat.le_of_mul_le_mul_right h (Nat.two_pow_pos k)
  · have hlt : m < n * 2 ^ k := lt_of_le_of_ne h fun heq => hdvd ⟨n, by rw [heq, Nat.mul_comm]⟩
    have hquotient : m / 2 ^ k < n := (Nat.div_lt_iff_lt_mul (Nat.two_pow_pos k)).mpr hlt
    have hbound := (roundedMantissa_bounds (ExtendedMantissa.mk m false false >>> k)).2
    rw [mantissa_shiftRight] at hbound
    exact Nat.le_trans hbound hquotient

/-! ### The same number -/

/-- Zeros behind a significand make no difference. -/
theorem roundWithAccuracy_scaled (hm : 0 < m)
    (he : e ≤ Format.binary64.targetExponent (totalExponent m e)) (k : Nat) :
    roundWithAccuracy .binary64 s (m * 2 ^ k) (e - k) .exact =
      roundWithAccuracy .binary64 s m e .exact := by
  have hshift : shiftToTargetExponent .binary64 (m * 2 ^ k) (e - k) .exact =
      shiftToTargetExponent .binary64 m e .exact := by
    simp only [shiftToTargetExponent, totalExponent_scaled hm]
    set t := Format.binary64.targetExponent (totalExponent m e)
    obtain ⟨i, hi⟩ : ∃ i : Nat, t - e = i := ⟨(t - e).toNat, by omega⟩
    have hi' : (t - (e - k)).toNat = k + i := by omega
    simp only [shiftToExponent, ExtendedMantissa.ofMantissaAndAccuracy, hi, hi', Int.toNat_natCast,
      shiftRight_add, shiftRight_exact]
    congr 1
    push_cast
    ring
  unfold roundWithAccuracy
  rw [hshift]

theorem round_scaled (hm : 0 < m) (k : Nat) :
    UnpackedFloat.round .binary64 s (m * 2 ^ k) (e - k) = .round .binary64 s m e := by
  simp only [UnpackedFloat.round, decreaseExponent, totalExponent_scaled hm, Nat.shiftLeft_eq]
  set t := Format.binary64.targetExponent (totalExponent m e) with ht
  obtain hle | hlt := le_total t (e - k)
  · -- both have too few bits, and are filled up to the same
    have hi : (e - t).toNat = k + (e - k - t).toNat := by omega
    rw [hi, Nat.pow_add, ← Nat.mul_assoc]
    congr 1
    push_cast
    ring
  · have hzero : (e - k - t).toNat = 0 := by omega
    rw [hzero, Nat.pow_zero, Nat.mul_one, Nat.cast_zero, sub_zero]
    obtain ⟨i, hi⟩ : ∃ i, (e - t).toNat = i := ⟨_, rfl⟩
    obtain ⟨j, rfl⟩ : ∃ j, k = i + j := ⟨k - i, by omega⟩
    have hpos : 0 < m * 2 ^ i := Nat.mul_pos hm (Nat.two_pow_pos i)
    have htarget : e - i ≤ Format.binary64.targetExponent (totalExponent (m * 2 ^ i) (e - i)) := by
      rw [totalExponent_scaled hm, ← ht]
      omega
    rw [hi, ← roundWithAccuracy_scaled hpos htarget j, Nat.pow_add, ← Nat.mul_assoc]
    congr 1
    push_cast
    ring

/-- What a number is rounded to does not depend on the power of two that it is counted in. -/
theorem round_congr {m₁ m₂ : Nat} {e₁ e₂ : Int} (h₁ : 0 < m₁) (h₂ : 0 < m₂)
    (heq : (m₁ : ℚ) * 2 ^ e₁ = m₂ * 2 ^ e₂) :
    UnpackedFloat.round .binary64 s m₁ e₁ = .round .binary64 s m₂ e₂ := by
  obtain hle | hle := le_total e₁ e₂
  · obtain ⟨k, rfl, rfl⟩ := exists_eq_mul_two_pow hle heq
    exact round_scaled h₂ k
  · obtain ⟨k, rfl, rfl⟩ := exists_eq_mul_two_pow hle heq.symm
    exact (round_scaled h₁ k).symm

/-- A double is rounded to itself. -/
theorem round_exact {m' : Nat} {e' : Int} (h : Canonical m e) (hm' : 0 < m')
    (heq : (m' : ℚ) * 2 ^ e' = m * 2 ^ e) :
    UnpackedFloat.round .binary64 s m' e' = .finite s m e h.pos := by
  rw [round_congr hm' h.pos heq]
  have hround := roundWithAccuracy_exact (s := s) h 0
  simpa [UnpackedFloat.round, decreaseExponent, h.targetExponent_eq] using hround

/-! ### Numbers below a double -/

/-- A significand of at most `2 ^ 53` that is full, or has the least exponent, is one in canonical
form with a zero behind it at most. -/
theorem exists_canonical (hm : 0 < m) (hle : m ≤ 2 ^ 53) (hleast : -1074 ≤ e)
    (hfull : 2 ^ 52 ≤ m ∨ e = -1074) :
    ∃ m' e', ∃ k : Nat, Canonical m' e' ∧ m = m' * 2 ^ k ∧ e = e' - k := by
  obtain hlt | rfl := Nat.lt_or_eq_of_le hle
  · exact ⟨m, e, 0, ⟨hm, hlt, hleast, hfull⟩, by simp, by simp⟩
  · exact ⟨2 ^ 52, e + 1, 1, ⟨by norm_num, by norm_num, by omega, .inl le_rfl⟩, by norm_num, by simp⟩

/-- Zeros behind a significand in canonical form are shifted out. -/
theorem shiftToTargetExponent_exact (h : Canonical m e) (k : Nat) :
    shiftToTargetExponent .binary64 (m * 2 ^ k) (e - k) .exact = (⟨m, false, false⟩, e) := by
  have hk : (e - (e - k)).toNat = k := by omega
  rw [shiftToTargetExponent, totalExponent_scaled h.pos, h.targetExponent_eq]
  simp only [shiftToExponent, hk, ExtendedMantissa.ofMantissaAndAccuracy, shiftRight_exact]
  congr 1
  omega

/-- The magnitudes of numbers in canonical form grow with their exponents. -/
theorem targetExponent_le_of_le {m' : Nat} {e' : Int} (hm : 0 < m)
    (h : Canonical m' e') (hle : (m : ℚ) * 2 ^ e ≤ m' * 2 ^ e') :
    Format.binary64.targetExponent (totalExponent m e) ≤ e' := by
  have hlt := (two_zpow_le_multiple hm e).trans_lt (hle.trans_lt (multiple_lt_two_zpow m' e'))
  have hlog := (zpow_lt_zpow_iff_right₀ one_lt_two).mp hlt
  have htarget := h.targetExponent_eq
  simp only [Format.targetExponent, totalExponent] at htarget ⊢
  omega

theorem roundWithAccuracy_of_rounded {em : ExtendedMantissa} {t : Int} {a : Accuracy}
    (hfirst : shiftToTargetExponent .binary64 m e a = (em, t)) {m' : Nat} {e' : Int} {k : Nat}
    (h : Canonical m' e') (hem : em.roundedMantissa = m' * 2 ^ k) (ht : t = e' - k) :
    roundWithAccuracy .binary64 s m e a = .finite s m' e' h.pos := by
  unfold roundWithAccuracy
  rw [hfirst]
  simp only [hem, ht, shiftToTargetExponent_exact h]
  rw [dif_neg h.pos.ne']

/-- A significand that loses its bits beyond the 53rd stays full, unless the exponent is the
least one. -/
theorem rounded_bounds (hm : 0 < m) (hleast : -1074 ≤ e) {k : Nat}
    (hk : Format.binary64.targetExponent (totalExponent m e) = e + k) :
    let r := (ExtendedMantissa.mk m false false >>> k).roundedMantissa
    0 < r ∧ r ≤ 2 ^ 53 ∧ (2 ^ 52 ≤ r ∨ e + k = -1074) := by
  intro r
  have ht : max ((m.log2 : Int) + e - 52) (-1074) = e + k := by
    rw [← hk]
    simp only [Format.targetExponent, totalExponent, Format.mantissaBits, Format.minExponent]
    norm_num
    ring_nf
  have hlow : m / 2 ^ k ≤ r := by
    have := (roundedMantissa_bounds (ExtendedMantissa.mk m false false >>> k)).1
    rwa [mantissa_shiftRight] at this
  have hhigh : r ≤ 2 ^ 53 := by
    refine roundedMantissa_le ?_
    rw [← Nat.pow_add]
    refine Nat.le_of_lt (Nat.lt_of_lt_of_le Nat.lt_log2_self (Nat.pow_le_pow_right two_pos ?_))
    omega
  by_cases hmin : e + k = -1074
  · -- nothing is dropped
    obtain rfl : k = 0 := by omega
    rw [Nat.pow_zero, Nat.div_one] at hlow
    exact ⟨Nat.lt_of_lt_of_le hm hlow, hhigh, .inr hmin⟩
  · have hfull : 2 ^ 52 ≤ m / 2 ^ k := by
      rw [Nat.le_div_iff_mul_le (Nat.two_pow_pos k), ← Nat.pow_add]
      refine Nat.le_trans (Nat.pow_le_pow_right two_pos ?_) (Nat.log2_self_le hm.ne')
      omega
    exact ⟨Nat.lt_of_lt_of_le (by norm_num) (Nat.le_trans hfull hlow), hhigh,
      .inl (Nat.le_trans hfull hlow)⟩

/-- A number that is not below the least double is rounded to a double that is not above any
multiple, of the power of two that the size asks for, that the number is not above. -/
theorem exists_roundWithAccuracy (hm : 0 < m) (hleast : -1074 ≤ e)
    (he : e ≤ Format.binary64.targetExponent (totalExponent m e)) :
    ∃ m' e', ∃ h : Canonical m' e',
      roundWithAccuracy .binary64 s m e .exact = .finite s m' e' h.pos ∧
      ∀ n : Nat, (m : ℚ) * 2 ^ e ≤ n * 2 ^ Format.binary64.targetExponent (totalExponent m e) →
        (m' : ℚ) * 2 ^ e' ≤ n * 2 ^ Format.binary64.targetExponent (totalExponent m e) := by
  obtain ⟨k, hk⟩ : ∃ k : Nat, Format.binary64.targetExponent (totalExponent m e) = e + k :=
    ⟨(Format.binary64.targetExponent (totalExponent m e) - e).toNat, by omega⟩
  obtain ⟨hpos, hhigh, hfull⟩ := rounded_bounds hm hleast hk
  have hfirst : shiftToTargetExponent .binary64 m e .exact =
      (ExtendedMantissa.mk m false false >>> k, e + k) := by
    rw [shiftToTargetExponent, hk]
    simp [shiftToExponent, ExtendedMantissa.ofMantissaAndAccuracy]
  obtain ⟨m', e', i, h, hm', he'⟩ := exists_canonical hpos hhigh (by omega) hfull
  refine ⟨m', e', h, roundWithAccuracy_of_rounded hfirst h hm' he', fun n hn => ?_⟩
  rw [hk] at hn ⊢
  have hle : (ExtendedMantissa.mk m false false >>> k).roundedMantissa ≤ n := by
    refine roundedMantissa_le ?_
    rw [add_comm e, zpow_add₀ two_ne_zero, ← mul_assoc, zpow_natCast] at hn
    exact_mod_cast le_of_mul_le_mul_right hn (by positivity)
  rw [hm'] at hle
  calc (m' : ℚ) * 2 ^ e' = (m' * 2 ^ i : Nat) * 2 ^ (e + k : Int) := by rw [he', cast_scaled]
    _ ≤ n * 2 ^ (e + k : Int) := by gcongr

/-- A number that is not below the least double and not above another one is rounded to a double
that is not above it either. -/
theorem exists_round_le {m₁ : Nat} {e₁ : Int} (hm : 0 < m) (hleast : -1074 ≤ e)
    (h₁ : Canonical m₁ e₁) (hle : (m : ℚ) * 2 ^ e ≤ m₁ * 2 ^ e₁) :
    ∃ m' e', ∃ h : Canonical m' e', UnpackedFloat.round .binary64 s m e = .finite s m' e' h.pos ∧
      (m' : ℚ) * 2 ^ e' ≤ m₁ * 2 ^ e₁ := by
  have ht := targetExponent_le_of_le hm h₁ hle
  -- with zeros behind it the number only loses bits
  obtain ⟨j, hj⟩ : ∃ j, (e - Format.binary64.targetExponent (totalExponent m e)).toNat = j :=
    ⟨_, rfl⟩
  have htleast : -1074 ≤ Format.binary64.targetExponent (totalExponent m e) := le_max_right _ _
  obtain ⟨m', e', h, hround, hbound⟩ := exists_roundWithAccuracy (s := s)
    (Nat.mul_pos hm (Nat.two_pow_pos j)) (e := e - j) (by omega)
    (by rw [totalExponent_scaled hm]; omega)
  rw [totalExponent_scaled hm, cast_scaled] at hbound
  refine ⟨m', e', h, ?_, ?_⟩
  · simp only [UnpackedFloat.round, decreaseExponent, Nat.shiftLeft_eq, hj]
    exact hround
  · -- the larger double is a multiple of the same power of two
    generalize Format.binary64.targetExponent (totalExponent m e) = t at hbound ht
    rw [← cast_shifted m₁ ht] at hle ⊢
    exact hbound _ hle

end Reckoner
