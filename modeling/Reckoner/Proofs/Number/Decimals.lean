import Reckoner.Proofs.Number.Literals

/-!
# Decimals as numbers

A decimal stands for a number (`Decimal.value`), and the operations on decimals are what they
say for these numbers. A quotient is rounded by a half at most (`abs_roundQuotient_sub`), so a
decimal that is cut to some places is off by half a unit of the last one
(`Decimal.abs_value_round_sub`), and in scientific form by half a unit of the last digit, also
where rounding carries into a new one (`Decimal.exists_scientific`).
-/

namespace Reckoner

theorem cast_powerOfTen (n : Nat) : (powerOfTen n : ℚ) = 10 ^ n := by
  simp [powerOfTen]

theorem powerOfTen_add (m n : Nat) : powerOfTen (m + n) = powerOfTen m * powerOfTen n :=
  Nat.pow_add 10 m n

/-- Zeros are added to a number or taken away, and the power of ten makes up for them. -/
theorem mul_powerOfTen_mul_zpow (n k : Nat) (z : Int) :
    ((n * powerOfTen k : Nat) : ℚ) * 10 ^ (z - k) = n * 10 ^ z := by
  rw [Nat.cast_mul, cast_powerOfTen, mul_assoc, ← zpow_natCast, ← zpow_add₀ (by norm_num),
    add_sub_cancel]

theorem div_powerOfTen_mul_zpow (n k : Nat) (z : Int) :
    (n : ℚ) / powerOfTen k * 10 ^ (z + k) = n * 10 ^ z := by
  rw [cast_powerOfTen, div_eq_mul_inv, mul_assoc, ← zpow_natCast, ← zpow_neg,
    ← zpow_add₀ (by norm_num), neg_add_cancel_comm_assoc]

theorem length_digits_le {n k : Nat} (hk : 0 < k) (h : n < powerOfTen k) :
    (digits n).length ≤ k :=
  (Nat.length_toDigits_le_iff (by decide) hk).mpr h

/-! ### Rounded quotients -/

theorem roundQuotient_bounds (n : Nat) {d : Nat} (hd : 0 < d) :
    2 * n ≤ 2 * (roundQuotient n d * d) + d ∧ 2 * (roundQuotient n d * d) ≤ 2 * n + d := by
  have hdiv := Nat.div_add_mod' n d
  have hmod := Nat.mod_lt n hd
  unfold roundQuotient
  dsimp only
  split
  · omega
  · split
    · rw [Nat.add_mul, Nat.one_mul]
      omega
    · obtain hparity | hparity := Nat.mod_two_eq_zero_or_one (n / d)
      · rw [hparity, Nat.add_zero]
        omega
      · rw [hparity, Nat.add_mul, Nat.one_mul]
        omega

theorem roundQuotient_le {n d k : Nat} (hd : 0 < d) (h : n ≤ k * d) : roundQuotient n d ≤ k := by
  have hbound := (roundQuotient_bounds n hd).2
  have hlt : roundQuotient n d * d < (k + 1) * d := by
    rw [Nat.add_mul, Nat.one_mul]
    omega
  exact Nat.lt_succ_iff.mp (Nat.lt_of_mul_lt_mul_right hlt)

theorem le_roundQuotient {n d k : Nat} (hd : 0 < d) (h : k * d ≤ n) : k ≤ roundQuotient n d := by
  have hbound := (roundQuotient_bounds n hd).1
  have hlt : k * d < (roundQuotient n d + 1) * d := by
    rw [Nat.add_mul, Nat.one_mul]
    omega
  exact Nat.lt_succ_iff.mp (Nat.lt_of_mul_lt_mul_right hlt)

/-- A quotient is rounded by a half at most. -/
theorem abs_roundQuotient_sub (n : Nat) {d : Nat} (hd : 0 < d) :
    |(roundQuotient n d : ℚ) - n / d| ≤ 1 / 2 := by
  have hdq : (0 : ℚ) < d := by exact_mod_cast hd
  obtain ⟨hlow, hhigh⟩ := roundQuotient_bounds n hd
  have hlow : (2 : ℚ) * n ≤ 2 * (roundQuotient n d * d) + d := by exact_mod_cast hlow
  have hhigh : (2 : ℚ) * (roundQuotient n d * d) ≤ 2 * n + d := by exact_mod_cast hhigh
  have hscaled : ((roundQuotient n d : ℚ) - n / d) * d = roundQuotient n d * d - n := by
    rw [sub_mul, div_mul_cancel₀ _ hdq.ne']
  rw [abs_le]
  constructor
  · refine le_of_mul_le_mul_right ?_ hdq
    rw [hscaled]
    linarith
  · refine le_of_mul_le_mul_right ?_ hdq
    rw [hscaled]
    linarith

/-! ### Decimals -/

namespace Decimal

/-- The number that a decimal stands for. -/
def value (x : Decimal) : ℚ := x.units * 10 ^ (-(x.places : Int))

theorem value_eq_div (x : Decimal) : x.value = x.units / powerOfTen x.places := by
  rw [value, zpow_neg, zpow_natCast, cast_powerOfTen, div_eq_mul_inv]

theorem value_ofBinary (m : Nat) (e : Int) : (ofBinary m e).value = m * 2 ^ e :=
  Numeral.ofBinary_eq m e

theorem value_nonneg (x : Decimal) : 0 ≤ x.value := by
  unfold value
  positivity

theorem cast_powerOfTen_pos (n : Nat) : (0 : ℚ) < powerOfTen n := by
  exact_mod_cast powerOfTen_pos n

theorem lt_iff {x y : Decimal} : x < y ↔ x.value < y.value := by
  show x.units * powerOfTen y.places < y.units * powerOfTen x.places ↔ _
  rw [value_eq_div, value_eq_div, div_lt_div_iff₀ (cast_powerOfTen_pos _) (cast_powerOfTen_pos _)]
  exact_mod_cast Iff.rfl

theorem value_distance (x : Decimal) (n : Nat) : (x.distance n).value = |x.value - n| := by
  have hpos := cast_powerOfTen_pos x.places
  have hcast : |(x.units : ℚ) - (n * powerOfTen x.places : Nat)| =
      ((x.units - n * powerOfTen x.places) + (n * powerOfTen x.places - x.units) : Nat) := by
    obtain hle | hle := Nat.le_total x.units (n * powerOfTen x.places)
    · rw [Nat.sub_eq_zero_of_le hle, Nat.zero_add, Nat.cast_sub hle, abs_sub_comm]
      exact abs_of_nonneg (sub_nonneg.mpr (by exact_mod_cast hle))
    · rw [Nat.sub_eq_zero_of_le hle, Nat.add_zero, Nat.cast_sub hle]
      exact abs_of_nonneg (sub_nonneg.mpr (by exact_mod_cast hle))
  rw [value_eq_div, value_eq_div x, distance, ← hcast, ← abs_of_pos hpos, ← abs_div, sub_div,
    abs_of_pos hpos, Nat.cast_mul, mul_div_cancel_right₀ _ hpos.ne']

/-- The nearest whole number to a whole number. -/
theorem nearest_eq {x : Decimal} {n : Nat} (h : x.value = n) : x.nearest = n := by
  have hpos := powerOfTen_pos x.places
  rw [value_eq_div, div_eq_iff (cast_powerOfTen_pos _).ne'] at h
  have h : x.units = n * powerOfTen x.places := by exact_mod_cast h
  rw [nearest, h]
  refine Nat.div_eq_of_lt_le ?_ ?_
  · nlinarith
  · nlinarith

/-! ### Rounding to places -/

@[simp] theorem places_round (p : Nat) (x : Decimal) : (x.round p).places = p := by
  unfold round
  split <;> rfl

theorem abs_value_round_sub (p : Nat) (x : Decimal) :
    |(x.round p).value - x.value| ≤ 1 / 2 * 10 ^ (-(p : Int)) := by
  unfold round
  split
  · rename_i hle
    have heq : value ⟨x.units * powerOfTen (p - x.places), p⟩ = x.value := by
      obtain ⟨k, rfl⟩ := Nat.exists_eq_add_of_le hle
      rw [value, value, Nat.add_sub_cancel_left, Nat.cast_add, neg_add, ← sub_eq_add_neg,
        mul_powerOfTen_mul_zpow]
    rw [heq, sub_self, abs_zero]
    positivity
  · rename_i hlt
    obtain ⟨k, hk⟩ := Nat.exists_eq_add_of_le (Nat.le_of_not_le hlt)
    have hround := abs_roundQuotient_sub x.units (powerOfTen_pos k)
    have heq : x.value = (x.units : ℚ) / powerOfTen k * 10 ^ (-(p : Int)) := by
      rw [value, ← div_powerOfTen_mul_zpow _ k]
      congr 2
      omega
    have hpow : (0 : ℚ) < 10 ^ (-(p : Int)) := by positivity
    rw [heq, value, hk, Nat.add_sub_cancel_left, ← sub_mul, abs_mul, abs_of_pos hpow]
    gcongr

/-! ### The leading digit -/

theorem exists_length_digits (n : Nat) : ∃ k, (digits n).length = k + 1 :=
  Nat.exists_eq_succ_of_ne_zero (List.length_pos_iff.mpr Nat.toDigits_ne_nil).ne'

theorem digits_bounds {n : Nat} (hn : 0 < n) :
    ∃ k, (digits n).length = k + 1 ∧ 10 ^ k ≤ n ∧ n < 10 ^ (k + 1) := by
  obtain ⟨k, hk⟩ := exists_length_digits n
  refine ⟨k, hk, ?_, (Nat.length_toDigits_le_iff (by decide) (Nat.succ_pos k)).mp hk.le⟩
  obtain rfl | hpos := Nat.eq_zero_or_pos k
  · exact hn
  · by_contra hlt
    have hle := (Nat.length_toDigits_le_iff (by decide) hpos).mpr (Nat.lt_of_not_le hlt)
    rw [digits] at hk
    omega

theorem order_eq {x : Decimal} {k : Nat} (hk : (digits x.units).length = k + 1) :
    x.order = k - x.places := by
  unfold order
  rw [hk]
  push_cast
  ring

/-- The order is that of the leading digit. -/
theorem order_bounds {x : Decimal} (hx : 0 < x.units) :
    (10 : ℚ) ^ x.order ≤ x.value ∧ x.value < 10 ^ (x.order + 1) := by
  obtain ⟨k, hk, hlow, hhigh⟩ := digits_bounds hx
  have hlow : (10 : ℚ) ^ (k : Int) ≤ x.units := by exact_mod_cast hlow
  have hhigh : (x.units : ℚ) < 10 ^ ((k : Int) + 1) := by exact_mod_cast hhigh
  have hpow : (0 : ℚ) < 10 ^ (-(x.places : Int)) := by positivity
  have hsucc : (k : Int) - x.places + 1 = k + 1 + -(x.places : Int) := by ring
  rw [order_eq hk, hsucc, sub_eq_add_neg, value, zpow_add₀ (by norm_num),
    zpow_add₀ (by norm_num) ((k : Int) + 1)]
  constructor
  · gcongr
  · gcongr

/-! ### The scientific form -/

/-- The digits of the scientific form as one whole number, which can have one digit more. -/
def significand (p : Nat) (x : Decimal) : Nat :=
  let width := (digits x.units).length
  if width ≤ p + 1 then x.units * powerOfTen (p + 1 - width)
  else roundQuotient x.units (powerOfTen (width - (p + 1)))

theorem scientific_eq (p : Nat) (x : Decimal) :
    x.scientific p =
      if x.significand p < powerOfTen (p + 1) then
        chars ⟨x.significand p, p⟩ ++ 'e' :: (toString x.order).toList
      else chars ⟨powerOfTen p, p⟩ ++ 'e' :: (toString (x.order + 1)).toList := rfl

theorem significand_bounds (p : Nat) {x : Decimal} (hx : 0 < x.units) :
    powerOfTen p ≤ x.significand p ∧ x.significand p ≤ powerOfTen (p + 1) := by
  obtain ⟨k, hk, hlow, hhigh⟩ := digits_bounds hx
  have hlow : powerOfTen k ≤ x.units := hlow
  have hhigh : x.units ≤ powerOfTen (k + 1) := Nat.le_of_lt hhigh
  unfold significand
  dsimp only
  rw [hk]
  split
  · rename_i hle
    obtain ⟨j, rfl⟩ := Nat.exists_eq_add_of_le (Nat.le_of_succ_le_succ hle)
    have hj : k + j + 1 - (k + 1) = j := by omega
    rw [hj, powerOfTen_add, show k + j + 1 = k + 1 + j by ring, powerOfTen_add (k + 1)]
    exact ⟨Nat.mul_le_mul_right _ hlow, Nat.mul_le_mul_right _ hhigh⟩
  · rename_i hlt
    obtain ⟨j, rfl⟩ := Nat.exists_eq_add_of_lt (Nat.lt_of_succ_lt_succ (Nat.lt_of_not_le hlt))
    have hj : p + j + 1 + 1 - (p + 1) = j + 1 := by omega
    rw [hj]
    constructor
    · refine le_roundQuotient (powerOfTen_pos _) ?_
      rwa [← powerOfTen_add, ← Nat.add_assoc]
    · refine roundQuotient_le (powerOfTen_pos _) ?_
      rwa [← powerOfTen_add, show p + 1 + (j + 1) = p + j + 1 + 1 by ring]

theorem abs_significand_sub (p : Nat) (x : Decimal) :
    |(x.significand p : ℚ) * 10 ^ (x.order - p) - x.value| ≤ 1 / 2 * 10 ^ (x.order - p) := by
  obtain ⟨k, hk⟩ := exists_length_digits x.units
  have hpow : (0 : ℚ) < 10 ^ (x.order - p) := by positivity
  unfold significand
  dsimp only
  rw [hk]
  split
  · rename_i hle
    obtain ⟨j, rfl⟩ := Nat.exists_eq_add_of_le (Nat.le_of_succ_le_succ hle)
    have hj : k + j + 1 - (k + 1) = j := by omega
    have heq : ((x.units * powerOfTen j : Nat) : ℚ) * 10 ^ (x.order - (k + j : Nat)) = x.value := by
      rw [value, order_eq hk, ← mul_powerOfTen_mul_zpow x.units j]
      congr 2
      omega
    rw [hj, heq, sub_self, abs_zero]
    positivity
  · rename_i hlt
    obtain ⟨j, rfl⟩ := Nat.exists_eq_add_of_lt (Nat.lt_of_succ_lt_succ (Nat.lt_of_not_le hlt))
    have hj : p + j + 1 + 1 - (p + 1) = j + 1 := by omega
    have hround := abs_roundQuotient_sub x.units (powerOfTen_pos (j + 1))
    have heq : x.value = (x.units : ℚ) / powerOfTen (j + 1) * 10 ^ (x.order - p) := by
      rw [value, order_eq hk, ← div_powerOfTen_mul_zpow _ (j + 1)]
      congr 2
      omega
    rw [hj, heq, ← sub_mul, abs_mul, abs_of_pos hpow]
    gcongr

/-- The scientific form has one digit before the point, and is off by half a unit of the last
one at most. -/
theorem exists_scientific (p : Nat) {x : Decimal} (hx : 0 < x.units) :
    ∃ (c : Nat) (e : Int), x.scientific p = chars ⟨c, p⟩ ++ 'e' :: (toString e).toList ∧
      powerOfTen p ≤ c ∧ c < powerOfTen (p + 1) ∧ (e = x.order ∨ e = x.order + 1) ∧
      |(c : ℚ) * 10 ^ (e - p) - x.value| ≤ 1 / 2 * 10 ^ (x.order - p) := by
  obtain ⟨hlow, hhigh⟩ := significand_bounds p hx
  have hclose := abs_significand_sub p x
  rw [scientific_eq]
  split
  · rename_i hlt
    exact ⟨_, _, rfl, hlow, hlt, .inl rfl, hclose⟩
  · -- rounding has made a power of ten
    rename_i hle
    have hcarry : x.significand p = powerOfTen (p + 1) :=
      Nat.le_antisymm hhigh (Nat.le_of_not_lt hle)
    have heq : (powerOfTen p : ℚ) * 10 ^ (x.order + 1 - p) =
        (powerOfTen (p + 1) : Nat) * 10 ^ (x.order - p) := by
      rw [add_sub_right_comm, zpow_add_one₀ (by norm_num), powerOfTen_succ]
      push_cast
      ring
    refine ⟨_, _, rfl, Nat.le_refl _, ?_, .inr rfl, ?_⟩
    · have := powerOfTen_pos p
      rw [powerOfTen_succ]
      omega
    · rw [heq, ← hcarry]
      exact hclose

end Decimal

end Reckoner
