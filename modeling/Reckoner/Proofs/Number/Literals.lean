import Reckoner.Number.Decimal
import Reckoner.Proofs.Number.Rounding
import Reckoner.Proofs.Token.Numerals
import Reckoner.Proofs.Expr.Shape

/-!
# The values of number literals

A literal has no minus sign and neither has its value (`Numeral.isMagnitude_value`). A
literal that says exactly a double has this double as its value, on the short way over
the table of powers of ten as on the long one. Every double without a minus sign is
said exactly by some literal (`Numeral.ofFloat`), since its decimal ends.
-/

namespace Reckoner

open Float.Model Float.Model.UnpackedFloat

/-! ### No minus sign -/

/-- A number, zero or infinity without a minus sign. -/
def Unsigned : UnpackedFloat → Prop
  | .infinity s | .zero s | .finite s _ _ _ => s = .positive
  | .notANumber => False

namespace Unsigned

theorem roundWithAccuracy (f : Format) (m : Nat) (e : Int) (a : Accuracy) :
    Unsigned (roundWithAccuracy f .positive m e a) := by
  unfold UnpackedFloat.roundWithAccuracy
  dsimp only
  split <;> rfl

theorem unpack_packComponents {k : BitVec 11} {f : BitVec 52} (h : k = -1#11 → f = 0#52) :
    Unsigned (UnpackedFloat.unpack .binary64 (packComponents .binary64 .positive k f)) := by
  unfold UnpackedFloat.unpack
  simp only [unpackMantissa_packComponents, unpackExponent_packComponents,
    unpackSign_packComponents, UnpackedFloat.Sign.ofBitVec_toBitVec]
  split
  · rename_i hk
    rw [if_pos (h hk)]
    rfl
  · split
    · split <;> rfl
    · rfl

theorem unpack_pack {u : UnpackedFloat} (h : Unsigned u) :
    Unsigned (Float.Model.pack u).unpack := by
  show Unsigned (UnpackedFloat.unpack .binary64 (UnpackedFloat.pack .binary64 u))
  cases u with
  | notANumber => exact h.elim
  | infinity s =>
    obtain rfl : s = .positive := h
    exact unpack_packComponents fun _ => rfl
  | zero s =>
    obtain rfl : s = .positive := h
    exact unpack_packComponents fun _ => rfl
  | finite s m e hm =>
    obtain rfl : s = .positive := h
    unfold UnpackedFloat.pack
    dsimp only
    split
    · exact unpack_packComponents fun _ => rfl
    · rename_i hroom
      split
      · refine unpack_packComponents fun heq => ?_
        have := congrArg BitVec.toNat heq
        rw [BitVec.toNat_ofNat, show (-1#11).toNat = 2047 from rfl] at this
        omega
      · exact unpack_packComponents fun heq => absurd heq (by decide)

theorem mul {u : UnpackedFloat} (hu : Unsigned u) (m : Nat) (e : Int) (hm : 0 < m) :
    Unsigned (UnpackedFloat.mul .binary64 u (.finite .positive m e hm)) := by
  cases u with
  | notANumber => exact hu.elim
  | infinity s =>
    obtain rfl : s = .positive := hu
    rfl
  | zero s =>
    obtain rfl : s = .positive := hu
    rfl
  | finite s m' e' hm' =>
    obtain rfl : s = .positive := hu
    exact roundWithAccuracy ..

theorem div {u : UnpackedFloat} (hu : Unsigned u) (m : Nat) (e : Int) (hm : 0 < m) :
    Unsigned (UnpackedFloat.div .binary64 u (.finite .positive m e hm)) := by
  cases u with
  | notANumber => exact hu.elim
  | infinity s =>
    obtain rfl : s = .positive := hu
    rfl
  | zero s =>
    obtain rfl : s = .positive := hu
    rfl
  | finite s m' e' hm' =>
    obtain rfl : s = .positive := hu
    exact roundWithAccuracy ..

theorem normalize (n : Nat) : Unsigned (UnpackedFloat.normalize .binary64 n 0 .positive) := by
  unfold UnpackedFloat.normalize
  split
  · rename_i h
    exact absurd (compare_lt_iff_lt.mp h) (by omega)
  · rfl
  · exact roundWithAccuracy ..

theorem ofScientific (c : Nat) (k : Int) : Unsigned (UnpackedFloat.ofScientific .binary64 c k) := by
  unfold UnpackedFloat.ofScientific
  split
  · rfl
  · split
    · rfl
    · split
      · rfl
      · split
        · exact mul (u := .finite .positive _ _ _) rfl ..
        · exact div (u := .finite .positive _ _ _) rfl ..

end Unsigned

/-! ### The short way -/

/-- Whether a double is the power of ten, with a full significand. -/
def isPowerOfTen (k : Nat) : UnpackedFloat → Bool
  | .finite .positive m e _ => m * 2 ^ e.toNat = 10 ^ k * 2 ^ (-e).toNat && 2 ^ 52 ≤ m
  | _ => false

theorem isPowerOfTen_table : ∀ (k : Nat) (_ : k < Float.exactlyRepresentablePowersOfTen.size),
    isPowerOfTen k Float.exactlyRepresentablePowersOfTen[k].toModel.unpack = true := by
  decide +kernel

theorem exists_of_isPowerOfTen {k : Nat} {u : UnpackedFloat} (h : isPowerOfTen k u = true) :
    ∃ m e hm, u = .finite .positive m e hm ∧ 2 ^ 52 ≤ m ∧ (m : ℚ) * 2 ^ e = 10 ^ k := by
  unfold isPowerOfTen at h
  split at h
  · rename_i m e hm
    simp only [Bool.and_eq_true, decide_eq_true_eq] at h
    refine ⟨m, e, hm, rfl, h.2, ?_⟩
    have hsplit : e = (e.toNat : Int) - ((-e).toNat : Int) := by omega
    have heq : (m : ℚ) * 2 ^ e.toNat = 10 ^ k * 2 ^ (-e).toNat := by exact_mod_cast h.1
    rw [hsplit, zpow_sub₀ two_ne_zero, zpow_natCast, zpow_natCast, ← mul_div_assoc, heq,
      mul_div_cancel_right₀ _ (pow_ne_zero _ two_ne_zero)]
  · cases h

theorem toModel_toFloat {n : Nat} (hlt : n < 2 ^ 53) :
    n.toUInt64.toFloat.toModel = .pack (normalize .binary64 n 0 .positive) := by
  have hn : n.toUInt64.toNat = n := by
    rw [Nat.toUInt64, UInt64.toNat_ofNat', Nat.mod_eq_of_lt (Nat.lt_trans hlt (by decide))]
  show Float.Model.pack (normalize .binary64 (n.toUInt64.toNat : Int) 0 .positive) = _
  rw [hn]

/-- A whole number below `2 ^ 53` is a double. -/
theorem unpack_toFloat {n : Nat} (hn : 0 < n) (hlt : n < 2 ^ 53) :
    ∃ m e hm, n.toUInt64.toFloat.toModel.unpack = .finite .positive m e hm ∧
      2 ^ 52 ≤ m ∧ (m : ℚ) * 2 ^ e = n := by
  have hlog : n.log2 < 53 := (Nat.log2_lt hn.ne').mpr hlt
  obtain ⟨k, hk⟩ : ∃ k, n.log2 + k = 52 := ⟨52 - n.log2, by omega⟩
  have hfull : n.log2 + k = (n * 2 ^ k).log2 := (log2_mul_two_pow hn k).symm
  have hpos : 0 < n * 2 ^ k := Nat.mul_pos hn (Nat.two_pow_pos k)
  have hcanonical : Canonical (n * 2 ^ k) (-k) := by
    refine ⟨hpos, ?_, by omega, .inl ?_⟩
    · exact (Nat.log2_lt hpos.ne').mp (by omega)
    · exact (Nat.le_log2 hpos.ne').mp (by omega)
  have hround : normalize .binary64 n 0 .positive = .finite .positive (n * 2 ^ k) (-k) hpos := by
    have hcompare : compare (n : Int) 0 = .gt := compare_gt_iff_gt.mpr (by omega)
    have htarget : Format.binary64.targetExponent (totalExponent n 0) = -k := by
      simp only [Format.targetExponent, totalExponent, Format.mantissaBits, Format.minExponent]
      push_cast
      omega
    have hexact := roundWithAccuracy_exact (s := .positive) hcanonical 0
    unfold UnpackedFloat.normalize
    rw [hcompare]
    simp only [UnpackedFloat.round, Int.toNat_natCast, htarget, decreaseExponent]
    simpa [Nat.shiftLeft_eq] using hexact
  refine ⟨n * 2 ^ k, -k, hpos, ?_, (Nat.le_log2 hpos.ne').mp (by omega), ?_⟩
  · rw [toModel_toFloat hlt, hround]
    exact unpack_pack hcanonical (by omega)
  · push_cast
    rw [mul_assoc, ← zpow_natCast, ← zpow_add₀ two_ne_zero]
    simp

/-! ### Exact literals -/

theorem toModel_injective {x y : Float} (h : x.toModel = y.toModel) : x = y := by
  cases x
  cases y
  exact congrArg Float.ofModel h

section

variable {x : Float} {m : Nat} {e : Int} {hm : 0 < m}
  (hx : x.toModel.unpack = .finite .positive m e hm)

include hx

theorem ofModel_pack_eq {u : UnpackedFloat} (hu : u = .finite .positive m e hm) :
    Float.ofModel (.pack u) = x :=
  toModel_injective (by rw [hu, ← hx, pack_unpack])

theorem magnitude_lt : (m : ℚ) * 2 ^ e < 2 ^ (1024 : Int) := by
  obtain ⟨hcanonical, he⟩ := canonical_of_unpack hx
  have hm : (m : ℚ) < 2 ^ (53 : Int) := by exact_mod_cast hcanonical.lt
  calc (m : ℚ) * 2 ^ e < 2 ^ (53 : Int) * 2 ^ e := by gcongr
    _ ≤ 2 ^ (53 : Int) * 2 ^ (971 : Int) := by gcongr; norm_num
    _ = 2 ^ (1024 : Int) := by rw [← zpow_add₀ two_ne_zero]; norm_num

theorem le_magnitude : (2 : ℚ) ^ (-1074 : Int) ≤ m * 2 ^ e := by
  obtain ⟨hcanonical, -⟩ := canonical_of_unpack hx
  have hm : (1 : ℚ) ≤ m := by exact_mod_cast hm
  calc (2 : ℚ) ^ (-1074 : Int) ≤ 2 ^ e := zpow_le_zpow_right₀ one_le_two hcanonical.least
    _ ≤ m * 2 ^ e := le_mul_of_one_le_left (by positivity) hm

/-- The long way keeps more digits than a double has, and stays within its range. -/
theorem ofScientific_long {c : Nat} {z : Int} (hc : 0 < c) (heq : (c : ℚ) * 10 ^ z = m * 2 ^ e) :
    UnpackedFloat.ofScientific .binary64 c z = .finite .positive m e hm := by
  obtain ⟨hcanonical, -⟩ := canonical_of_unpack hx
  have hlt := hcanonical.lt
  have hbase : (2 : ℚ) ≤ 10 := by norm_num
  unfold UnpackedFloat.ofScientific
  rw [dif_neg hc.ne']
  by_cases hz : 0 ≤ z
  · obtain ⟨k, rfl⟩ := Int.eq_ofNat_of_zero_le hz
    rw [zpow_natCast] at heq
    -- a larger power of ten would be beyond the doubles
    have hk : (k : Int) ≤ 2 ^ 11 := by
      have hc : (1 : ℚ) ≤ c := by exact_mod_cast hc
      have hpow : (2 : ℚ) ^ (k : Int) < 2 ^ (1024 : Int) := by
        calc (2 : ℚ) ^ (k : Int) = 2 ^ k := zpow_natCast _ _
          _ ≤ 10 ^ k := by gcongr
          _ ≤ c * 10 ^ k := le_mul_of_one_le_left (by positivity) hc
          _ = m * 2 ^ e := heq
          _ < 2 ^ (1024 : Int) := magnitude_lt hx
      have := (zpow_lt_zpow_iff_right₀ one_lt_two).mp hpow
      omega
    have hk' : ¬ (k : Int) < -(2 ^ 11 + (c.log2 : Int)) := by omega
    rw [if_neg (not_lt.mpr hk), if_neg hk', if_pos hz]
    refine mul_exact hcanonical ?_ ?_
    · rw [Nat.shiftLeft_eq, Int.toNat_natCast]
      calc m ≤ 2 ^ 53 := hlt.le
        _ ≤ c * 2 ^ 53 * 10 ^ k := by
          have := Nat.mul_pos hc (Nat.pow_pos (n := k) (show 0 < 10 by norm_num))
          nlinarith
    · have hshift : ((c <<< Format.binary64.mantissaBits : Nat) : ℚ)
          * 2 ^ (-(Format.binary64.mantissaBits : Int)) = c := by
        rw [Nat.shiftLeft_eq, Nat.cast_mul, mul_assoc, Nat.cast_pow, ← zpow_natCast]
        simp
      rw [hshift, Int.toNat_natCast, ← heq]
      norm_num
  · obtain ⟨k, rfl⟩ := Int.exists_eq_neg_ofNat (not_le.mp hz).le
    have hfraction : (c : ℚ) = m * 2 ^ e * 10 ^ k := by
      rw [← heq, zpow_neg, zpow_natCast, inv_mul_cancel_right₀ (by positivity)]
    -- with fewer digits before the power the value would be below the least double
    have hk : (k : Int) - 1074 < c.log2 + 1 := by
      have hpow : (2 : ℚ) ^ ((k : Int) - 1074) < 2 ^ ((c.log2 : Int) + 1) := by
        calc (2 : ℚ) ^ ((k : Int) - 1074) = 2 ^ (-1074 : Int) * 2 ^ k := by
              rw [← zpow_natCast, ← zpow_add₀ two_ne_zero, sub_eq_neg_add]
          _ ≤ 2 ^ (-1074 : Int) * 10 ^ k := by gcongr
          _ ≤ m * 2 ^ e * 10 ^ k := by gcongr; exact le_magnitude hx
          _ = c := hfraction.symm
          _ < 2 ^ ((c.log2 : Int) + 1) := by exact_mod_cast Nat.lt_log2_self
      exact (zpow_lt_zpow_iff_right₀ one_lt_two).mp hpow
    have hk' : ¬ -(k : Int) < -(2 ^ 11 + (c.log2 : Int)) := by omega
    rw [if_neg (show ¬ 2 ^ 11 < -(k : Int) by omega), if_neg hk', if_neg hz]
    refine div_exact hcanonical ?_
    simpa using hfraction

/-- A literal that says exactly a double has this double as its value. -/
theorem ofScientific_eq {c k : Nat} (negative : Bool)
    (heq : (c : ℚ) * 10 ^ (if negative then -(k : Int) else k) = m * 2 ^ e) :
    Float.ofScientific c negative k = x := by
  obtain ⟨hcanonical, -⟩ := canonical_of_unpack hx
  have hlt := hcanonical.lt
  have hc : 0 < c := by
    rw [Nat.pos_iff_ne_zero]
    rintro rfl
    have hpos : (0 : ℚ) < m * 2 ^ e := by positivity
    exact hpos.ne (by simpa using heq)
  unfold Float.ofScientific
  split
  · -- coefficient and power of ten are doubles, and one operation on them is exact
    rename_i hshort
    obtain ⟨m₁, e₁, h₁, hu₁, hfull₁, heq₁⟩ := unpack_toFloat hc hshort.1
    have hsize : k < Float.exactlyRepresentablePowersOfTen.size := Nat.lt_succ_of_le hshort.2
    obtain ⟨m₂, e₂, h₂, hu₂, hfull₂, heq₂⟩ := exists_of_isPowerOfTen (isPowerOfTen_table k hsize)
    cases negative with
    | true =>
      refine ofModel_pack_eq hx ?_
      show UnpackedFloat.div .binary64 _ _ = _
      rw [hu₁, hu₂]
      refine div_exact hcanonical ?_
      rw [heq₁, heq₂, ← heq, if_pos rfl, zpow_neg, zpow_natCast,
        inv_mul_cancel_right₀ (by positivity)]
    | false =>
      refine ofModel_pack_eq hx ?_
      show UnpackedFloat.mul .binary64 _ _ = _
      rw [hu₁, hu₂]
      refine mul_exact hcanonical (by nlinarith) ?_
      rw [heq₁, heq₂, ← heq, if_neg Bool.false_ne_true, zpow_natCast]
  · refine ofModel_pack_eq hx (ofScientific_long hx hc ?_)
    cases negative with
    | true =>
      rw [if_pos rfl] at heq ⊢
      rwa [Int.negOfNat_eq]
    | false =>
      rw [if_neg Bool.false_ne_true] at heq ⊢
      exact heq

end

/-! ### Values of literals -/

/-- The value of a literal is what its bits say, or an infinity, without a minus sign. -/
theorem Numeral.unsigned_value (n : Numeral) : Unsigned n.value.toModel.unpack := by
  unfold value Float.ofScientific
  split
  · rename_i hshort
    have hsize : n.scale.natAbs < Float.exactlyRepresentablePowersOfTen.size :=
      Nat.lt_succ_of_le hshort.2
    obtain ⟨m, e, hm, hu, -⟩ := exists_of_isPowerOfTen (isPowerOfTen_table _ hsize)
    have hcoefficient : Unsigned n.coefficient.toUInt64.toFloat.toModel.unpack := by
      rw [toModel_toFloat hshort.1]
      exact (Unsigned.normalize _).unpack_pack
    cases hs : decide (n.scale < 0) with
    | true =>
      refine Unsigned.unpack_pack (u := UnpackedFloat.div .binary64 _ _) ?_
      rw [hu]
      exact hcoefficient.div ..
    | false =>
      refine Unsigned.unpack_pack (u := UnpackedFloat.mul .binary64 _ _) ?_
      rw [hu]
      exact hcoefficient.mul ..
  · exact (Unsigned.ofScientific ..).unpack_pack

/-- The value of a literal has no minus sign. -/
theorem Numeral.isMagnitude_value {n : Numeral} (h : n.value.isFinite = true) :
    (Binary.ofFloat n.value).isMagnitude = true := by
  have hu := n.unsigned_value
  have hfinite : n.value.toModel.unpack.isFinite = true := h
  unfold Binary.ofFloat
  cases hval : n.value.toModel.unpack with
  | notANumber => simp [hval, Unsigned] at hu
  | infinity s => simp [hval, UnpackedFloat.isFinite] at hfinite
  | zero s =>
    obtain rfl : s = .positive := by rwa [hval] at hu
    rfl
  | finite s m e hm =>
    obtain rfl : s = .positive := by rwa [hval] at hu
    rfl

/-- A literal that says exactly a double has this double as its value. -/
theorem Numeral.value_eq {n : Numeral} {x : Float} {m : Nat} {e : Int} {hm : 0 < m}
    (hx : x.toModel.unpack = .finite .positive m e hm)
    (heq : (n.coefficient : ℚ) * 10 ^ n.scale = m * 2 ^ e) : n.value = x := by
  refine ofScientific_eq hx _ ?_
  rw [← heq]
  congr 2
  by_cases hs : n.scale < 0
  · rw [if_pos (by simpa using hs)]
    omega
  · rw [if_neg (by simpa using hs)]
    omega

/-! ### A literal for every double -/

namespace Numeral

/-- The literal with the digits of a decimal. -/
def ofDecimal (d : Decimal) : Numeral where
  whole := digits (d.units / powerOfTen d.places)
  fraction :=
    if d.places = 0 then none
    else some ((digits (d.units % powerOfTen d.places)).leftpad d.places '0')
  exponent := none

/-- A literal that says exactly the double, if this has no minus sign. -/
def ofFloat (x : Float) : Numeral := ofDecimal ((Decimal.ofFloat? x).getD ⟨0, 0⟩)

theorem spelling_ofDecimal (d : Decimal) : (ofDecimal d).spelling = d.chars := by
  unfold ofDecimal spelling Decimal.chars
  by_cases h : d.places = 0 <;> simp [h]

theorem all_isDigit_digits (n : Nat) : (digits n).all Char.isDigit = true :=
  List.all_eq_true.mpr fun _ hc => Nat.isDigit_of_mem_toDigits (by decide) (by decide) hc

theorem isWellFormed_ofDecimal (d : Decimal) : (ofDecimal d).isWellFormed = true := by
  have hfraction : ((ofDecimal d).fraction.getD []).all Char.isDigit = true := by
    unfold ofDecimal
    by_cases h : d.places = 0
    · simp [h]
    · simp only [h, if_false, Option.getD_some, List.leftpad, List.all_append, List.all_replicate,
        all_isDigit_digits]
      simp
  have hwhole : (ofDecimal d).whole ≠ [] := Nat.toDigits_ne_nil
  have hall : (ofDecimal d).whole.all Char.isDigit = true := all_isDigit_digits _
  have hempty : ((ofDecimal d).whole ++ (ofDecimal d).fraction.getD []).isEmpty = false := by
    simp [hwhole]
  simp only [isWellFormed, hall, hfraction, hempty]
  rfl

theorem fraction_ofDecimal_ne (d : Decimal) : (ofDecimal d).fraction ≠ some [] := by
  unfold ofDecimal
  by_cases h : d.places = 0
  · simp [h]
  · simp only [h, if_false, ne_eq, Option.some.injEq]
    refine List.ne_nil_of_length_pos ?_
    rw [List.length_leftpad]
    omega

theorem coefficient_ofDecimal (d : Decimal) : (ofDecimal d).coefficient = d.units := by
  unfold coefficient ofDecimal
  by_cases h : d.places = 0
  · simp [h, powerOfTen]
  · have hlt : d.units % powerOfTen d.places < 10 ^ d.places := Nat.mod_lt _ (powerOfTen_pos _)
    have hlength : (digits (d.units % powerOfTen d.places)).length ≤ d.places :=
      (Nat.length_toDigits_le_iff (by decide) (Nat.pos_of_ne_zero h)).mpr hlt
    simp only [h, if_false, Option.getD_some, Nat.ofDigitChars_append,
      Nat.ofDigitChars_ten_toDigits]
    rw [Nat.ofDigitChars_eq_ofDigitChars_zero, List.length_leftpad, max_eq_left hlength,
      List.leftpad, Nat.ofDigitChars_append, Nat.ofDigitChars_replicate_zero, Nat.mul_zero,
      Nat.ofDigitChars_ten_toDigits]
    exact Nat.div_add_mod _ _

theorem scale_ofDecimal (d : Decimal) : (ofDecimal d).scale = -d.places := by
  unfold scale ofDecimal
  by_cases h : d.places = 0
  · simp [h]
  · have hlt : d.units % powerOfTen d.places < 10 ^ d.places := Nat.mod_lt _ (powerOfTen_pos _)
    have hlength : (digits (d.units % powerOfTen d.places)).length ≤ d.places :=
      (Nat.length_toDigits_le_iff (by decide) (Nat.pos_of_ne_zero h)).mpr hlt
    simp [h, hlength]

/-- The decimal of a double says exactly the double. -/
theorem ofBinary_eq (m : Nat) (e : Int) :
    ((Decimal.ofBinary m e).units : ℚ) * 10 ^ (-((Decimal.ofBinary m e).places : Int))
      = m * 2 ^ e := by
  cases e with
  | ofNat k => simp [Decimal.ofBinary, Nat.shiftLeft_eq]
  | negSucc k =>
    have hten : (10 : ℚ) ^ (k + 1) = 2 ^ (k + 1) * 5 ^ (k + 1) := by
      rw [← mul_pow]
      norm_num
    have hplaces : -(((k + 1 : Nat) : Int)) = Int.negSucc k := rfl
    simp only [Decimal.ofBinary, hplaces, zpow_negSucc, hten, Nat.pow_eq]
    push_cast
    field_simp

/-- Every double without a minus sign is the value of its literal. -/
theorem value_ofFloat {x : Float} (h : (Binary.ofFloat x).isMagnitude = true) :
    (ofFloat x).value = x := by
  unfold Binary.ofFloat at h
  cases hx : x.toModel.unpack with
  | notANumber => simp [hx, Binary.isMagnitude] at h
  | infinity s => simp [hx, Binary.isMagnitude] at h
  | zero s =>
    have hs : s = .positive := by cases s <;> simp_all [Binary.isMagnitude, Binary.isNegative]
    subst hs
    have : ofFloat x = ofDecimal ⟨0, 0⟩ := by
      simp [ofFloat, Decimal.ofFloat?, Binary.ofFloat, hx, Decimal.ofBinary]
    rw [this]
    refine toModel_injective ?_
    rw [← pack_unpack x.toModel, hx]
    rfl
  | finite s m e hm =>
    have hs : s = .positive := by cases s <;> simp_all [Binary.isMagnitude, Binary.isNegative]
    subst hs
    have : ofFloat x = ofDecimal (Decimal.ofBinary m e) := by
      simp [ofFloat, Decimal.ofFloat?, Binary.ofFloat, hx]
    rw [this]
    refine value_eq hx ?_
    rw [coefficient_ofDecimal, scale_ofDecimal, ofBinary_eq]

end Numeral

end Reckoner
