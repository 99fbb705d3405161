import Reckoner.Number.Binary
import Reckoner.Proofs.Number.Nearest
import Reckoner.Proofs.Number.Literals

/-!
# Exact values

A finite double stands for an exact number (`exactValue`), and doubles are compared as the
numbers are that they stand for (`lt_iff_exactValue`, `beq_iff_exactValue`): of two numbers in
canonical form the one with the larger exponent is larger (`compare_canonical`). A number
below a double becomes a finite double (`exists_unpack_toFloat`), and exactly so where its
significand has 53 bits (`exactValue_toFloat`).
-/

namespace Reckoner

open Float.Model Float.Model.UnpackedFloat

/-! ### Signed numbers -/

/-- The number of this magnitude, negative or not. -/
def signed (negative : Bool) (q : ℚ) : ℚ := if negative then -q else q

@[simp] theorem abs_signed (negative : Bool) (q : ℚ) : |signed negative q| = |q| := by
  cases negative <;> simp [signed]

theorem abs_signed_sub (negative : Bool) (p q : ℚ) :
    |signed negative p - signed negative q| = |p - q| := by
  cases negative
  · rfl
  · simp only [signed, if_true, neg_sub_neg]
    exact abs_sub_comm q p

@[simp] theorem signed_eq_zero {negative : Bool} {q : ℚ} : signed negative q = 0 ↔ q = 0 := by
  cases negative <;> simp [signed]

theorem signed_lt_zero_iff {negative : Bool} {q : ℚ} (h : 0 < q) :
    signed negative q < 0 ↔ negative = true := by
  cases negative with
  | false => simpa [signed] using h.le
  | true => simpa [signed] using h

theorem sign_signed (negative : Bool) {q : ℚ} (h : 0 < q) :
    SignType.sign (signed negative q) = if negative then -1 else 1 := by
  cases negative with
  | false => exact sign_pos h
  | true => exact sign_neg (neg_lt_zero.mpr h)

/-- The number that is meant; an infinity and no number mean none, and count as zero. -/
def Binary.value : Binary → ℚ
  | .finite negative m e => signed negative (m * 2 ^ e)
  | _ => 0

/-- The number that a finite double stands for. -/
def exactValue (x : Float) : ℚ := (Binary.ofFloat x).value

section

variable {x y : Float} {s : UnpackedFloat.Sign} {m : Nat} {e : Int} {hm : 0 < m}

theorem ofFloat_of_unpack (h : x.toModel.unpack = .finite s m e hm) :
    Binary.ofFloat x = .finite (Binary.isNegative s) m e := by
  rw [Binary.ofFloat, h]

theorem ofFloat_of_unpack_zero (h : x.toModel.unpack = .zero s) :
    Binary.ofFloat x = .finite (Binary.isNegative s) 0 0 := by
  rw [Binary.ofFloat, h]

theorem exactValue_of_unpack (h : x.toModel.unpack = .finite s m e hm) :
    exactValue x = signed (Binary.isNegative s) (m * 2 ^ e) := by
  rw [exactValue, ofFloat_of_unpack h, Binary.value]

theorem exactValue_of_unpack_zero (h : x.toModel.unpack = .zero s) : exactValue x = 0 := by
  rw [exactValue, ofFloat_of_unpack_zero h, Binary.value]
  simp

theorem isFinite_of_unpack (h : x.toModel.unpack = .finite s m e hm) : x.isFinite = true := by
  show x.toModel.unpack.isFinite = true
  rw [h]
  rfl

theorem isFinite_of_unpack_zero (h : x.toModel.unpack = .zero s) : x.isFinite = true := by
  show x.toModel.unpack.isFinite = true
  rw [h]
  rfl

/-- A finite double is zero or a number in canonical form. -/
theorem unpack_cases (h : x.isFinite = true) :
    (∃ s, x.toModel.unpack = .zero s) ∨
      ∃ s m e, ∃ h : Canonical m e, x.toModel.unpack = .finite s m e h.pos ∧ e ≤ 971 := by
  replace h : x.toModel.unpack.isFinite = true := h
  cases hu : x.toModel.unpack with
  | notANumber => simp [hu, UnpackedFloat.isFinite] at h
  | infinity s => simp [hu, UnpackedFloat.isFinite] at h
  | zero s => exact .inl ⟨s, rfl⟩
  | finite s m e hm =>
    obtain ⟨hcanonical, he⟩ := canonical_of_unpack hu
    exact .inr ⟨s, m, e, hcanonical, rfl, he⟩

/-- A finite double has a significand of 53 bits, or none. -/
theorem exists_ofFloat (h : x.isFinite = true) :
    ∃ negative m e, Binary.ofFloat x = .finite negative m e ∧ m < 2 ^ 53 ∧ -1074 ≤ e ∧ e ≤ 971 := by
  obtain ⟨s, hx⟩ | ⟨s, m, e, h, hx, he⟩ := unpack_cases h
  · exact ⟨_, _, _, ofFloat_of_unpack_zero hx, by norm_num, by norm_num, by norm_num⟩
  · exact ⟨_, _, _, ofFloat_of_unpack hx, h.lt, h.least, he⟩

end

/-! ### The order of doubles -/

/-- A number with a larger exponent is larger, whatever the significands. -/
theorem Canonical.lt_of_exponent_lt {m₁ m₂ : Nat} {e₁ e₂ : Int} (h₁ : Canonical m₁ e₁)
    (h₂ : Canonical m₂ e₂) (he : e₁ < e₂) : (m₁ : ℚ) * 2 ^ e₁ < m₂ * 2 ^ e₂ := by
  have hleast := h₁.least
  have hfull : 2 ^ 52 ≤ m₂ := h₂.full.resolve_right (by omega)
  have hlow : ((2 : ℚ) ^ (52 : Int)) ≤ m₂ := by exact_mod_cast hfull
  have hhigh : (m₁ : ℚ) < 2 ^ (53 : Int) := by exact_mod_cast h₁.lt
  calc (m₁ : ℚ) * 2 ^ e₁ < 2 ^ (53 : Int) * 2 ^ e₁ := by gcongr
    _ = 2 ^ (53 + e₁) := (zpow_add₀ two_ne_zero _ _).symm
    _ ≤ 2 ^ (52 + e₂) := zpow_le_zpow_right₀ one_le_two (by omega)
    _ = 2 ^ (52 : Int) * 2 ^ e₂ := zpow_add₀ two_ne_zero _ _
    _ ≤ m₂ * 2 ^ e₂ := by gcongr

theorem compare_canonical {m₁ m₂ : Nat} {e₁ e₂ : Int} (h₁ : Canonical m₁ e₁)
    (h₂ : Canonical m₂ e₂) :
    (compare e₁ e₂).then (compare m₁ m₂) = compare ((m₁ : ℚ) * 2 ^ e₁) (m₂ * 2 ^ e₂) := by
  obtain he | rfl | he := lt_trichotomy e₁ e₂
  · rw [compare_lt_iff_lt.mpr he, compare_lt_iff_lt.mpr (h₁.lt_of_exponent_lt h₂ he)]
    rfl
  · have hpow : (0 : ℚ) < 2 ^ e₁ := by positivity
    rw [compare_eq_iff_eq.mpr rfl, Ordering.then]
    obtain hm | rfl | hm := lt_trichotomy m₁ m₂
    · rw [compare_lt_iff_lt.mpr hm, eq_comm, compare_lt_iff_lt]
      gcongr
    · rw [compare_eq_iff_eq.mpr rfl, compare_eq_iff_eq.mpr rfl]
    · rw [compare_gt_iff_gt.mpr hm, eq_comm, compare_gt_iff_gt]
      show _ < _
      gcongr
  · rw [compare_gt_iff_gt.mpr he, compare_gt_iff_gt.mpr (h₂.lt_of_exponent_lt h₁ he)]
    rfl

theorem compare_neg_neg (p q : ℚ) : compare (-p) (-q) = (compare p q).swap := by
  obtain h | rfl | h := lt_trichotomy p q
  · rw [compare_lt_iff_lt.mpr h, compare_gt_iff_gt.mpr (neg_lt_neg h)]
    rfl
  · rw [compare_eq_iff_eq.mpr rfl, compare_eq_iff_eq.mpr rfl]
    rfl
  · rw [compare_gt_iff_gt.mpr h, compare_lt_iff_lt.mpr (neg_lt_neg h)]
    rfl

/-- Finite doubles are compared as the numbers that they stand for. -/
theorem compare_unpack {x y : Float} (hx : x.isFinite = true) (hy : y.isFinite = true) :
    UnpackedFloat.compare x.toModel.unpack y.toModel.unpack =
      some (compare (exactValue x) (exactValue y)) := by
  have hpos {m : Nat} {e : Int} (h : Canonical m e) : (0 : ℚ) < m * 2 ^ e := multiple_pos h.pos e
  have hlt {p q : ℚ} (h : p < q) : some Ordering.lt = some (compare p q) :=
    congrArg some (compare_lt_iff_lt.mpr h).symm
  have hgt {p q : ℚ} (h : q < p) : some Ordering.gt = some (compare p q) :=
    congrArg some (compare_gt_iff_gt.mpr h).symm
  obtain ⟨s, hx⟩ | ⟨s, m, e, h, hx, -⟩ := unpack_cases hx
  · obtain ⟨s', hy⟩ | ⟨s', m', e', h', hy, -⟩ := unpack_cases hy
    · rw [hx, hy, exactValue_of_unpack_zero hx, exactValue_of_unpack_zero hy,
        compare_eq_iff_eq.mpr rfl]
      rfl
    · rw [hx, hy, exactValue_of_unpack_zero hx, exactValue_of_unpack hy]
      cases s' with
      | positive => exact hlt (hpos h')
      | negative => exact hgt (neg_lt_zero.mpr (hpos h'))
  · obtain ⟨s', hy⟩ | ⟨s', m', e', h', hy, -⟩ := unpack_cases hy
    · rw [hx, hy, exactValue_of_unpack hx, exactValue_of_unpack_zero hy]
      cases s with
      | positive => exact hgt (hpos h)
      | negative => exact hlt (neg_lt_zero.mpr (hpos h))
    · rw [hx, hy, exactValue_of_unpack hx, exactValue_of_unpack hy]
      cases s with
      | positive =>
        cases s' with
        | positive => exact congrArg some (compare_canonical h h')
        | negative => exact hgt ((neg_lt_zero.mpr (hpos h')).trans (hpos h))
      | negative =>
        cases s' with
        | positive => exact hlt ((neg_lt_zero.mpr (hpos h)).trans (hpos h'))
        | negative =>
          refine congrArg some ?_
          rw [compare_canonical h h']
          exact (compare_neg_neg _ _).symm

theorem lt_iff_exactValue {x y : Float} (hx : x.isFinite = true) (hy : y.isFinite = true) :
    x < y ↔ exactValue x < exactValue y := by
  show decide (x.toModel < y.toModel) = true ↔ _
  rw [decide_eq_true_iff]
  show (UnpackedFloat.compare x.toModel.unpack y.toModel.unpack == some .lt) = true ↔ _
  rw [compare_unpack hx hy, ← compare_lt_iff_lt, beq_iff_eq, Option.some.injEq]

theorem beq_iff_exactValue {x y : Float} (hx : x.isFinite = true) (hy : y.isFinite = true) :
    (x == y) = true ↔ exactValue x = exactValue y := by
  show (UnpackedFloat.compare x.toModel.unpack y.toModel.unpack == some .eq) = true ↔ _
  rw [compare_unpack hx hy, beq_iff_eq, Option.some.injEq, compare_eq_iff_eq]

theorem isFinite_zero : (0 : Float).isFinite = true := by decide

theorem exactValue_zero : exactValue 0 = 0 :=
  exactValue_of_unpack_zero (s := .positive) (by rfl)

/-! ### Rounded numbers -/

/-- A number between the least double and another one becomes a finite double of its sign, which is
not above the other one either. -/
theorem exists_unpack_toFloat {m m₁ : Nat} {e e₁ : Int} (negative : Bool) (hm : 0 < m)
    (hleast : -1074 ≤ e) (h₁ : Canonical m₁ e₁) (he₁ : e₁ ≤ 971)
    (hle : (m : ℚ) * 2 ^ e ≤ m₁ * 2 ^ e₁) :
    ∃ m' e', ∃ h : Canonical m' e', e' ≤ 971 ∧
      (Binary.finite negative m e).toFloat.toModel.unpack =
        .finite (Binary.signBit negative) m' e' h.pos ∧
      (m' : ℚ) * 2 ^ e' ≤ m₁ * 2 ^ e₁ := by
  obtain ⟨m', e', h, hround, hbound⟩ :=
    exists_round_le (s := Binary.signBit negative) hm hleast h₁ hle
  have he' : e' ≤ 971 := by
    by_contra hlt
    exact absurd (h₁.lt_of_exponent_lt h (by omega)) (not_lt.mpr hbound)
  refine ⟨m', e', h, he', ?_, hbound⟩
  simp only [Binary.toFloat, if_neg hm.ne', hround]
  exact unpack_pack h he'

/-- A number whose significand has 53 bits has a canonical form. -/
theorem exists_canonical_eq {m : Nat} {e : Int} (hm : 0 < m) (hlt : m < 2 ^ 53)
    (hleast : -1074 ≤ e) : ∃ m' e', Canonical m' e' ∧ e' ≤ e ∧ (m' : ℚ) * 2 ^ e' = m * 2 ^ e := by
  have hlog : m.log2 < 53 := (Nat.log2_lt hm.ne').mpr hlt
  -- as many zeros as the significand and the exponent have room for
  obtain ⟨k, hk⟩ : ∃ k : Nat, (k : Int) = min (52 - (m.log2 : Int)) (e + 1074) :=
    ⟨(min (52 - (m.log2 : Int)) (e + 1074)).toNat, by omega⟩
  have hlogk : (m * 2 ^ k).log2 = m.log2 + k := log2_mul_two_pow hm k
  have hpos : 0 < m * 2 ^ k := Nat.mul_pos hm (Nat.two_pow_pos k)
  refine ⟨m * 2 ^ k, e - k, ⟨hpos, ?_, by omega, ?_⟩, by omega, ?_⟩
  · exact (Nat.log2_lt hpos.ne').mp (by omega)
  · by_cases hmin : e - k = -1074
    · exact .inr hmin
    · exact .inl ((Nat.le_log2 hpos.ne').mp (by omega))
  · exact cast_scaled m e k

/-- A number whose significand has 53 bits becomes a double exactly. -/
theorem exists_unpack_toFloat_eq {m : Nat} {e : Int} (negative : Bool) (hm : 0 < m)
    (hlt : m < 2 ^ 53) (hleast : -1074 ≤ e) (he : e ≤ 971) :
    ∃ m' e', ∃ h : Canonical m' e', e' ≤ 971 ∧
      (Binary.finite negative m e).toFloat.toModel.unpack =
        .finite (Binary.signBit negative) m' e' h.pos ∧
      (m' : ℚ) * 2 ^ e' = m * 2 ^ e := by
  obtain ⟨m', e', h, he', heq⟩ := exists_canonical_eq hm hlt hleast
  refine ⟨m', e', h, he'.trans he, ?_, heq⟩
  simp only [Binary.toFloat, if_neg hm.ne', round_exact h hm heq.symm]
  exact unpack_pack h (he'.trans he)

/-- Zero keeps its sign. -/
theorem unpack_toFloat_zero (negative : Bool) (e : Int) :
    (Binary.finite negative 0 e).toFloat.toModel.unpack = .zero (Binary.signBit negative) := by
  rw [Binary.toFloat, if_pos rfl]
  cases negative <;> rfl

/-- A number whose significand has 53 bits, or none, becomes a double exactly. -/
theorem exactValue_toFloat {m : Nat} {e : Int} (negative : Bool) (hlt : m < 2 ^ 53)
    (hleast : -1074 ≤ e) (he : e ≤ 971) :
    (Binary.finite negative m e).toFloat.isFinite = true ∧
      exactValue (Binary.finite negative m e).toFloat = signed negative (m * 2 ^ e) := by
  obtain rfl | hm := Nat.eq_zero_or_pos m
  · have h := unpack_toFloat_zero negative e
    exact ⟨isFinite_of_unpack_zero h, by rw [exactValue_of_unpack_zero h]; simp [signed]⟩
  · obtain ⟨m', e', hcanonical, -, h, heq⟩ := exists_unpack_toFloat_eq negative hm hlt hleast he
    exact ⟨isFinite_of_unpack h, by rw [exactValue_of_unpack h, heq, Binary.isNegative_signBit]⟩

end Reckoner
