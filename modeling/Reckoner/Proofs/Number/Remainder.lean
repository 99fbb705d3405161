import Reckoner.Arithmetic
import Reckoner.Proofs.Evaluation.Finite
import Reckoner.Proofs.Number.Exact

/-!
# The floored remainder

A processor has the remainder of the truncated division (`truncMod`), which is exact, and
comes to the floored one by adding the divisor where the signs differ. This sum is rounded,
and if the remainder is small enough it is the divisor itself. `floorMod` does the same in one
step (`floorMod_eq`). So a finite number has a remainder by every finite divisor but zero, on
the side of the divisor and not beyond it (`remainder_apply`).
-/

namespace Reckoner

open Float.Model Float.Model.UnpackedFloat

/-! ### Sums of opposite signs -/

/-- The difference of two magnitudes has the sign of the larger one. -/
theorem apply_add_apply (negative : Bool) {a b : Nat} (h : a ≤ b) :
    UnpackedFloat.Sign.apply (Binary.signBit !negative) a +
        UnpackedFloat.Sign.apply (Binary.signBit negative) b =
      UnpackedFloat.Sign.apply (Binary.signBit negative) (b - a : Nat) := by
  cases negative with
  | false =>
    simp only [Binary.signBit, Bool.not_false, if_true, Bool.false_eq_true, if_false,
      UnpackedFloat.Sign.apply]
    omega
  | true =>
    simp only [Binary.signBit, Bool.not_true, if_true, Bool.false_eq_true, if_false,
      UnpackedFloat.Sign.apply]
    omega

/-- A whole number that is not zero is rounded with its sign. -/
theorem normalize_apply (negative : Bool) {n : Nat} (hn : 0 < n) (e : Int)
    (zeroSign : UnpackedFloat.Sign) :
    UnpackedFloat.normalize .binary64 (UnpackedFloat.Sign.apply (Binary.signBit negative) n) e
        zeroSign = .round .binary64 (Binary.signBit negative) n e := by
  cases negative with
  | false =>
    have hcompare : compare (n : Int) 0 = .gt := compare_gt_iff_gt.mpr (by omega)
    simp only [Binary.signBit, Bool.false_eq_true, if_false, UnpackedFloat.Sign.apply,
      UnpackedFloat.normalize, hcompare, Int.toNat_natCast]
  | true =>
    have hcompare : compare (-(n : Int)) 0 = .lt := compare_lt_iff_lt.mpr (by omega)
    simp only [Binary.signBit, if_true, UnpackedFloat.Sign.apply, UnpackedFloat.normalize,
      hcompare, neg_neg, Int.toNat_natCast]

/-- A finite number minus a smaller one is rounded once and keeps its sign. -/
theorem add_opposite {negative : Bool} {m₁ m₂ d : Nat} {e₁ e₂ e : Int} {h₁ : 0 < m₁} {h₂ : 0 < m₂}
    (hd : 0 < d) (heq : (d : ℚ) * 2 ^ e = m₂ * 2 ^ e₂ - m₁ * 2 ^ e₁) :
    UnpackedFloat.add .binary64 (.finite (Binary.signBit !negative) m₁ e₁ h₁)
        (.finite (Binary.signBit negative) m₂ e₂ h₂) =
      .round .binary64 (Binary.signBit negative) d e := by
  set t := min e₁ e₂ with ht
  have hpow : (0 : ℚ) < 2 ^ t := by positivity
  have hdpos : (0 : ℚ) < d * 2 ^ e := by positivity
  have hlt : m₁ * 2 ^ (e₁ - t).toNat < m₂ * 2 ^ (e₂ - t).toNat := by
    have : ((m₁ * 2 ^ (e₁ - t).toNat : Nat) : ℚ) * 2 ^ t <
        (m₂ * 2 ^ (e₂ - t).toNat : Nat) * 2 ^ t := by
      rw [cast_shifted m₁ (min_le_left _ _), cast_shifted m₂ (min_le_right _ _)]
      linarith
    exact_mod_cast lt_of_mul_lt_mul_right this hpow.le
  have hround : UnpackedFloat.round .binary64 (Binary.signBit negative)
      (m₂ * 2 ^ (e₂ - t).toNat - m₁ * 2 ^ (e₁ - t).toNat) t =
        .round .binary64 (Binary.signBit negative) d e := by
    refine round_congr (Nat.sub_pos_of_lt hlt) hd ?_
    rw [Nat.cast_sub hlt.le, sub_mul, cast_shifted m₁ (min_le_left _ _),
      cast_shifted m₂ (min_le_right _ _), heq]
  simp only [UnpackedFloat.add, decreaseExponent, ← ht, Nat.shiftLeft_eq]
  rw [apply_add_apply negative hlt.le, normalize_apply negative (Nat.sub_pos_of_lt hlt), hround]

/-! ### The truncated remainder -/

/-- The remainder of the truncated division, which has the sign of the dividend. -/
def Binary.truncated : Binary → Binary → Binary
  | .finite n a p, .finite _ b q =>
      let e := min p q
      let d := b <<< (q - e).toNat
      if d = 0 then .nan else .finite n ((a <<< (p - e).toNat) % d) e
  | .finite n a p, .infinite _ => .finite n a p
  | _, _ => .nan

/-- The remainder of the truncated division of two doubles. -/
def truncMod (x y : Float) : Float :=
  (Binary.truncated (.ofFloat x) (.ofFloat y)).toFloat

/-- What a remainder of the truncated division is: the dividend without a whole multiple of the
divisor, smaller than the divisor, and zero or of the sign of the dividend. -/
structure IsTruncated (x y r : Float) : Prop where
  isFinite : r.isFinite = true
  exists_eq : ∃ k : ℤ, exactValue x = k * exactValue y + exactValue r
  abs_lt : |exactValue r| < |exactValue y|
  sign_eq : exactValue r = 0 ∨ SignType.sign (exactValue r) = SignType.sign (exactValue x)

/-- A processor's way to the floored remainder: the divisor is added to a truncated remainder of
the other sign. -/
def adjusted (r y : Float) : Float :=
  if r != 0 && decide (r < 0) != decide (y < 0) then r + y else r

/-- What a remainder of the floored division is: zero or of the sign of the divisor, not larger than
the divisor, and zero exactly where the truncated one is. -/
structure IsFloored (x y v : Float) : Prop where
  isFinite : v.isFinite = true
  sign_eq : exactValue v = 0 ∨ SignType.sign (exactValue v) = SignType.sign (exactValue y)
  abs_le : |exactValue v| ≤ |exactValue y|
  eq_zero_iff : exactValue v = 0 ↔ exactValue (truncMod x y) = 0

/-- Two finite doubles, the second one not zero, counted in one power of two, and their
remainders. -/
structure Aligned (x y : Float) (n s : Bool) (a d : Nat) (e : Int) : Prop where
  dividend : exactValue x = signed n (a * 2 ^ e)
  divisor : exactValue y = signed s (d * 2 ^ e)
  exists_unpack : ∃ b q, ∃ h : Canonical b q, q ≤ 971 ∧
    y.toModel.unpack = .finite (Binary.signBit s) b q h.pos ∧ (d : ℚ) * 2 ^ e = b * 2 ^ q
  pos : 0 < d
  least : -1074 ≤ e
  most : e ≤ 971
  short : a % d < 2 ^ 53
  truncated : truncMod x y = (Binary.finite n (a % d) e).toFloat
  floored : floorMod x y =
    if a % d = 0 then (Binary.finite n 0 0).toFloat
    else if n = s then (Binary.finite n (a % d) e).toFloat
    else (Binary.finite s (d - a % d) e).toFloat

variable {x y : Float}

/-- A double that is not zero is a number in canonical form. -/
theorem exists_unpack_of_ne_zero (hy : y.isFinite = true) (hne : (y == 0) = false) :
    ∃ s b q, ∃ h : Canonical b q, q ≤ 971 ∧
      y.toModel.unpack = .finite (Binary.signBit s) b q h.pos := by
  obtain ⟨s, hzero⟩ | ⟨s, b, q, h, hunpack, hq⟩ := unpack_cases hy
  · have : (y == 0) = true := by
      rw [beq_iff_exactValue hy isFinite_zero, exactValue_of_unpack_zero hzero, exactValue_zero]
    rw [hne] at this
    cases this
  · exact ⟨Binary.isNegative s, b, q, h, hq, by rw [hunpack]; simp⟩

theorem exists_aligned (hx : x.isFinite = true) (hy : y.isFinite = true) (hne : (y == 0) = false) :
    ∃ n s a d e, Aligned x y n s a d e := by
  obtain ⟨n, a, p, hofx, ha, hp, hp'⟩ := exists_ofFloat hx
  obtain ⟨s, b, q, h, hq, hunpack⟩ := exists_unpack_of_ne_zero hy hne
  have hofy := ofFloat_of_unpack hunpack
  have hleast := h.least
  rw [Binary.isNegative_signBit] at hofy
  set e := min p q with he
  have hd : 0 < b * 2 ^ (q - e).toNat := Nat.mul_pos h.pos (Nat.two_pow_pos _)
  have hmagnitude := cast_shifted b (min_le_right p q)
  refine ⟨n, s, a * 2 ^ (p - e).toNat, b * 2 ^ (q - e).toNat, e,
    ⟨?_, ?_, ⟨b, q, h, hq, hunpack, hmagnitude⟩, hd, by omega, by omega, ?_, ?_, ?_⟩⟩
  · rw [cast_shifted a (min_le_left _ _), exactValue, hofx, Binary.value]
  · rw [hmagnitude, exactValue, hofy, Binary.value]
  · -- one of the two has its own exponent
    obtain hpq | hpq := le_total p q
    · have : (p - e).toNat = 0 := by omega
      rw [this, Nat.pow_zero, Nat.mul_one]
      exact Nat.lt_of_le_of_lt (Nat.mod_le _ _) ha
    · have : (q - e).toNat = 0 := by omega
      rw [this, Nat.pow_zero, Nat.mul_one]
      exact Nat.lt_trans (Nat.mod_lt _ h.pos) h.lt
  · simp only [truncMod, hofx, hofy, Binary.truncated, ← he, Nat.shiftLeft_eq, if_neg hd.ne']
  · simp only [floorMod, hofx, hofy, Binary.remainder, ← he, Nat.shiftLeft_eq, if_neg hd.ne']
    split
    · rfl
    · split <;> rfl

namespace Aligned

variable {n s : Bool} {a d : Nat} {e : Int} (h : Aligned x y n s a d e)

include h

theorem isFinite_truncMod : (truncMod x y).isFinite = true := by
  rw [h.truncated]
  exact (exactValue_toFloat n h.short h.least h.most).1

theorem exactValue_truncMod : exactValue (truncMod x y) = signed n ((a % d : Nat) * 2 ^ e) := by
  rw [h.truncated]
  exact (exactValue_toFloat n h.short h.least h.most).2

theorem mod_lt : ((a % d : Nat) : ℚ) * 2 ^ e < d * 2 ^ e := by
  have : ((a % d : Nat) : ℚ) < d := by exact_mod_cast Nat.mod_lt a h.pos
  gcongr

theorem exactValue_truncMod_eq_zero_iff : exactValue (truncMod x y) = 0 ↔ a % d = 0 := by
  have hpow : (2 : ℚ) ^ e ≠ 0 := zpow_ne_zero _ two_ne_zero
  rw [h.exactValue_truncMod, signed_eq_zero, mul_eq_zero, or_iff_left hpow, Nat.cast_eq_zero]

/-- The truncated remainder is exact. -/
theorem isTruncated_truncMod : IsTruncated x y (truncMod x y) where
  isFinite := h.isFinite_truncMod
  exists_eq := by
    have hdiv : ((a : Nat) : ℚ) = d * (a / d : Nat) + (a % d : Nat) := by
      exact_mod_cast (Nat.div_add_mod a d).symm
    refine ⟨if n = s then (a / d : Nat) else -((a / d : Nat) : ℤ), ?_⟩
    rw [h.dividend, h.divisor, h.exactValue_truncMod, hdiv]
    cases n <;> cases s <;> simp only [signed, if_true, if_false, Bool.false_eq_true,
      Bool.true_eq_false, Int.cast_neg, Int.cast_natCast] <;> ring
  abs_lt := by
    rw [h.exactValue_truncMod, h.divisor, abs_signed, abs_signed, abs_of_pos (multiple_pos h.pos e),
      abs_of_nonneg (by positivity)]
    exact h.mod_lt
  sign_eq := by
    by_cases hr : a % d = 0
    · exact .inl (h.exactValue_truncMod_eq_zero_iff.mpr hr)
    · have ha : 0 < a := Nat.pos_of_ne_zero fun ha => hr (by rw [ha, Nat.zero_mod])
      right
      rw [h.exactValue_truncMod, h.dividend, sign_signed n (multiple_pos ha e),
        sign_signed n (multiple_pos (Nat.pos_of_ne_zero hr) e)]

/-- With a remainder on the wrong side, the rest of the divisor is left. -/
theorem cast_rest : ((d - a % d : Nat) : ℚ) * 2 ^ e = d * 2 ^ e - (a % d : Nat) * 2 ^ e := by
  rw [Nat.cast_sub (Nat.mod_lt a h.pos).le, sub_mul]

/-- A remainder of zero keeps the sign of the dividend. -/
theorem isFloored_zero (hr : a % d = 0) : IsFloored x y (Binary.finite n 0 0).toFloat := by
  obtain ⟨hfinite, hvalue⟩ :=
    exactValue_toFloat (m := 0) (e := 0) n (by norm_num) (by norm_num) (by norm_num)
  have hzero : exactValue (Binary.finite n 0 0).toFloat = 0 := by
    rw [hvalue, signed_eq_zero, Nat.cast_zero, zero_mul]
  refine ⟨hfinite, .inl hzero, ?_, ?_⟩
  · rw [hzero, abs_zero]
    exact abs_nonneg _
  · rw [hzero, h.exactValue_truncMod_eq_zero_iff]
    simp [hr]

/-- A number up to the divisor with its sign is a floored remainder where the truncated one is not
zero. -/
theorem isFloored {v : Float} {p : ℚ} (hr : a % d ≠ 0) (hfinite : v.isFinite = true)
    (hvalue : exactValue v = signed s p) (hpos : 0 < p) (hle : p ≤ d * 2 ^ e) :
    IsFloored x y v := by
  have hdivisor := multiple_pos h.pos e
  refine ⟨hfinite, .inr ?_, ?_, ?_⟩
  · rw [hvalue, h.divisor, sign_signed s hpos, sign_signed s hdivisor]
  · rw [hvalue, h.divisor, abs_signed, abs_signed, abs_of_pos hpos, abs_of_pos hdivisor]
    exact hle
  · rw [hvalue, h.exactValue_truncMod_eq_zero_iff, signed_eq_zero]
    simp [hr, hpos.ne']

end Aligned

/-! ### The floored remainder -/

namespace Aligned

variable {n s : Bool} {a d : Nat} {e : Int} (h : Aligned x y n s a d e)

include h

theorem truncMod_bne_zero : (truncMod x y != 0) = decide (a % d ≠ 0) := by
  rw [bne, Bool.eq_iff_iff, Bool.not_eq_true', Bool.eq_false_iff, Ne,
    beq_iff_exactValue h.isFinite_truncMod isFinite_zero, exactValue_zero,
    h.exactValue_truncMod_eq_zero_iff, decide_eq_true_eq]

theorem decide_truncMod_lt_zero (hr : a % d ≠ 0) : decide (truncMod x y < 0) = n := by
  rw [Bool.eq_iff_iff, decide_eq_true_eq, lt_iff_exactValue h.isFinite_truncMod isFinite_zero,
    exactValue_zero, h.exactValue_truncMod,
    signed_lt_zero_iff (multiple_pos (Nat.pos_of_ne_zero hr) e)]

theorem decide_divisor_lt_zero : decide (y < 0) = s := by
  obtain ⟨b, q, hcanonical, -, hunpack, -⟩ := h.exists_unpack
  rw [Bool.eq_iff_iff, decide_eq_true_eq,
    lt_iff_exactValue (isFinite_of_unpack hunpack) isFinite_zero, exactValue_zero, h.divisor,
    signed_lt_zero_iff (multiple_pos h.pos e)]

/-- The sum of a remainder on the wrong side and the divisor is rounded once. -/
theorem truncMod_add (hr : a % d ≠ 0) (hsides : n ≠ s) :
    truncMod x y + y = (Binary.finite s (d - a % d) e).toFloat := by
  obtain rfl : n = !s := Bool.eq_not.mpr hsides
  have hrest : 0 < d - a % d := Nat.sub_pos_of_lt (Nat.mod_lt a h.pos)
  obtain ⟨b, q, hcanonical, -, hunpack, hmagnitude⟩ := h.exists_unpack
  obtain ⟨m, f, hexact, -, hremainder, heq⟩ :=
    exists_unpack_toFloat_eq (!s) (Nat.pos_of_ne_zero hr) h.short h.least h.most
  have hsum : UnpackedFloat.add .binary64 (.finite (Binary.signBit !s) m f hexact.pos)
      (.finite (Binary.signBit s) b q hcanonical.pos) =
        .round .binary64 (Binary.signBit s) (d - a % d) e :=
    add_opposite hrest (by rw [h.cast_rest, heq, hmagnitude])
  refine toModel_injective ?_
  show Float.Model.pack (UnpackedFloat.add .binary64 (truncMod x y).toModel.unpack
    y.toModel.unpack) = _
  rw [h.truncated, hremainder, hunpack, hsum]
  simp only [Binary.toFloat, if_neg hrest.ne']

theorem adjusted_truncMod : adjusted (truncMod x y) y = floorMod x y := by
  rw [adjusted, h.truncMod_bne_zero, h.floored]
  by_cases hr : a % d = 0
  · rw [if_neg (by simp [hr]), if_pos hr, h.truncated, hr]
    simp [Binary.toFloat]
  · rw [h.decide_truncMod_lt_zero hr, h.decide_divisor_lt_zero, if_neg hr, decide_eq_true hr,
      Bool.true_and]
    by_cases hsame : n = s
    · rw [if_neg (by simp [hsame]), if_pos hsame, h.truncated]
    · rw [if_pos (by simp [hsame]), if_neg hsame, h.truncMod_add hr hsame]

end Aligned

/-- The remainder is computed in one step as it is from the truncated one. -/
theorem floorMod_eq (hx : x.isFinite = true) (hy : y.isFinite = true) (hne : (y == 0) = false) :
    floorMod x y = adjusted (truncMod x y) y := by
  obtain ⟨n, s, a, d, e, h⟩ := exists_aligned hx hy hne
  exact h.adjusted_truncMod.symm

theorem isFloored_floorMod (hx : x.isFinite = true) (hy : y.isFinite = true)
    (hne : (y == 0) = false) : IsFloored x y (floorMod x y) := by
  obtain ⟨n, s, a, d, e, h⟩ := exists_aligned hx hy hne
  rw [h.floored]
  by_cases hr : a % d = 0
  · rw [if_pos hr]
    exact h.isFloored_zero hr
  · have hrpos := Nat.pos_of_ne_zero hr
    rw [if_neg hr]
    by_cases hsame : n = s
    · subst hsame
      rw [if_pos rfl, ← h.truncated]
      exact h.isFloored hr h.isFinite_truncMod h.exactValue_truncMod (multiple_pos hrpos e)
        h.mod_lt.le
    · have hrest : 0 < d - a % d := Nat.sub_pos_of_lt (Nat.mod_lt a h.pos)
      obtain ⟨b, q, hcanonical, hq, -, hmagnitude⟩ := h.exists_unpack
      have hle : ((d - a % d : Nat) : ℚ) * 2 ^ e ≤ b * 2 ^ q := by
        rw [h.cast_rest, ← hmagnitude]
        exact sub_le_self _ (multiple_pos hrpos e).le
      obtain ⟨m, f, hexact, -, hremainder, hbound⟩ :=
        exists_unpack_toFloat s hrest h.least hcanonical hq hle
      have hvalue := exactValue_of_unpack hremainder
      rw [Binary.isNegative_signBit] at hvalue
      rw [if_neg hsame]
      exact h.isFloored hr (isFinite_of_unpack hremainder) hvalue (multiple_pos hexact.pos f)
        (hbound.trans hmagnitude.ge)

/-- **The floored remainder.** A finite number has a remainder by a finite divisor that is not zero:
the truncated remainder, to which the divisor is added where it has the other sign. It is zero or
of the sign of the divisor, not larger than the divisor, and zero exactly where the truncated
one is. -/
theorem remainder_apply (hx : x.isFinite = true) (hy : y.isFinite = true)
    (hne : (y == 0) = false) :
    IsTruncated x y (truncMod x y) ∧
      ∃ v, Operator.remainder.apply x y = .ok v ∧ v = adjusted (truncMod x y) y ∧
        IsFloored x y v := by
  have hfloored := isFloored_floorMod hx hy hne
  obtain ⟨hnan, hinf⟩ := isFinite_iff.mp hfloored.isFinite
  refine ⟨?_, floorMod x y, ?_, floorMod_eq hx hy hne, hfloored⟩
  · obtain ⟨n, s, a, d, e, h⟩ := exists_aligned hx hy hne
    exact h.isTruncated_truncMod
  · simp only [Operator.apply, Operator.dividesByZero, Operator.compute, hne, hnan, hinf,
      Bool.false_eq_true, if_false]

/-- A remainder so small that its sum with the divisor is the divisor: it is not zero, is less than
the divisor and has the other sign. -/
theorem remainder_apply_tiny :
    (-1e-300 : Float).isFinite = true ∧ (3 : Float).isFinite = true ∧ ((3 : Float) == 0) = false ∧
      Operator.remainder.apply (-1e-300) 3 = .ok 3 ∧ 0 < exactValue 3 ∧
        exactValue (truncMod (-1e-300) 3) < 0 ∧
          |exactValue (truncMod (-1e-300) 3)| < exactValue 3 := by
  have hx : (-1e-300 : Float).isFinite = true := by decide +kernel
  have hy : (3 : Float).isFinite = true := by decide
  have hne : ((3 : Float) == 0) = false := by decide
  obtain ⟨htruncated, v, hv, heq, hfloored⟩ := remainder_apply hx hy hne
  obtain rfl : v = 3 := by
    rw [heq]
    decide +kernel
  have hpos : 0 < exactValue 3 := by
    rw [← exactValue_zero, ← lt_iff_exactValue isFinite_zero hy]
    decide
  have hneg : exactValue (-1e-300) < 0 := by
    rw [← exactValue_zero, ← lt_iff_exactValue hx isFinite_zero]
    decide +kernel
  have hnonzero : exactValue (truncMod (-1e-300) 3) ≠ 0 :=
    mt hfloored.eq_zero_iff.mpr hpos.ne'
  have hsign := htruncated.sign_eq.resolve_left hnonzero
  rw [sign_neg hneg, sign_eq_neg_one_iff] at hsign
  have habs := htruncated.abs_lt
  rw [abs_of_pos hpos] at habs
  exact ⟨hx, hy, hne, hv, hpos, hsign, habs⟩

end Reckoner
