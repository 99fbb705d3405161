import Reckoner.Proofs.Presentation.Forms

/-!
# What results are shown as

The text of a result is a literal with or without a minus sign, which is close to the result and
exactly the result if this is whole (`Shows`). The number of digits is taken from the order of
the leading digit. An order that is one too large, as a rounded logarithm can make it, leaves
enough of them (`exists_shows_resultTextAt`).
-/

namespace Reckoner

/-! ### The order of the leading digit -/

/-- The characters to eight significant digits, for a leading digit of that order. -/
def paddedChars (order : Int) (d : Decimal) : List Char :=
  (d.round (significantDigits - (order + 1)).toNat).chars

/-- The characters of a magnitude that is not whole, for a leading digit of that order. -/
def fractionalCharsAt (order : Int) (d : Decimal) : List Char :=
  if ¬ d < largeFrom ∨ ¬ smallUpTo < d then d.scientific scientificPlaces
  else trimZeros (paddedChars order d)

/-- The text of a result whose leading digit is taken to be of that order. -/
def resultTextAt (order : Int) (x : Float) : String :=
  match Binary.ofFloat x with
  | .finite negative m e =>
    let d := Decimal.ofBinary m e
    let n := d.nearest
    String.ofList <|
      if d.distance n < wholeWithin then minus (negative && n ≠ 0) ++ digits n
      else minus negative ++ fractionalCharsAt order d
  | b => b.text

/-- The magnitude of a finite double. -/
def magnitudeOf (x : Float) : Decimal := (Decimal.ofFloat? x).getD ⟨0, 0⟩

variable {x : Float} {negative : Bool} {m : Nat} {e : Int}

theorem magnitudeOf_eq (hx : Binary.ofFloat x = .finite negative m e) :
    magnitudeOf x = .ofBinary m e := by
  rw [magnitudeOf, Decimal.ofFloat?, hx, Option.getD_some]

theorem resultText_eq (x : Float) : resultText x = resultTextAt (magnitudeOf x).order x := by
  cases hx : Binary.ofFloat x with
  | finite negative m e =>
    simp only [resultText, resultTextAt, hx, magnitudeOf_eq hx]
    rfl
  | _ => simp only [resultText, resultTextAt, hx]

theorem exactValue_eq (hx : Binary.ofFloat x = .finite negative m e) :
    exactValue x = signed negative (Decimal.ofBinary m e).value := by
  rw [exactValue, hx, Decimal.value_ofBinary, Binary.value]

theorem abs_exactValue (hx : Binary.ofFloat x = .finite negative m e) :
    |exactValue x| = (Decimal.ofBinary m e).value := by
  rw [exactValue_eq hx, abs_signed, abs_of_nonneg (Decimal.value_nonneg _)]

theorem value_ofBinary_lt (hm : m < 2 ^ 53) {k : Int} (he : e ≤ k) :
    (Decimal.ofBinary m e).value < 2 ^ (53 + k) := by
  have hm : (m : ℚ) < 2 ^ (53 : Int) := by exact_mod_cast hm
  calc (Decimal.ofBinary m e).value = m * 2 ^ e := Decimal.value_ofBinary m e
    _ < 2 ^ (53 : Int) * 2 ^ e := by gcongr
    _ ≤ 2 ^ (53 : Int) * 2 ^ k := by gcongr; norm_num
    _ = 2 ^ (53 + k) := (zpow_add₀ two_ne_zero _ _).symm

/-- The magnitude of a whole number is one. -/
theorem exists_value_eq (hx : Binary.ofFloat x = .finite negative m e)
    (h : ∃ z : ℤ, exactValue x = z) : ∃ k : Nat, (Decimal.ofBinary m e).value = k := by
  obtain ⟨z, hz⟩ := h
  refine ⟨z.natAbs, ?_⟩
  rw [← abs_exactValue hx, hz, Nat.cast_natAbs, Int.cast_abs]

/-! ### The bounds between the forms -/

theorem value_wholeWithin : wholeWithin.value = 1 / 10 ^ 10 := by
  rw [Decimal.value, wholeWithin]
  norm_num

theorem value_largeFrom : largeFrom.value = 10 ^ (6 : Int) := by
  rw [Decimal.value, largeFrom]
  norm_num

theorem lt_value_smallUpTo : (10 : ℚ) ^ (-4 : Int) < smallUpTo.value := by
  rw [smallUpTo, Decimal.value_ofBinary]
  norm_num

/-! ### Texts of results -/

/-- What the text of a result is: a literal in one of the forms, with a minus sign or not. A zero
has none. The literal is close to the result, and exactly the result if this is whole. -/
structure Shows (x : Float) (text : String) (negative : Bool) (n : Numeral) : Prop where
  text_eq : text = String.ofList (minus negative ++ n.spelling)
  isWellFormed : n.isWellFormed = true
  isShown : n.IsShown
  short : text.length ≤ 400
  unsigned : n.coefficient = 0 → negative = false
  close : |signed negative n.magnitude - exactValue x| ≤
    max (1 / 10 ^ 10) (5 / 10 ^ 7 * |exactValue x|)
  exact : (∃ z : ℤ, exactValue x = z) → signed negative n.magnitude = exactValue x

theorem lt_two_pow_succ {n k : Nat} (h : (n : ℚ) < 2 ^ (k : Int) + 1) : n < 2 ^ k + 1 := by
  exact_mod_cast h

theorem length_minus_le (negative : Bool) : (minus negative).length ≤ 1 := by
  cases negative <;> decide

theorem Numeral.ofDecimal_whole (n : Nat) : ofDecimal ⟨n, 0⟩ = ⟨digits n, none, none⟩ := by
  simp [ofDecimal, powerOfTen]

theorem signed_and_ne_zero (negative : Bool) (n : Nat) :
    signed (negative && n ≠ 0) n = signed negative n := by
  obtain rfl | hn := Nat.eq_zero_or_pos n
  · cases negative <;> simp [signed]
  · simp [hn.ne']

/-- A result next to a whole number is shown as this number. -/
theorem shows_whole (hx : Binary.ofFloat x = .finite negative m e) (hm : m < 2 ^ 53) (he : e ≤ 971)
    (hnear : (Decimal.ofBinary m e).distance (Decimal.ofBinary m e).nearest < wholeWithin) :
    let n := (Decimal.ofBinary m e).nearest
    Shows x (String.ofList (minus (negative && n ≠ 0) ++ digits n)) (negative && n ≠ 0)
      (.ofDecimal ⟨n, 0⟩) := by
  intro n
  have hmagnitude : (Numeral.ofDecimal ⟨n, 0⟩).magnitude = n := by
    rw [Numeral.magnitude_ofDecimal, Decimal.value]
    simp
  have hwithin : |(n : ℚ) - (Decimal.ofBinary m e).value| < 1 / 10 ^ 10 := by
    rwa [Decimal.lt_iff, Decimal.value_distance, abs_sub_comm, value_wholeWithin] at hnear
  refine ⟨?_, Numeral.isWellFormed_ofDecimal _, ?_, ?_, ?_, ?_, fun hwhole => ?_⟩
  · simp [Numeral.ofDecimal_whole, Numeral.spelling]
  · rw [Numeral.ofDecimal_whole]
    exact .whole _
  · -- the largest double has 309 digits
    have hvalue : (Decimal.ofBinary m e).value < 2 ^ ((1024 : Nat) : Int) := value_ofBinary_lt hm he
    have hn : n < 2 ^ 1024 + 1 := by
      refine lt_two_pow_succ ?_
      have := (abs_lt.mp hwithin).2
      linarith
    have hpow : 2 ^ 1024 + 1 ≤ powerOfTen 399 := by decide +kernel
    have hdigits : (digits n).length ≤ 399 :=
      length_digits_le (by decide) (Nat.lt_of_lt_of_le hn hpow)
    have hminus := length_minus_le (negative && n ≠ 0)
    rw [String.length_ofList, List.length_append]
    omega
  · rw [Numeral.coefficient_ofDecimal]
    intro hzero
    simp [show n = 0 from hzero]
  · rw [hmagnitude, exactValue_eq hx, signed_and_ne_zero, abs_signed_sub]
    exact le_max_of_le_left hwithin.le
  · obtain ⟨k, hk⟩ := exists_value_eq hx hwhole
    have hnearest : n = k := Decimal.nearest_eq hk
    rw [hmagnitude, exactValue_eq hx, signed_and_ne_zero, hk, hnearest]

/-! ### Results that are not whole -/

theorem value_ne_of_far {d : Decimal} (hfar : ¬ d.distance d.nearest < wholeWithin) (k : Nat) :
    d.value ≠ k := by
  intro hk
  refine hfar (Decimal.lt_iff.mpr ?_)
  rw [Decimal.value_distance, Decimal.nearest_eq hk, hk, sub_self, abs_zero]
  rw [value_wholeWithin]
  positivity

theorem value_pos_of_far {d : Decimal} (hfar : ¬ d.distance d.nearest < wholeWithin) :
    0 < d.value :=
  lt_of_le_of_ne d.value_nonneg fun h => value_ne_of_far hfar 0 (by simpa using h.symm)

theorem Decimal.units_pos {d : Decimal} (h : 0 < d.value) : 0 < d.units := by
  rw [Nat.pos_iff_ne_zero]
  intro hzero
  simp [value, hzero] at h

/-- Half a unit of the last of seven digits. -/
theorem half_unit_le {d : Decimal} {k : Int} (h : (10 : ℚ) ^ k ≤ d.value) :
    1 / 2 * (10 : ℚ) ^ (k - 6) ≤ 5 / 10 ^ 7 * d.value := by
  calc 1 / 2 * (10 : ℚ) ^ (k - 6) = 5 / 10 ^ 7 * 10 ^ k := by
        rw [zpow_sub₀ (by norm_num)]
        norm_num
        ring
    _ ≤ 5 / 10 ^ 7 * d.value := by gcongr

/-- Seven digits are enough for a result that is not whole. -/
theorem shows_fractional (hx : Binary.ofFloat x = .finite negative m e)
    (hfar : ¬ (Decimal.ofBinary m e).distance (Decimal.ofBinary m e).nearest < wholeWithin)
    {n : Numeral} (hwell : n.isWellFormed = true) (hshown : n.IsShown)
    (hshort : n.spelling.length < 400)
    (hclose : |n.magnitude - (Decimal.ofBinary m e).value| ≤
      5 / 10 ^ 7 * (Decimal.ofBinary m e).value) :
    Shows x (String.ofList (minus negative ++ n.spelling)) negative n := by
  have hpos := value_pos_of_far hfar
  refine ⟨rfl, hwell, hshown, ?_, fun hzero => ?_, ?_, fun hwhole => ?_⟩
  · have := length_minus_le negative
    rw [String.length_ofList, List.length_append]
    omega
  · -- a zero would be too far away
    rw [Numeral.magnitude, hzero, Nat.cast_zero, zero_mul, zero_sub, abs_neg, abs_of_pos hpos]
      at hclose
    linarith
  · rw [abs_exactValue hx, exactValue_eq hx, abs_signed_sub]
    exact le_max_of_le_right hclose
  · obtain ⟨k, hk⟩ := exists_value_eq hx hwhole
    exact absurd hk (value_ne_of_far hfar k)

theorem length_chars_le {d : Decimal} {k : Nat} (hk : 0 < k)
    (h : d.units < powerOfTen (k + d.places)) : d.chars.length ≤ k + 1 + d.places := by
  have hquotient : d.units / powerOfTen d.places < powerOfTen k := by
    rwa [Nat.div_lt_iff_lt_mul (powerOfTen_pos _), ← powerOfTen_add]
  have hwhole := length_digits_le hk hquotient
  unfold Decimal.chars
  dsimp only
  split
  · omega
  · rename_i hplaces
    have hfraction := length_digits_le (Nat.pos_of_ne_zero hplaces)
      (Nat.mod_lt d.units (powerOfTen_pos d.places))
    rw [List.length_append, List.length_cons, List.length_leftpad, max_eq_left hfraction]
    omega

theorem length_toString_le {e : Int} (h : e.natAbs < powerOfTen 4) :
    (toString e).toList.length ≤ 5 := by
  have hdigits := length_digits_le (by decide) h
  have hspelling := congrArg List.length (Exponent.spelling_ofInt e)
  have hsign : (if e < 0 then some '-' else none).toList.length ≤ 1 := by
    split <;> simp
  rw [Exponent.spelling, Exponent.ofInt, List.length_cons, List.length_append, List.length_cons]
    at hspelling
  dsimp only at hspelling
  omega

theorem ten_zpow_neg_le (k : Nat) : (10 : ℚ) ^ (-(k : Int)) ≤ 2 ^ (-(k : Int)) := by
  rw [zpow_neg, zpow_neg, zpow_natCast, zpow_natCast]
  gcongr
  norm_num

theorem two_zpow_le (k : Nat) : (2 : ℚ) ^ (k : Int) ≤ 10 ^ (k : Int) := by
  rw [zpow_natCast, zpow_natCast]
  gcongr
  norm_num

/-- The order of the leading digit of a double is written with four digits. -/
theorem natAbs_order_le (hm : m < 2 ^ 53) (hleast : -1074 ≤ e) (he : e ≤ 971)
    (hpos : 0 < (Decimal.ofBinary m e).value) : (Decimal.ofBinary m e).order.natAbs ≤ 1075 := by
  obtain ⟨hlow, hhigh⟩ := Decimal.order_bounds (Decimal.units_pos hpos)
  have hone : (1 : ℚ) ≤ m := by
    rw [Nat.one_le_cast, Nat.one_le_iff_ne_zero]
    rintro rfl
    simp [Decimal.value_ofBinary] at hpos
  have hbelow : (10 : ℚ) ^ (Decimal.ofBinary m e).order < 10 ^ ((1024 : Nat) : Int) :=
    hlow.trans_lt ((value_ofBinary_lt hm he).trans_le (two_zpow_le 1024))
  have habove : (10 : ℚ) ^ (-((1074 : Nat) : Int)) < 10 ^ ((Decimal.ofBinary m e).order + 1) := by
    calc (10 : ℚ) ^ (-((1074 : Nat) : Int)) ≤ 2 ^ (-((1074 : Nat) : Int)) := ten_zpow_neg_le 1074
      _ ≤ 2 ^ e := zpow_le_zpow_right₀ one_le_two hleast
      _ ≤ m * 2 ^ e := le_mul_of_one_le_left (by positivity) hone
      _ = (Decimal.ofBinary m e).value := (Decimal.value_ofBinary m e).symm
      _ < 10 ^ ((Decimal.ofBinary m e).order + 1) := hhigh
  have hlt := (zpow_lt_zpow_iff_right₀ (by norm_num)).mp hbelow
  have hgt := (zpow_lt_zpow_iff_right₀ (by norm_num)).mp habove
  omega

theorem shows_scientific (hx : Binary.ofFloat x = .finite negative m e) (hm : m < 2 ^ 53)
    (hleast : -1074 ≤ e) (he : e ≤ 971)
    (hfar : ¬ (Decimal.ofBinary m e).distance (Decimal.ofBinary m e).nearest < wholeWithin) :
    ∃ n, Shows x (String.ofList
      (minus negative ++ (Decimal.ofBinary m e).scientific scientificPlaces)) negative n := by
  have hunits := Decimal.units_pos (value_pos_of_far hfar)
  obtain ⟨c, f, htext, -, hc, hf, hclose⟩ := Decimal.exists_scientific scientificPlaces hunits
  have horder := natAbs_order_le hm hleast he (value_pos_of_far hfar)
  have hshort : (Numeral.scientific c scientificPlaces f).spelling.length < 400 := by
    have hchars := length_chars_le (d := ⟨c, scientificPlaces⟩) one_pos (by rwa [add_comm])
    have hpower : f.natAbs < powerOfTen 4 := by
      have : powerOfTen 4 = 10000 := rfl
      omega
    have hexponent := length_toString_le hpower
    have hplaces : scientificPlaces = 6 := rfl
    rw [Numeral.spelling_scientific, List.length_append, List.length_cons]
    dsimp only at hchars
    omega
  refine ⟨.scientific c scientificPlaces f, ?_⟩
  rw [htext, ← Numeral.spelling_scientific]
  refine shows_fractional hx hfar Numeral.isWellFormed_scientific (Numeral.isShown_scientific hc)
    hshort ?_
  rw [Numeral.magnitude_scientific]
  exact hclose.trans (half_unit_le (Decimal.order_bounds hunits).1)

/-! ### Decimals without zeros at the end -/

/-- A decimal with places is written with a point. -/
theorem exists_ofDecimal_eq {d : Decimal} (h : d.places ≠ 0) :
    ∃ ds fs, ds ≠ [] ∧ ds.all Char.isDigit = true ∧ fs.all Char.isDigit = true ∧
      Numeral.ofDecimal d = ⟨ds, some fs, none⟩ ∧ d.chars = ds ++ '.' :: fs := by
  have hform : Numeral.ofDecimal d = ⟨digits (d.units / powerOfTen d.places),
      some ((digits (d.units % powerOfTen d.places)).leftpad d.places '0'), none⟩ := by
    rw [Numeral.ofDecimal, if_neg h]
  have hwell := Numeral.isWellFormed_ofDecimal d
  rw [hform] at hwell
  simp only [Numeral.isWellFormed, Bool.and_eq_true] at hwell
  refine ⟨_, _, Nat.toDigits_ne_nil, hwell.1.1.1, hwell.1.1.2, hform, ?_⟩
  rw [← Numeral.spelling_ofDecimal, hform, Numeral.spelling_eq]
  exact List.append_nil _

/-- With seven digits a decimal is close enough. -/
theorem abs_value_round_sub_le {d : Decimal} {k : Int} {p : Nat} (hlow : (10 : ℚ) ^ k ≤ d.value)
    (hseven : 6 - k ≤ p) : |(d.round p).value - d.value| ≤ 5 / 10 ^ 7 * d.value := by
  have hexponent : -(p : Int) ≤ k - 6 := by omega
  calc |(d.round p).value - d.value| ≤ 1 / 2 * 10 ^ (-(p : Int)) := d.abs_value_round_sub p
    _ ≤ 1 / 2 * 10 ^ (k - 6) := by gcongr; norm_num
    _ ≤ 5 / 10 ^ 7 * d.value := half_unit_le hlow

/-- What is close to a decimal that is not large has seven digits before the point at most. -/
theorem units_lt_of_close {d r : Decimal} (hlarge : d < largeFrom)
    (hclose : |r.value - d.value| ≤ 5 / 10 ^ 7 * d.value) :
    r.units < powerOfTen (7 + r.places) := by
  have hbelow : r.value < powerOfTen 7 := by
    have hlarge := Decimal.lt_iff.mp hlarge
    have hupper := (abs_le.mp hclose).2
    rw [value_largeFrom] at hlarge
    rw [cast_powerOfTen]
    norm_num at hlarge ⊢
    linarith
  rw [Decimal.value_eq_div, div_lt_iff₀ (Decimal.cast_powerOfTen_pos _)] at hbelow
  rw [powerOfTen_add]
  exact_mod_cast hbelow

theorem length_trimZeros_le (cs : List Char) : (trimZeros cs).length ≤ cs.length := by
  rw [trimZeros_eq]
  exact Nat.le_trans (List.rdropWhile_prefix _ _).length_le (List.rdropWhile_prefix _ _).length_le

section

variable {d : Decimal} {k order : Int} (hsmall : smallUpTo < d) (hlarge : d < largeFrom)
  (hlow : (10 : ℚ) ^ k ≤ d.value) (hhigh : d.value < 10 ^ (k + 1))
  (horder : order = k ∨ order = k + 1)

include hsmall hlarge hlow hhigh horder

/-- There are enough places for seven digits, and always one. -/
theorem places_bounds :
    6 - k ≤ ((significantDigits - (order + 1)).toNat : Int) ∧
      0 < (significantDigits - (order + 1)).toNat ∧
        (significantDigits - (order + 1)).toNat ≤ 11 := by
  have hmost : (10 : ℚ) ^ k < 10 ^ (6 : Int) :=
    hlow.trans_lt (value_largeFrom ▸ Decimal.lt_iff.mp hlarge)
  have hleast : (10 : ℚ) ^ (-4 : Int) < 10 ^ (k + 1) :=
    lt_value_smallUpTo.trans ((Decimal.lt_iff.mp hsmall).trans hhigh)
  have hlt := (zpow_lt_zpow_iff_right₀ (by norm_num)).mp hmost
  have hgt := (zpow_lt_zpow_iff_right₀ (by norm_num)).mp hleast
  have hdigits : significantDigits = 8 := rfl
  omega

/-- No digit before the point is taken away. -/
theorem takeWhile_trimZeros_paddedChars :
    (trimZeros (paddedChars order d)).takeWhile Char.isDigit =
      (paddedChars order d).takeWhile Char.isDigit := by
  obtain ⟨-, hpos, -⟩ := places_bounds hsmall hlarge hlow hhigh horder
  obtain ⟨ds, fs, -, hds, hfs, -, hchars⟩ :=
    exists_ofDecimal_eq (d := d.round (significantDigits - (order + 1)).toNat)
      (by rw [Decimal.places_round]; omega)
  rw [paddedChars, hchars]
  exact takeWhile_trimZeros hds hfs

theorem shows_positional (hx : Binary.ofFloat x = .finite negative m e)
    (hd : d = Decimal.ofBinary m e) (hfar : ¬ d.distance d.nearest < wholeWithin) :
    ∃ n, Shows x (String.ofList (minus negative ++ trimZeros (paddedChars order d))) negative n := by
  obtain ⟨hseven, hpos, hmost⟩ := places_bounds hsmall hlarge hlow hhigh horder
  unfold paddedChars
  generalize (significantDigits - (order + 1)).toNat = p at hseven hpos hmost ⊢
  have hplaces := Decimal.places_round p d
  have hclose := abs_value_round_sub_le hlow hseven
  generalize d.round p = r at hplaces hclose ⊢
  obtain ⟨ds, fs, hne, hds, hfs, hform, hchars⟩ := exists_ofDecimal_eq (d := r) (by omega)
  have htrimmed : trimZeros r.chars = (Numeral.ofDecimal r).trimmed.spelling := by
    rw [hchars, trimZeros_point hds hfs, hform]
  have hshort := length_chars_le (by norm_num) (units_lt_of_close hlarge hclose)
  refine ⟨(Numeral.ofDecimal r).trimmed, ?_⟩
  rw [htrimmed]
  subst hd
  refine shows_fractional hx hfar ?_ ?_ ?_ ?_
  · rw [hform]
    exact Numeral.isWellFormed_trimmed hne hds hfs
  · rw [hform]
    exact Numeral.isShown_trimmed hne hfs
  · rw [← htrimmed]
    have := length_trimZeros_le r.chars
    omega
  · rw [hform, Numeral.magnitude_trimmed, ← hform, Numeral.magnitude_ofDecimal]
    exact hclose

end

/-! ### All results -/

/-- The order is that of the leading digit, or one more. -/
def NearOrder (order : Int) (x : Float) : Prop :=
  ∃ k : ℤ, (10 : ℚ) ^ k ≤ |exactValue x| ∧ |exactValue x| < 10 ^ (k + 1) ∧
    (order = k ∨ order = k + 1)

theorem nearOrder_magnitudeOf (hx : x.isFinite = true) (hne : exactValue x ≠ 0) :
    NearOrder (magnitudeOf x).order x := by
  obtain ⟨negative, m, e, hx, -⟩ := exists_ofFloat hx
  have hpos := abs_pos.mpr hne
  rw [abs_exactValue hx] at hpos
  obtain ⟨hlow, hhigh⟩ := Decimal.order_bounds (Decimal.units_pos hpos)
  refine ⟨(Decimal.ofBinary m e).order, ?_, ?_, .inl (by rw [magnitudeOf_eq hx])⟩
  · rwa [abs_exactValue hx]
  · rwa [abs_exactValue hx]

/-- The text of a finite result shows it. -/
theorem exists_shows_resultTextAt (hx : x.isFinite = true) {order : Int}
    (horder : exactValue x ≠ 0 → NearOrder order x) :
    ∃ negative n, Shows x (resultTextAt order x) negative n := by
  obtain ⟨negative, m, e, hx, hm, hleast, he⟩ := exists_ofFloat hx
  simp only [resultTextAt, hx]
  split
  · rename_i hnear
    exact ⟨_, _, shows_whole hx hm he hnear⟩
  · rename_i hfar
    have hpos := value_pos_of_far hfar
    unfold fractionalCharsAt
    split
    · exact ⟨_, shows_scientific hx hm hleast he hfar⟩
    · rename_i hmiddle
      rw [not_or, not_not, not_not] at hmiddle
      have hne : exactValue x ≠ 0 := by
        rw [← abs_pos, abs_exactValue hx]
        exact hpos
      obtain ⟨k, hlow, hhigh, hk⟩ := horder hne
      rw [abs_exactValue hx] at hlow hhigh
      exact ⟨_, shows_positional hmiddle.2 hmiddle.1 hlow hhigh hk hx rfl hfar⟩

/-- The text of a result keeps all digits before the point. -/
theorem takeWhile_trimZeros_of_nearOrder (hx : x.isFinite = true) {order : Int}
    (horder : exactValue x ≠ 0 → NearOrder order x) (hsmall : smallUpTo < magnitudeOf x)
    (hlarge : magnitudeOf x < largeFrom) :
    (trimZeros (paddedChars order (magnitudeOf x))).takeWhile Char.isDigit =
      (paddedChars order (magnitudeOf x)).takeWhile Char.isDigit := by
  obtain ⟨negative, m, e, hx, -⟩ := exists_ofFloat hx
  rw [magnitudeOf_eq hx] at hsmall hlarge ⊢
  have hne : exactValue x ≠ 0 := by
    rw [← abs_pos, abs_exactValue hx]
    exact (Decimal.value_nonneg _).trans_lt (Decimal.lt_iff.mp hsmall)
  obtain ⟨k, hlow, hhigh, hk⟩ := horder hne
  rw [abs_exactValue hx] at hlow hhigh
  exact takeWhile_trimZeros_paddedChars hsmall hlarge hlow hhigh hk

end Reckoner
