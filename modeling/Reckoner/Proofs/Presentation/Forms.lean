import Reckoner.Presentation
import Reckoner.Proofs.Number.Decimals
import Reckoner.Proofs.Number.Range

/-!
# The forms of shown results

A result is shown as a number literal of one of three forms (`Numeral.IsShown`). Where a decimal
loses zeros at its end it keeps the digits before the point (`takeWhile_trimZeros`), and what it
says stays the same (`Numeral.magnitude_trimmed`). The scientific form is a literal as well
(`Numeral.spelling_scientific`).
-/

namespace Reckoner

/-! ### Forms -/

/-- The forms in which a result is shown: a whole number, a decimal without a zero at its end, or
one digit before the point and six after it with a power of ten. -/
inductive Numeral.IsShown : Numeral → Prop
  | whole (ds : List Char) : IsShown ⟨ds, none, none⟩
  | positional {ds fs : List Char} (hds : ds ≠ []) (hne : fs ≠ []) (hlast : fs.getLast hne ≠ '0') :
      IsShown ⟨ds, some fs, none⟩
  | scientific (d : Char) {fs : List Char} {x : Exponent} (hlength : fs.length = 6)
      (hmarker : x.marker = 'e') (hsign : x.sign ≠ some '+') : IsShown ⟨[d], some fs, some x⟩

/-! ### Zeros at the end -/

/-- The digits behind the point without zeros at the end, and no point where none are left. -/
def trimmedFraction (fs : List Char) : Option (List Char) :=
  if fs.rdropWhile (· = '0') = [] then none else some (fs.rdropWhile (· = '0'))

/-- A literal without zeros at the end of its fraction. -/
def Numeral.trimmed (n : Numeral) : Numeral :=
  { n with fraction := n.fraction.bind trimmedFraction }

theorem trimZeros_eq (cs : List Char) :
    trimZeros cs = (cs.rdropWhile (· = '0')).rdropWhile (· = '.') := by
  simp [trimZeros, List.rdropWhile]

theorem exists_rdropWhile_append (fs : List Char) :
    ∃ j, fs.rdropWhile (· = '0') ++ List.replicate j '0' = fs := by
  have hzeros : fs.rtakeWhile (· = '0') = List.replicate (fs.rtakeWhile (· = '0')).length '0' :=
    List.eq_replicate_of_mem fun c hc => by simpa using List.mem_rtakeWhile_imp hc
  refine ⟨(fs.rtakeWhile (· = '0')).length, ?_⟩
  rw [← hzeros, List.rdropWhile_append_rtakeWhile]

theorem rdropWhile_append_replicate (cs : List Char) (j : Nat) :
    (cs ++ List.replicate j '0').rdropWhile (· = '0') = cs.rdropWhile (· = '0') := by
  induction j with
  | zero => simp
  | succ j ih => rw [List.replicate_succ', ← List.append_assoc, List.rdropWhile_concat, ih]; rfl

theorem rdropWhile_of_getLast {p : Char → Bool} {cs : List Char} {c : Char} (hp : p c = false) :
    (cs ++ [c]).rdropWhile p = cs ++ [c] := by
  rw [List.rdropWhile_concat, hp, if_neg Bool.false_ne_true]

theorem ne_point_of_isDigit {c : Char} (h : c.isDigit = true) : c ≠ '.' := by
  rintro rfl
  cases h

theorem rdropWhile_point {ds : List Char} (h : ds.all Char.isDigit = true) :
    ds.rdropWhile (· = '.') = ds := by
  refine List.rdropWhile_eq_self_iff.mpr fun hne => ?_
  have hlast := List.all_eq_true.mp h _ (List.getLast_mem hne)
  simpa using ne_point_of_isDigit hlast

section

variable {ds fs : List Char}

theorem all_isDigit_rdropWhile (hfs : fs.all Char.isDigit = true) :
    (fs.rdropWhile (· = '0')).all Char.isDigit = true :=
  List.all_eq_true.mpr fun c hc =>
    List.all_eq_true.mp hfs c ((List.rdropWhile_prefix _ fs).subset hc)

/-- What is left of the digits behind the point ends in a digit that is no zero. -/
theorem exists_last_of_kept (hfs : fs.all Char.isDigit = true)
    (hkept : fs.rdropWhile (· = '0') ≠ []) :
    ∃ ks c, fs.rdropWhile (· = '0') = ks ++ [c] ∧ c.isDigit = true ∧ c ≠ '0' := by
  obtain ⟨ks, c, hks⟩ := (List.eq_nil_or_concat' _).resolve_left hkept
  have hdigit : c.isDigit = true := by
    refine List.all_eq_true.mp (all_isDigit_rdropWhile hfs) c ?_
    rw [hks]
    exact List.mem_append_right _ (List.mem_singleton_self c)
  have hlast := List.rdropWhile_last_not _ fs hkept
  simp only [hks, List.getLast_append_singleton, decide_eq_true_eq] at hlast
  exact ⟨ks, c, hks, hdigit, hlast⟩

/-- Zeros behind the point are taken away, and the point with them if nothing else is left. -/
theorem trimZeros_point (hds : ds.all Char.isDigit = true) (hfs : fs.all Char.isDigit = true) :
    trimZeros (ds ++ '.' :: fs) = (Numeral.trimmed ⟨ds, some fs, none⟩).spelling := by
  obtain ⟨j, hj⟩ := exists_rdropWhile_append fs
  have hsplit : ds ++ '.' :: fs =
      (ds ++ '.' :: fs.rdropWhile (· = '0')) ++ List.replicate j '0' := by
    rw [List.append_assoc, List.cons_append, hj]
  rw [trimZeros_eq, hsplit, rdropWhile_append_replicate]
  by_cases hkept : fs.rdropWhile (· = '0') = []
  · rw [hkept, rdropWhile_of_getLast (by decide), List.rdropWhile_concat_pos _ _ _ (by decide),
      rdropWhile_point hds]
    simp [Numeral.trimmed, trimmedFraction, hkept, Numeral.spelling]
  · -- the last digit stops both
    obtain ⟨ks, c, hks, hdigit, hzero⟩ := exists_last_of_kept hfs hkept
    have hpoint := ne_point_of_isDigit hdigit
    have hlast : ds ++ '.' :: (ks ++ [c]) = (ds ++ '.' :: ks) ++ [c] := by simp
    rw [hks, hlast, rdropWhile_of_getLast (by simpa using hzero),
      rdropWhile_of_getLast (by simpa using hpoint)]
    simp [Numeral.trimmed, trimmedFraction, hks, Numeral.spelling]

/-- No digit before the point is taken away. -/
theorem takeWhile_trimZeros (hds : ds.all Char.isDigit = true) (hfs : fs.all Char.isDigit = true) :
    (trimZeros (ds ++ '.' :: fs)).takeWhile Char.isDigit =
      (ds ++ '.' :: fs).takeWhile Char.isDigit := by
  have hpoint : EndsRun Char.isDigit ('.' :: fs) := EndsRun.cons_iff.mpr rfl
  have hrest (fraction : Option (List Char)) :
      EndsRun Char.isDigit (Numeral.fractionSpelling fraction) := by
    cases fraction with
    | none => exact EndsRun.nil
    | some gs => exact EndsRun.cons_iff.mpr rfl
  rw [trimZeros_point hds hfs, hpoint.takeWhile_append hds, Numeral.spelling_eq]
  show (ds ++ Numeral.fractionSpelling _ ++ []).takeWhile Char.isDigit = ds
  rw [List.append_nil, (hrest _).takeWhile_append hds]

/-- Without the zeros at its end the literal says the same. -/
theorem Numeral.magnitude_trimmed :
    (Numeral.trimmed ⟨ds, some fs, none⟩).magnitude = (⟨ds, some fs, none⟩ : Numeral).magnitude := by
  obtain ⟨j, hj⟩ := exists_rdropWhile_append fs
  have hfraction : ((some fs).bind trimmedFraction).getD [] = fs.rdropWhile (· = '0') := by
    by_cases hkept : fs.rdropWhile (· = '0') = [] <;> simp [trimmedFraction, hkept]
  have hcoefficient : Nat.ofDigitChars 10 (ds ++ fs) 0 =
      Nat.ofDigitChars 10 (ds ++ fs.rdropWhile (· = '0')) 0 * powerOfTen j := by
    conv_lhs => rw [← hj]
    rw [← List.append_assoc, Nat.ofDigitChars_append, Nat.ofDigitChars_replicate_zero]
    exact Nat.mul_comm _ _
  have hlength : fs.length = (fs.rdropWhile (· = '0')).length + j := by
    conv_lhs => rw [← hj]
    simp
  simp only [magnitude, coefficient, scale, trimmed, Option.elim_none, hfraction, Option.getD_some,
    hcoefficient, hlength]
  rw [← mul_powerOfTen_mul_zpow _ j]
  congr 2
  omega

theorem Numeral.isShown_trimmed (hne : ds ≠ []) (hfs : fs.all Char.isDigit = true) :
    (Numeral.trimmed ⟨ds, some fs, none⟩).IsShown := by
  by_cases hkept : fs.rdropWhile (· = '0') = []
  · simp only [trimmed, Option.bind_some, trimmedFraction, if_pos hkept]
    exact .whole ds
  · obtain ⟨ks, c, hks, -, hzero⟩ := exists_last_of_kept hfs hkept
    simp only [trimmed, Option.bind_some, trimmedFraction, if_neg hkept]
    refine .positional hne hkept ?_
    simpa [hks] using hzero

theorem Numeral.isWellFormed_trimmed (hne : ds ≠ []) (hds : ds.all Char.isDigit = true)
    (hfs : fs.all Char.isDigit = true) :
    (Numeral.trimmed ⟨ds, some fs, none⟩).isWellFormed = true := by
  have hkept := all_isDigit_rdropWhile hfs
  by_cases h : fs.rdropWhile (· = '0') = []
  · simp [trimmed, trimmedFraction, h, isWellFormed, hds, hne]
  · simp only [trimmed, Option.bind_some, trimmedFraction, if_neg h, isWellFormed, hds,
      Option.getD_some, hkept]
    simp [hne]

end

/-! ### The scientific form -/

namespace Exponent

/-- The exponent that names a power of ten. -/
def ofInt (e : Int) : Exponent where
  marker := 'e'
  sign := if e < 0 then some '-' else none
  digits := Reckoner.digits e.natAbs

theorem spelling_ofInt (e : Int) : (ofInt e).spelling = 'e' :: (toString e).toList := by
  cases e with
  | ofNat k => simp [ofInt, spelling, toString, Int.repr]
  | negSucc k => simp [ofInt, spelling, toString, Int.repr]

theorem value_ofInt (e : Int) : (ofInt e).value = e := by
  unfold value ofInt
  rw [Nat.ofDigitChars_ten_toDigits]
  by_cases h : e < 0
  · rw [if_pos h, if_pos rfl]
    omega
  · rw [if_neg h, if_neg (by simp)]
    omega

theorem isWellFormed_ofInt (e : Int) : (ofInt e).isWellFormed = true := by
  have hne : Reckoner.digits e.natAbs ≠ [] := Nat.toDigits_ne_nil
  have hall := Numeral.all_isDigit_digits e.natAbs
  by_cases h : e < 0 <;> simp [ofInt, isWellFormed, h, hne, hall]

end Exponent

namespace Numeral

/-- The literal with the digits of a decimal and a power of ten. -/
def scientific (c p : Nat) (e : Int) : Numeral :=
  { ofDecimal ⟨c, p⟩ with exponent := some (.ofInt e) }

variable {c p : Nat} {e : Int}

theorem spelling_scientific :
    (scientific c p e).spelling = Decimal.chars ⟨c, p⟩ ++ 'e' :: (toString e).toList := by
  rw [← spelling_ofDecimal, ← Exponent.spelling_ofInt]
  simp [scientific, spelling, ofDecimal]

theorem isWellFormed_scientific : (scientific c p e).isWellFormed = true := by
  have hdecimal := isWellFormed_ofDecimal ⟨c, p⟩
  simp only [isWellFormed, Bool.and_eq_true] at hdecimal ⊢
  exact ⟨hdecimal.1, Exponent.isWellFormed_ofInt e⟩

theorem magnitude_ofDecimal (d : Decimal) : (ofDecimal d).magnitude = d.value := by
  rw [magnitude, coefficient_ofDecimal, scale_ofDecimal, Decimal.value]

theorem magnitude_scientific : (scientific c p e).magnitude = c * 10 ^ (e - p) := by
  have hcoefficient : (scientific c p e).coefficient = c := coefficient_ofDecimal ⟨c, p⟩
  have hscale := scale_ofDecimal ⟨c, p⟩
  have hexponent : (scientific c p e).scale = e + (ofDecimal ⟨c, p⟩).scale := by
    simp only [scale, scientific, ofDecimal, Option.elim_some, Option.elim_none,
      Exponent.value_ofInt]
    ring
  rw [magnitude, hcoefficient, hexponent, hscale, sub_eq_add_neg]

/-- A number of seven digits has one digit before the point. -/
theorem isShown_scientific (hc : c < powerOfTen (scientificPlaces + 1)) :
    (scientific c scientificPlaces e).IsShown := by
  have hquotient : c / powerOfTen scientificPlaces < powerOfTen 1 :=
    Nat.div_lt_of_lt_mul (by rwa [powerOfTen_add] at hc)
  have hone : (digits (c / powerOfTen scientificPlaces)).length = 1 := by
    have hle : (digits (c / powerOfTen scientificPlaces)).length ≤ 1 :=
      length_digits_le one_pos hquotient
    have hpos : 0 < (digits (c / powerOfTen scientificPlaces)).length :=
      List.length_pos_iff.mpr Nat.toDigits_ne_nil
    omega
  obtain ⟨d, hd⟩ := List.length_eq_one_iff.mp hone
  have hfraction : (digits (c % powerOfTen scientificPlaces)).length ≤ scientificPlaces :=
    length_digits_le (by decide) (Nat.mod_lt _ (powerOfTen_pos scientificPlaces))
  have hform : scientific c scientificPlaces e = ⟨[d],
      some ((digits (c % powerOfTen scientificPlaces)).leftpad scientificPlaces '0'),
      some (.ofInt e)⟩ := by
    have hplaces : scientificPlaces ≠ 0 := by decide
    simp [scientific, ofDecimal, hd, hplaces]
  rw [hform]
  refine .scientific d ?_ rfl ?_
  · rw [List.length_leftpad, max_eq_left hfraction]
    rfl
  · unfold Exponent.ofInt
    split <;> simp

end Numeral

end Reckoner
