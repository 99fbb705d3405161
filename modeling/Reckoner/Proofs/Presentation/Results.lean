import Reckoner.Proofs.Evaluation.Formula
import Reckoner.Proofs.Nesting.Marks
import Reckoner.Proofs.Presentation.Accuracy

/-!
# Results are read back

The text of a result is accepted again, in both modes. Its literal has a finite value, as it is
exactly the result where this is large (`Shows.isFinite_value`), and at most two signs count for
the nesting (`Nesting.bound_minus_spelling_le`). So the texts of all finite results are what they
have to be (`resultText_presents`).
-/

namespace Reckoner

/-! ### Nesting -/

namespace Nesting

variable {n : Numeral}

/-- Of a literal only the sign of the exponent counts. -/
theorem length_marks_spelling_le (hn : n.isWellFormed = true) (hfraction : n.fraction ≠ some []) :
    (marks ' ' n.spelling).length ≤ 1 := by
  obtain ⟨whole, fraction, exponent⟩ := n
  simp only [Numeral.isWellFormed, Bool.and_eq_true] at hn
  obtain ⟨⟨⟨hwhole, hdigits⟩, -⟩, hexponent⟩ := hn
  have hfraction : fraction ≠ some [] := hfraction
  rw [Numeral.spelling_eq, List.append_assoc, marks_digits hwhole, marks_fraction hdigits]
  simp only [hfraction, decide_false, Bool.false_and, markIf, Bool.false_eq_true, if_false,
    List.nil_append]
  cases exponent with
  | none => simp [Numeral.exponentSpelling, marks]
  | some x =>
    have hx : x.isWellFormed = true := hexponent
    have hmarks := marks_exponent hx []
    rw [List.append_nil] at hmarks
    rw [Numeral.exponentSpelling, hmarks]
    split <;> simp [marks]

theorem bound_minus_spelling_le (negative : Bool) (hn : n.isWellFormed = true)
    (hfraction : n.fraction ≠ some []) : bound (minus negative ++ n.spelling) ≤ 3 := by
  have hspelling := length_marks_spelling_le hn hfraction
  have hmarks : (marks ' ' (minus negative ++ n.spelling)).length ≤ 2 := by
    cases negative with
    | false => exact Nat.le_succ_of_le hspelling
    | true =>
      have hunjoined : Unjoined '-' n.spelling := .of_not (by decide) rfl
      show (marks ' ' ('-' :: n.spelling)).length ≤ 2
      rw [marks_cons_of_unjoined rfl rfl (by decide) hunjoined, List.length_append]
      have := length_markOf_le ' ' '-'
      omega
  have hrun := Scan.bound_run_le {} (marks ' ' (minus negative ++ n.spelling))
  have hstart : Scan.bound {} = 1 := rfl
  unfold bound
  omega

end Nesting

/-! ### The last character -/

theorem exists_concat_of_all_isDigit {ds : List Char} (hne : ds ≠ [])
    (h : ds.all Char.isDigit = true) : ∃ cs c, ds = cs ++ [c] ∧ c.isDigit = true := by
  obtain ⟨cs, c, rfl⟩ := (List.eq_nil_or_concat' ds).resolve_left hne
  exact ⟨cs, c, rfl, List.all_eq_true.mp h c (by simp)⟩

namespace Numeral.IsShown

variable {n : Numeral}

theorem fraction_ne (h : n.IsShown) : n.fraction ≠ some [] := by
  cases h with
  | whole => simp
  | positional _ hne => simpa using hne
  | scientific _ hlength =>
    simp only [ne_eq, Option.some.injEq]
    rintro rfl
    cases hlength

/-- Only zero is shown as zero. -/
theorem coefficient_eq_zero (h : n.IsShown) (hzero : n.spelling = ['0']) : n.coefficient = 0 := by
  have hpoint : '.' ∉ n.spelling := by
    rw [hzero]
    decide
  cases h with
  | whole ds =>
    obtain rfl : ds = ['0'] := by simpa [spelling] using hzero
    rfl
  | positional => simp [spelling] at hpoint
  | scientific => simp [spelling] at hpoint

/-- A shown literal ends in a digit. -/
theorem exists_last (h : n.IsShown) (hn : n.isWellFormed = true) :
    ∃ cs c, n.spelling = cs ++ [c] ∧ c.isDigit = true := by
  simp only [isWellFormed, Bool.and_eq_true, Bool.not_eq_true', List.isEmpty_eq_false_iff] at hn
  obtain ⟨⟨⟨hwhole, hfraction⟩, hne⟩, hexponent⟩ := hn
  cases h with
  | whole ds =>
    obtain ⟨cs, c, rfl, hc⟩ := exists_concat_of_all_isDigit (by simpa using hne) hwhole
    exact ⟨cs, c, by simp [spelling], hc⟩
  | @positional ds fs _ hfs =>
    obtain ⟨cs, c, rfl, hc⟩ := exists_concat_of_all_isDigit hfs hfraction
    exact ⟨ds ++ '.' :: cs, c, by simp [spelling], hc⟩
  | @scientific d fs x =>
    obtain ⟨marker, sign, es⟩ := x
    simp only [Option.all_some, Exponent.isWellFormed, Bool.and_eq_true, Bool.not_eq_true',
      List.isEmpty_eq_false_iff] at hexponent
    obtain ⟨cs, c, rfl, hc⟩ := exists_concat_of_all_isDigit hexponent.1.2 hexponent.2
    exact ⟨d :: '.' :: (fs ++ marker :: (sign.toList ++ cs)), c,
      by simp [spelling, Exponent.spelling], hc⟩

end Numeral.IsShown

/-! ### Formulas -/

namespace Formula

/-- A literal with or without a minus sign. -/
def ofLiteral (negative : Bool) (n : Numeral) (hn : n.isWellFormed = true)
    (hfinite : n.value.isFinite = true) : Formula :=
  if negative then signed .minus (literal n hn hfinite) else literal n hn hfinite

variable (negative : Bool) (n : Numeral) (hn : n.isWellFormed = true)
  (hfinite : n.value.isFinite = true)

theorem chars_ofLiteral : (ofLiteral negative n hn hfinite).chars = minus negative ++ n.spelling := by
  cases negative <;> rfl

theorem text_ofLiteral :
    (ofLiteral negative n hn hfinite).text = String.ofList (minus negative ++ n.spelling) := by
  cases negative with
  | false => rfl
  | true =>
    rw [← String.toList_inj]
    simp [ofLiteral, text, Sign.symbol, minus]

theorem value_ofLiteral : (ofLiteral negative n hn hfinite).value =
    .ok (if negative then -n.value else n.value) := by
  cases negative with
  | false => simp [ofLiteral, value]
  | true =>
    simp only [ofLiteral, if_true, value]
    rfl

theorem depth_ofLiteral_le : (ofLiteral negative n hn hfinite).tree.depth ≤ 2 := by
  cases negative <;> simp [ofLiteral, tree, Expr.depth]

end Formula

/-! ### Texts of results -/

namespace Shows

variable {x : Float} {text : String} {negative : Bool} {n : Numeral}

theorem toList_eq (h : Shows x text negative n) : text.toList = minus negative ++ n.spelling := by
  rw [h.text_eq, String.toList_ofList]

theorem ne_minus_zero (h : Shows x text negative n) : text ≠ "-0" := by
  rintro rfl
  have htext : ['-', '0'] = minus negative ++ n.spelling := h.toList_eq
  obtain ⟨c, cs, hspelling, hc⟩ := Numeral.exists_cons_of_isWellFormed h.isWellFormed
  cases negative with
  | false =>
    -- a literal does not begin with a sign
    rw [hspelling] at htext
    obtain rfl := (List.cons.inj htext).1
    revert hc
    decide
  | true =>
    have hzero := h.isShown.coefficient_eq_zero (List.cons.inj htext).2.symm
    exact absurd (h.unsigned hzero) (by decide)

/-- No point is the last character. -/
theorem getLast?_ne_point (h : Shows x text negative n) : text.toList.getLast? ≠ some '.' := by
  obtain ⟨cs, c, hspelling, hc⟩ := h.isShown.exists_last h.isWellFormed
  rw [h.toList_eq, hspelling, ← List.append_assoc, List.getLast?_concat, ne_eq, Option.some.injEq]
  exact ne_point_of_isDigit hc

/-- The value of the literal is finite. -/
theorem isFinite_value (h : Shows x text negative n) (hx : x.isFinite = true) :
    n.value.isFinite = true := by
  obtain ⟨s, m, e, hx, hm, hleast, he⟩ := exists_ofFloat hx
  have habs : |signed negative n.magnitude| = n.magnitude := by
    rw [abs_signed, abs_of_nonneg n.magnitude_nonneg]
  by_cases hwhole : 0 ≤ e
  · -- a large double is whole
    obtain ⟨k, rfl⟩ := Int.eq_ofNat_of_zero_le hwhole
    refine Numeral.isFinite_value_of_eq hm hleast he ?_
    have hexact := h.exact ⟨if s then -(m * 2 ^ k : Nat) else (m * 2 ^ k : Nat), ?_⟩
    · rw [← habs, hexact, abs_exactValue hx, Decimal.value_ofBinary]
    · rw [exactValue_eq hx, Decimal.value_ofBinary, signed]
      cases s <;> simp
  · have hvalue := value_ofBinary_lt (e := e) (k := 0) hm (by omega)
    rw [← abs_exactValue hx] at hvalue
    have hclose := (abs_sub_abs_le_abs_sub _ _).trans h.close
    have hmax : max (1 / 10 ^ 10 : ℚ) (5 / 10 ^ 7 * |exactValue x|) ≤ 1 + |exactValue x| := by
      have := abs_nonneg (exactValue x)
      refine max_le ?_ ?_ <;> linarith
    refine Numeral.isFinite_value ?_
    rw [habs] at hclose
    calc n.magnitude ≤ 1 + 2 * 2 ^ (53 + 0 : Int) := by linarith
      _ ≤ 2 ^ (55 : Int) := by norm_num
      _ ≤ 2 ^ (900 : Int) := zpow_le_zpow_right₀ one_le_two (by norm_num)

/-- The text is read back in both modes. -/
theorem evaluate_eq (h : Shows x text negative n) (hx : x.isFinite = true) (mode : Mode) :
    Policy.evaluate {} mode text = .ok (if negative then -n.value else n.value) := by
  have hfinite := h.isFinite_value hx
  set w := Formula.ofLiteral negative n h.isWellFormed hfinite with hw
  have htext : w.text = text := by
    rw [h.text_eq, hw, Formula.text_ofLiteral]
  obtain ⟨ts, hsaid⟩ := w.exists_text
  rw [← w.expandCarets_text, htext] at hsaid
  have hbound : Nesting.bound (Text.expandCarets text.toList) ≤ 3 := by
    rw [← htext, w.expandCarets_text, hw, Formula.chars_ofLiteral]
    exact Nesting.bound_minus_spelling_le negative h.isWellFormed h.isShown.fraction_ne
  have hdepth : w.tree.depth ≤ 2 := Formula.depth_ofLiteral_le ..
  have hparse : Policy.parse {} text = .ok w.tree := by
    refine Policy.parse_eq_ok_iff.mpr ⟨h.short.trans (by decide), ts, hsaid, hbound.trans ?_,
      hdepth.trans ?_⟩
    · decide
    · decide
  rw [Policy.evaluate_of_parse hparse, w.evaluate_tree rfl, hw, Formula.value_ofLiteral]

end Shows

/-- What the text of a result has to be, where its leading digit is taken to be of that order: it
shows the result, is not `-0`, does not end in a point, has kept all digits before the point, and
has a value again in both modes. -/
structure Presents (order : Int) (x : Float) (text : String) : Prop where
  shows : ∃ negative n, Shows x text negative n ∧
    ∀ mode, Policy.evaluate {} mode text = .ok (if negative then -n.value else n.value)
  ne_minus_zero : text ≠ "-0"
  getLast?_ne_point : text.toList.getLast? ≠ some '.'
  kept : smallUpTo < magnitudeOf x → magnitudeOf x < largeFrom →
    (trimZeros (paddedChars order (magnitudeOf x))).takeWhile Char.isDigit =
      (paddedChars order (magnitudeOf x)).takeWhile Char.isDigit

theorem presents_resultTextAt {x : Float} (hx : x.isFinite = true) {order : Int}
    (horder : exactValue x ≠ 0 → NearOrder order x) : Presents order x (resultTextAt order x) := by
  obtain ⟨negative, n, h⟩ := exists_shows_resultTextAt hx horder
  exact ⟨⟨negative, n, h, h.evaluate_eq hx⟩, h.ne_minus_zero, h.getLast?_ne_point,
    takeWhile_trimZeros_of_nearOrder hx horder⟩

/-- **Results can be fed back.** The text of a finite result is a literal in one of three forms,
with or without a minus sign, which is close to the result and exactly the result if this is whole;
it has a value again in both modes. All this holds as well where the order of the leading digit,
from which the number of digits is taken, is one too large. -/
theorem resultText_presents {x : Float} (hx : x.isFinite = true) :
    Presents (magnitudeOf x).order x (resultText x) ∧
      ∀ order, (exactValue x ≠ 0 → NearOrder order x) → Presents order x (resultTextAt order x) := by
  refine ⟨?_, fun order => presents_resultTextAt hx⟩
  rw [resultText_eq]
  exact presents_resultTextAt hx (nearOrder_magnitudeOf hx)

/-- Rounding carries into a new digit. -/
theorem resultText_presents_carry :
    (999999.999 : Float).isFinite = true ∧ resultText 999999.999 = "1000000" ∧
      ∀ mode, ∃ y, Policy.evaluate {} mode "1000000" = .ok y := by
  have hx : (999999.999 : Float).isFinite = true := by decide +kernel
  have htext : resultText 999999.999 = "1000000" := by decide +kernel
  obtain ⟨hpresents, -⟩ := resultText_presents hx
  rw [htext] at hpresents
  obtain ⟨negative, n, -, hevaluate⟩ := hpresents.shows
  exact ⟨hx, htext, fun mode => ⟨_, hevaluate mode⟩⟩

end Reckoner
