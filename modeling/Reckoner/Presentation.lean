import Reckoner.Evaluation

/-!
# Showing results

A result that is whole up to rounding errors is shown in full as a whole number, a
very large or small one in scientific form, and any other with eight significant
digits and no zeros at the end. A text that mentions a function is calculated in
the advanced mode.
-/

namespace Reckoner

/-! ### Numbers -/

/-- Results closer than this to a whole number are shown as that number. -/
def wholeWithin : Decimal := ⟨1, 10⟩

/-- Results from here on are shown in scientific form. -/
def largeFrom : Decimal := ⟨1000000, 0⟩

/-- Results up to here are shown in scientific form: the double nearest to `0.0001`. -/
def smallUpTo : Decimal := .ofBinary 7378697629483821 (-66)

theorem ofFloat?_smallUpTo : Decimal.ofFloat? 0.0001 = some smallUpTo := by decide

/-- The digits after the point in scientific form. -/
def scientificPlaces : Nat := 6

/-- The significant digits of a result in positional form. -/
def significantDigits : Int := 8

/-- The text without zeros at its end, and without a point that is then the last character. -/
def trimZeros (cs : List Char) : List Char :=
  ((cs.reverse.dropWhile (· = '0')).dropWhile (· = '.')).reverse

/-- The characters of a magnitude that is not whole. -/
def fractionalChars (d : Decimal) : List Char :=
  if ¬ d < largeFrom ∨ ¬ smallUpTo < d then d.scientific scientificPlaces
  else trimZeros (d.round (significantDigits - (d.order + 1)).toNat).chars

/-- The text of a result; zero has no sign. -/
def resultText (x : Float) : String :=
  match Binary.ofFloat x with
  | .finite negative m e =>
    let d := Decimal.ofBinary m e
    let n := d.nearest
    String.ofList <|
      if d.distance n < wholeWithin then minus (negative && n ≠ 0) ++ digits n
      else minus negative ++ fractionalChars d
  | b => b.text

/-! ### Refusals -/

/-- How a refusal is explained to the user. -/
def Refusal.explanation : Refusal → String
  | .divisionByZero => "division by zero"
  | r@(.unreadable ..) => "syntax error, please check the input (" ++ r.message ++ ")"
  | r@(.undefined _) => "math domain error (" ++ r.message ++ ")"
  | r => r.message

/-! ### Calculations -/

/-- Whether a word stands somewhere in a text. -/
def occursIn (word : List Char) : List Char → Bool
  | [] => word.isEmpty
  | c :: cs => word.isPrefixOf (c :: cs) || occursIn word cs

/-- The mode for a text: advanced if the name of a function stands anywhere in it. -/
def Mode.forText (text : String) : Mode :=
  if Elementary.all.any fun f => occursIn f.name.toList text.toList then .advanced else .basic

/-- The value of a text in the mode that suits it. -/
def calculate (text : String) : Except Refusal Float :=
  Policy.evaluate {} (Mode.forText text) text

/-- The answer to a text: its result, or why there is none. -/
def answerText : Except Refusal Float → String
  | .ok x => resultText x
  | .error r => r.explanation

end Reckoner
