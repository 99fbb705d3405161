import Reckoner.Number.Binary

/-!
# Number literals

Digits with an optional point and an optional power of ten. A literal keeps its
spelling; its value is the double nearest to what the digits say.
-/

namespace Reckoner

/-- The power of ten of a literal: `e` or `E`, an optional sign and digits. -/
structure Exponent where
  marker : Char
  sign : Option Char
  digits : List Char
  deriving DecidableEq

/-- A literal: the digits before the point, those after it if there is one, and the exponent. -/
structure Numeral where
  whole : List Char
  fraction : Option (List Char)
  exponent : Option Exponent
  deriving DecidableEq

namespace Exponent

/-- The characters the exponent was read from. -/
def spelling (x : Exponent) : List Char :=
  x.marker :: (x.sign.toList ++ x.digits)

/-- The power of ten that the exponent names. -/
def value (x : Exponent) : Int :=
  let n : Int := Nat.ofDigitChars 10 x.digits 0
  if x.sign = some '-' then -n else n

/-- Splits a leading sign off. -/
def readSign : List Char → Option Char × List Char
  | '+' :: cs => (some '+', cs)
  | '-' :: cs => (some '-', cs)
  | cs => (none, cs)

/-- Reads an exponent, which needs at least one digit. -/
def read? : List Char → Option (Exponent × List Char)
  | [] => none
  | c :: cs =>
    if c = 'e' ∨ c = 'E' then
      let (sign, cs) := readSign cs
      match cs.takeWhile Char.isDigit with
      | [] => none
      | ds => some (⟨c, sign, ds⟩, cs.dropWhile Char.isDigit)
    else none

end Exponent

namespace Numeral

/-- The characters the literal was read from. -/
def spelling (n : Numeral) : List Char :=
  n.whole ++ (match n.fraction with | none => [] | some ds => '.' :: ds)
    ++ (match n.exponent with | none => [] | some x => x.spelling)

/-- All digits before the exponent, as one whole number. -/
def coefficient (n : Numeral) : Nat :=
  Nat.ofDigitChars 10 (n.whole ++ n.fraction.getD []) 0

/-- The power of ten that the coefficient is scaled by. -/
def scale (n : Numeral) : Int :=
  (n.exponent.elim 0 Exponent.value) - (n.fraction.getD []).length

/-- The double nearest to the literal, an infinity when it is out of range. -/
def value (n : Numeral) : Float :=
  Float.ofScientific n.coefficient (n.scale < 0) n.scale.natAbs

/-- Reads the exponent that may follow the digits. -/
def withExponent (whole : List Char) (fraction : Option (List Char)) (cs : List Char) :
    Numeral × List Char :=
  match Exponent.read? cs with
  | none => (⟨whole, fraction, none⟩, cs)
  | some (x, rest) => (⟨whole, fraction, some x⟩, rest)

/-- Reads the longest literal that the text starts with; it needs a digit beside the point. -/
def read? (cs : List Char) : Option (Numeral × List Char) :=
  let whole := cs.takeWhile Char.isDigit
  match cs.dropWhile Char.isDigit with
  | '.' :: rest =>
    let fraction := rest.takeWhile Char.isDigit
    if whole = [] ∧ fraction = [] then none
    else some (withExponent whole (some fraction) (rest.dropWhile Char.isDigit))
  | rest => if whole = [] then none else some (withExponent whole none rest)

end Numeral

end Reckoner
