import Reckoner.Number.Binary

/-!
# Exact decimals

Every finite double is a whole number of units of some decimal place, because two
divides ten. Its text to a fixed number of places, or in scientific form, is then
one rounded division of whole numbers; a half goes to the even neighbour.
-/

namespace Reckoner

/-- The decimal digits of a number, most significant first. -/
abbrev digits (n : Nat) : List Char := Nat.toDigits 10 n

/-- The power of ten with that many zeros. -/
def powerOfTen (zeros : Nat) : Nat := Nat.pow 10 zeros

theorem powerOfTen_succ (n : Nat) : powerOfTen (n + 1) = powerOfTen n * 10 := rfl

theorem powerOfTen_pos (n : Nat) : 0 < powerOfTen n := by
  induction n with
  | zero => decide
  | succ n ih => rw [powerOfTen_succ]; omega

/-- The quotient rounded to the nearest whole number, a half to the even one. -/
def roundQuotient (n d : Nat) : Nat :=
  let r := 2 * (n % d)
  if r < d then n / d else if d < r then n / d + 1 else n / d + n / d % 2

/-- The magnitude `units / 10 ^ places`. -/
structure Decimal where
  units : Nat
  places : Nat
  deriving DecidableEq

namespace Decimal

/-- The magnitude `m * 2 ^ e` as a decimal: a power of a half is a power of five tenths. -/
def ofBinary (m : Nat) : Int → Decimal
  | .ofNat k => ⟨m <<< k, 0⟩
  | .negSucc k => ⟨m * Nat.pow 5 (k + 1), k + 1⟩

/-- The magnitude of a finite double. -/
def ofFloat? (x : Float) : Option Decimal :=
  match Binary.ofFloat x with
  | .finite _ m e => some (ofBinary m e)
  | _ => none

/-- The order of the magnitudes. -/
def lt (x y : Decimal) : Prop :=
  x.units * powerOfTen y.places < y.units * powerOfTen x.places

instance : LT Decimal := ⟨lt⟩

instance (x y : Decimal) : Decidable (x < y) :=
  inferInstanceAs (Decidable (x.units * powerOfTen y.places < y.units * powerOfTen x.places))

/-- The nearest decimal with that many places. -/
def round (places : Nat) (x : Decimal) : Decimal :=
  if x.places ≤ places then ⟨x.units * powerOfTen (places - x.places), places⟩
  else ⟨roundQuotient x.units (powerOfTen (x.places - places)), places⟩

/-- The nearest whole number, a half going up. -/
def nearest (x : Decimal) : Nat :=
  (2 * x.units + powerOfTen x.places) / (2 * powerOfTen x.places)

/-- The distance to a whole number. -/
def distance (x : Decimal) (n : Nat) : Decimal :=
  let whole := n * powerOfTen x.places
  ⟨(x.units - whole) + (whole - x.units), x.places⟩

/-- The digits of the whole part, and after a point exactly the decimal places. -/
def chars (x : Decimal) : List Char :=
  let whole := digits (x.units / powerOfTen x.places)
  if x.places = 0 then whole
  else whole ++ '.' :: (digits (x.units % powerOfTen x.places)).leftpad x.places '0'

/-- The power of ten of the leading digit. -/
def order (x : Decimal) : Int :=
  ((digits x.units).length : Int) - 1 - x.places

/-- One digit, that many more after a point, and the power of ten they are scaled by. -/
def scientific (places : Nat) (x : Decimal) : List Char :=
  let width := (digits x.units).length
  let c :=
    if width ≤ places + 1 then x.units * powerOfTen (places + 1 - width)
    else roundQuotient x.units (powerOfTen (width - (places + 1)))
  if c < powerOfTen (places + 1) then chars ⟨c, places⟩ ++ 'e' :: (toString x.order).toList
  else chars ⟨powerOfTen places, places⟩ ++ 'e' :: (toString (x.order + 1)).toList

end Decimal

end Reckoner
