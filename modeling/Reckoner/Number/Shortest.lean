import Reckoner.Number.Decimal

/-!
# The shortest text of a double

The numbers that round to a double form an interval around it. Its text has the
fewest significant digits of any decimal in that interval, the nearest of those,
and the upper one when two are equally near. It is positional at every magnitude.
-/

namespace Reckoner

/-- The units around a value that round to it, with their ends or without. -/
structure Neighbourhood where
  low : Nat
  value : Nat
  high : Nat
  closed : Bool

namespace Neighbourhood

/-- Whether a number of units rounds to the value. -/
def contains (r : Neighbourhood) (n : Nat) : Bool :=
  if r.closed then r.low ≤ n && n ≤ r.high else r.low < n && n < r.high

/-- The multiple of `10 ^ t` that rounds to the value and is nearest to it, counted in `10 ^ t`. -/
def multiple? (r : Neighbourhood) (t : Nat) : Option Nat :=
  let unit := powerOfTen t
  let d := r.value / unit
  match r.contains (d * unit), r.contains ((d + 1) * unit) with
  | true, true => some (if 2 * (r.value % unit) < unit then d else d + 1)
  | true, false => some d
  | false, true => some (d + 1)
  | false, false => none

/-- The coarsest power of ten up to `10 ^ t` with a multiple that rounds to the value, and
that multiple. -/
def coarsest (r : Neighbourhood) : Nat → Nat × Nat
  | 0 => (r.value, 0)
  | t + 1 =>
    match r.multiple? (t + 1) with
    | some d => (d, t + 1)
    | none => r.coarsest t

end Neighbourhood

namespace Decimal

/-- The least significand of 53 bits. -/
def leastFull : Nat := 4503599627370496

/-- The decimal with the fewest digits that rounds to the double `m * 2 ^ e`.

The interval reaches half a step to both sides, but below a power of two, whose
significand is the least one of 53 bits, the steps are half as long. Its ends round
to the even significand. -/
def shortest (m : Nat) (e : Int) : Decimal :=
  let below := if m = leastFull ∧ -1074 < e then 1 else 2
  let value := ofBinary (4 * m) (e - 2)
  let r : Neighbourhood :=
    { low := (ofBinary (4 * m - below) (e - 2)).units
      value := value.units
      high := (ofBinary (4 * m + 2) (e - 2)).units
      closed := m % 2 = 0 }
  let (d, t) := r.coarsest (digits r.high).length
  ⟨d * powerOfTen (t - value.places), value.places - t⟩

end Decimal

/-- A minus sign for a negative number. -/
def minus (negative : Bool) : List Char :=
  if negative then ['-'] else []

/-- The text of a double in messages: the shortest that reads back, never with an exponent. -/
def Binary.text : Binary → String
  | .nan => "NaN"
  | .infinite n => String.ofList (minus n ++ ['i', 'n', 'f'])
  | .finite n m e =>
      String.ofList (minus n ++ if m = 0 then ['0'] else (Decimal.shortest m e).chars)

/-- The shortest text that reads back as the same double. -/
def numberText (x : Float) : String := (Binary.ofFloat x).text

end Reckoner
