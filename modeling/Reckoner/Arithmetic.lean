import Reckoner.Refusal
import Reckoner.Number.Remainder

/-!
# Applying operators and functions

Results are finite or refused: a division by zero, a result that is undefined and
one beyond the largest double each have a refusal of their own.
-/

namespace Reckoner

namespace Operator

/-- Whether the operation would divide by zero; a negative power of zero does too. -/
def dividesByZero : Operator → Float → Float → Bool
  | .quotient, _, y | .remainder, _, y => y == 0
  | .power, x, y => x == 0 && y < 0
  | _, _, _ => false

/-- The rounded result, which may be infinite or no number.

Every number to the power of zero is one. -/
def compute : Operator → Float → Float → Float
  | .sum, x, y => x + y
  | .difference, x, y => x - y
  | .product, x, y => x * y
  | .quotient, x, y => x / y
  | .remainder, x, y => floorMod x y
  | .power, x, y => if y == 0 then 1 else x.pow y

/-- The finite result, or why there is none. -/
def apply (op : Operator) (x y : Float) : Except Refusal Float :=
  if op.dividesByZero x y then .error .divisionByZero
  else
    let z := op.compute x y
    if z.isNaN then .error (.undefined (.operation op x y))
    else if z.isInf then .error (.undefined (.overflow op x y))
    else .ok z

end Operator

/-- A sign keeps a number or turns it round. -/
def Sign.apply : Sign → Float → Float
  | .plus, x => x
  | .minus, x => -x

namespace Elementary

/-- Whether a number is in the domain of the function. -/
def admits : Elementary → Float → Bool
  | .sqrt, x => !(x < 0)
  | .log, x | .log10, x => !(x ≤ 0)
  | _, _ => true

/-- The rounded value, which may be infinite or no number. -/
def compute : Elementary → Float → Float
  | .sqrt, x => x.sqrt
  | .sin, x => x.sin
  | .cos, x => x.cos
  | .tan, x => x.tan
  | .log, x => x.log
  | .log10, x => x.log10

/-- The finite value, or why there is none. -/
def apply (f : Elementary) (x : Float) : Except Refusal Float :=
  if f.admits x && (f.compute x).isFinite then .ok (f.compute x)
  else .error (.undefined (.argument f x))

end Elementary

end Reckoner
