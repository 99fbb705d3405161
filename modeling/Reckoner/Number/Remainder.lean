import Reckoner.Number.Binary

/-!
# The floored remainder of doubles

The remainder takes the sign of the divisor. It is computed exactly on whole
multiples of a common power of two and rounded once at the end.
-/

namespace Reckoner

namespace Binary

/-- The remainder of the floored division.

A remainder of zero keeps the sign of the dividend. An infinite divisor leaves a
dividend of its own sign as it is. -/
def remainder : Binary → Binary → Binary
  | .finite n a p, .finite s b q =>
      let e := min p q
      let d := b <<< (q - e).toNat
      let r := (a <<< (p - e).toNat) % d
      if d = 0 then .nan
      else if r = 0 then .finite n 0 0
      else if n = s then .finite n r e
      else .finite s (d - r) e
  | .finite n a p, .infinite s => if a = 0 || n = s then .finite n a p else .infinite s
  | _, _ => .nan

end Binary

/-- The remainder of the floored division of two doubles. -/
def floorMod (x y : Float) : Float :=
  (Binary.remainder (.ofFloat x) (.ofFloat y)).toFloat

end Reckoner
