/-!
# What a double stands for

A double is an exact multiple of a power of two with a sign, an infinity, or no
number at all. `Binary.ofFloat` takes a double apart and `Binary.toFloat` rounds
an exact multiple to the nearest double, a tie going to the even neighbour.
-/

namespace Reckoner

open Float.Model (UnpackedFloat Format)

/-- A finite number is `significand * 2 ^ exponent` with its sign, which zero has too. -/
inductive Binary where
  | nan
  | infinite (negative : Bool)
  | finite (negative : Bool) (significand : Nat) (exponent : Int)
  deriving DecidableEq

namespace Binary

/-- Whether a sign bit says that the number is negative. -/
def isNegative : UnpackedFloat.Sign → Bool
  | .negative => true
  | .positive => false

/-- The sign bit of a number that is or is not negative. -/
def signBit (negative : Bool) : UnpackedFloat.Sign :=
  if negative then .negative else .positive

@[simp] theorem isNegative_signBit (negative : Bool) :
    isNegative (signBit negative) = negative := by
  cases negative <;> rfl

@[simp] theorem signBit_isNegative (s : UnpackedFloat.Sign) : signBit (isNegative s) = s := by
  cases s <;> rfl

/-- The exact meaning of a double. -/
def ofFloat (x : Float) : Binary :=
  match x.toModel.unpack with
  | .notANumber => .nan
  | .infinity s => .infinite (isNegative s)
  | .zero s => .finite (isNegative s) 0 0
  | .finite s m e _ => .finite (isNegative s) m e

/-- The double nearest to an exact number; beyond the largest one, an infinity. -/
def toFloat : Binary → Float
  | .nan => .ofModel (.pack .notANumber)
  | .infinite n => .ofModel (.pack (.infinity (signBit n)))
  | .finite n m e =>
      .ofModel (.pack (if m = 0 then .zero (signBit n) else .round .binary64 (signBit n) m e))

end Binary

end Reckoner
