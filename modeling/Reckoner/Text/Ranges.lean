/-!
# Sets of characters

A property of characters is written as the increasing list of code points at which
it changes, beginning with a code point that has it. The properties are those of
Unicode 17.0.
-/

namespace Reckoner.Text

/-- Whether the property that changes at these code points holds of a character. -/
def hasProperty (changes : List Nat) (c : Char) : Bool :=
  (changes.takeWhile (· ≤ c.toNat)).length % 2 = 1

end Reckoner.Text
