import Reckoner.Operator

/-!
# Limits and modes

How long and how deeply nested an expression may be, and whether the basic mode
may call functions. The two modes differ in nothing else.
-/

namespace Reckoner

/-- The deepest tree that is read when nothing else is asked for. -/
def standardDepth : Nat := 100

/-- What a calculator accepts. -/
structure Policy where
  /-- The most characters in an expression. -/
  maxLength : Nat := 1024
  /-- The most levels in an expression. -/
  maxDepth : Nat := standardDepth
  /-- Whether the basic mode refuses every call. -/
  strictBasic : Bool := false
  deriving DecidableEq, Inhabited

/-- The way of calculating that the user asks for. -/
inductive Mode where
  | basic
  | advanced
  deriving DecidableEq, Inhabited

namespace Mode

/-- The name that users ask for the mode by. -/
def name : Mode → String
  | .basic => "basic"
  | .advanced => "advanced"

/-- The mode of that name. -/
def ofName : String → Except Unknown Mode := Table.mode.find [.basic, .advanced] name

theorem ofName_name (m : Mode) : ofName m.name = .ok m := by
  cases m <;> rfl

/-- How the mode is written in messages. -/
def label : Mode → String
  | .basic => "Basic"
  | .advanced => "Advanced"

end Mode

/-- Whether a mode refuses every call under a policy. -/
def Policy.forbidsCalls (p : Policy) (m : Mode) : Bool :=
  m = .basic && p.strictBasic

end Reckoner
