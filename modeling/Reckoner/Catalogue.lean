/-!
# The names that may be used

Two constants and six functions of one argument are all that an expression can
refer to, bare or behind the one prefix `math.`.
-/

namespace Reckoner

/-- The prefix that may stand before a name, joined to it by a point. -/
def mathNamespace : String := "math"

/-- The constants. -/
inductive Constant where
  | pi
  | e
  deriving DecidableEq

namespace Constant

/-- The name of the constant. -/
def name : Constant → String
  | .pi => "pi"
  | .e => "e"

/-- The double nearest to the constant. -/
def value : Constant → Float
  | .pi => 3.141592653589793
  | .e => 2.718281828459045

/-- Every constant once. -/
def all : List Constant := [.pi, .e]

/-- The constant of that name, if there is one. -/
def ofName? (s : String) : Option Constant := all.find? (name · = s)

theorem ofName?_name (c : Constant) : ofName? c.name = some c := by
  cases c <;> rfl

end Constant

/-- The functions, each of one number. -/
inductive Elementary where
  | sqrt
  | sin
  | cos
  | tan
  | log
  | log10
  deriving DecidableEq

namespace Elementary

/-- The name of the function. -/
def name : Elementary → String
  | .sqrt => "sqrt"
  | .sin => "sin"
  | .cos => "cos"
  | .tan => "tan"
  | .log => "log"
  | .log10 => "log10"

/-- Every function once. -/
def all : List Elementary := [.sqrt, .sin, .cos, .tan, .log, .log10]

/-- The function of that name, if there is one. -/
def ofName? (s : String) : Option Elementary := all.find? (name · = s)

theorem ofName?_name (f : Elementary) : ofName? f.name = some f := by
  cases f <;> rfl

end Elementary

end Reckoner
