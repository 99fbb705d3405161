/-!
# Operators and their symbols

The words and signs that join expressions, each with the one spelling that
stands for it. Looking a spelling up is the inverse of `symbol`.
-/

namespace Reckoner

/-- The tables of spellings that a word can be missing from. -/
inductive Table where
  | operator
  | unary
  | comparison
  | logical
  | mode
  deriving DecidableEq

/-- What an entry of the table is called in messages. -/
def Table.entryName : Table → String
  | .operator => "operator"
  | .unary => "unary operator"
  | .comparison => "comparison operator"
  | .logical => "logical operator"
  | .mode => "mode"

/-- A word that is no entry of a table. -/
structure Unknown where
  table : Table
  word : String
  deriving DecidableEq

/-- The wording of a failed search. -/
def Unknown.message (u : Unknown) : String :=
  "Unknown " ++ u.table.entryName ++ ": " ++ u.word

/-- The first of some entries that is spelled that way. -/
def Table.find (table : Table) (entries : List α) (spelling : α → String) (word : String) :
    Except Unknown α :=
  match entries.find? (spelling · = word) with
  | some a => .ok a
  | none => .error ⟨table, word⟩

/-! ### Arithmetic -/

/-- The operations on two numbers. -/
inductive Operator where
  | sum
  | difference
  | product
  | quotient
  | remainder
  | power
  deriving DecidableEq

namespace Operator

/-- The spelling of the operator. -/
def symbol : Operator → String
  | .sum => "+"
  | .difference => "-"
  | .product => "*"
  | .quotient => "/"
  | .remainder => "%"
  | .power => "**"

/-- Every operator once. -/
def all : List Operator := [.sum, .difference, .product, .quotient, .remainder, .power]

/-- The operator that is spelled that way. -/
def ofSymbol : String → Except Unknown Operator := Table.operator.find all symbol

theorem ofSymbol_symbol (o : Operator) : ofSymbol o.symbol = .ok o := by
  cases o <;> rfl

end Operator

/-- A sign in front of a number. -/
inductive Sign where
  | plus
  | minus
  deriving DecidableEq

namespace Sign

/-- The spelling of the sign. -/
def symbol : Sign → String
  | .plus => "+"
  | .minus => "-"

/-- The sign that is spelled that way. -/
def ofSymbol : String → Except Unknown Sign := Table.unary.find [.plus, .minus] symbol

theorem ofSymbol_symbol (s : Sign) : ofSymbol s.symbol = .ok s := by
  cases s <;> rfl

end Sign

/-! ### Truth -/

/-- The comparisons of two values. -/
inductive Comparison where
  | greater
  | less
  | greaterOrEqual
  | lessOrEqual
  | equal
  | notEqual
  deriving DecidableEq

namespace Comparison

/-- The spelling of the comparison. -/
def symbol : Comparison → String
  | .greater => ">"
  | .less => "<"
  | .greaterOrEqual => ">="
  | .lessOrEqual => "<="
  | .equal => "=="
  | .notEqual => "!="

/-- Every comparison once. -/
def all : List Comparison := [.greater, .less, .greaterOrEqual, .lessOrEqual, .equal, .notEqual]

/-- The comparison that is spelled that way. -/
def ofSymbol : String → Except Unknown Comparison := Table.comparison.find all symbol

theorem ofSymbol_symbol (c : Comparison) : ofSymbol c.symbol = .ok c := by
  cases c <;> rfl

end Comparison

/-- The words that join two conditions. -/
inductive Connective where
  | and
  | or
  deriving DecidableEq

namespace Connective

/-- The spelling of the connective. -/
def symbol : Connective → String
  | .and => "and"
  | .or => "or"

/-- The connective that is spelled that way. -/
def ofSymbol : String → Except Unknown Connective := Table.logical.find [.and, .or] symbol

theorem ofSymbol_symbol (c : Connective) : ofSymbol c.symbol = .ok c := by
  cases c <;> rfl

end Connective

end Reckoner
