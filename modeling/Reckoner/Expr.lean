import Reckoner.Operator

/-!
# Expressions

The trees of the whole language. It is wider than what may be evaluated: texts,
lists, comparisons, lambdas and assignments are read so that refusing them is a
decision about trees. The module also holds the depth and the kind of a tree.
-/

namespace Reckoner

/-- An expression as it was written; brackets around it are kept as a `group`. -/
inductive Expr where
  | number (value : Float)
  | text (body : String)
  | name (id : String)
  | list (items : List Expr)
  | binary (op : Operator) (left right : Expr)
  | signed (sign : Sign) (operand : Expr)
  | compare (op : Comparison) (left right : Expr)
  | connect (op : Connective) (left right : Expr)
  | negate (operand : Expr)
  | group (inner : Expr)
  | call (callee : Expr) (args : List Expr) (keywords : List (String × Expr))
  | attribute (base : Expr) (property : String)
  | subscript (base index : Expr)
  | lambda (params : List String) (body : Expr)
  | assign (target : String) (value : Expr)
  deriving Inhabited

namespace Expr

/-! ### Depth -/

mutual

/-- The number of expressions on the longest way from the root down to a leaf. -/
def depth : Expr → Nat
  | .number _ | .text _ | .name _ => 1
  | .list items => depths items + 1
  | .binary _ l r | .compare _ l r | .connect _ l r | .subscript l r => max l.depth r.depth + 1
  | .signed _ e | .negate e | .group e | .attribute e _ | .lambda _ e | .assign _ e => e.depth + 1
  | .call f args keywords => max f.depth (max (depths args) (keywordDepths keywords)) + 1

/-- The greatest depth in a list, zero when it is empty. -/
def depths : List Expr → Nat
  | [] => 0
  | e :: es => max e.depth (depths es)

/-- The greatest depth among named arguments, zero when there are none. -/
def keywordDepths : List (String × Expr) → Nat
  | [] => 0
  | (_, e) :: es => max e.depth (keywordDepths es)

end

theorem depth_pos (e : Expr) : 0 < e.depth := by
  cases e <;> simp [depth]

/-! ### Kind -/

/-- What an expression is, whatever it holds. -/
inductive Kind where
  | number
  | text
  | name
  | list
  | binary
  | signed
  | compare
  | connect
  | negate
  | group
  | call
  | attribute
  | subscript
  | lambda
  | assign
  deriving DecidableEq

/-- What the kind is called in messages. -/
def Kind.label : Kind → String
  | .number => "number"
  | .text => "string literal"
  | .name => "name"
  | .list => "list literal"
  | .binary => "binary operation"
  | .signed => "unary operation"
  | .compare => "comparison"
  | .connect => "boolean operation"
  | .negate => "boolean negation"
  | .group => "group"
  | .call => "function call"
  | .attribute => "attribute access"
  | .subscript => "subscript"
  | .lambda => "lambda"
  | .assign => "assignment"

/-- The kind of the root. -/
def kind : Expr → Kind
  | .number _ => .number
  | .text _ => .text
  | .name _ => .name
  | .list _ => .list
  | .binary .. => .binary
  | .signed .. => .signed
  | .compare .. => .compare
  | .connect .. => .connect
  | .negate _ => .negate
  | .group _ => .group
  | .call .. => .call
  | .attribute .. => .attribute
  | .subscript .. => .subscript
  | .lambda .. => .lambda
  | .assign .. => .assign

end Expr

end Reckoner
