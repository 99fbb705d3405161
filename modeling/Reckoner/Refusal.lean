import Reckoner.Catalogue
import Reckoner.Expr
import Reckoner.Number.Shortest

/-!
# Why an expression has no value

Every way a calculation can fail, as its cause. The wording is given by `message`
alone, and `category` sorts the causes into six classes.
-/

namespace Reckoner

/-- Why a text cannot be read as an expression. -/
inductive Fault where
  /-- There is nothing but white space. -/
  | empty
  /-- The text has more characters than the limit. -/
  | long (length limit : Nat)
  /-- The brackets and operators could make a tree deeper than the limit. -/
  | nested (limit : Nat)
  /-- The tree itself is deeper than the limit. -/
  | deep (depth limit : Nat)
  /-- The grammar has no such expression. -/
  | malformed
  /-- A number literal is beyond the largest double. -/
  | large (spelling : String)
  deriving DecidableEq

/-- What is wrong with the text.

Where the grammar has no such expression, a report of the place and of what could have stood there
is left out: the wording ends before it, with the two words that introduce it. -/
def Fault.message : Fault → String
  | .empty => "empty expression"
  | .long n limit =>
      "expression is " ++ toString n ++ " characters long, limit is " ++ toString limit
  | .nested limit => "expression nested too deeply (limit is " ++ toString limit ++ " levels)"
  | .deep d limit =>
      "expression nested too deeply (" ++ toString d ++ " levels, limit is "
        ++ toString limit ++ ")"
  | .malformed => "Parse error"
  | .large spelling => "Numeric literal out of range: " ++ spelling

/-- Where a number leaves the finite doubles. -/
inductive Undefined where
  /-- A leaf of the tree is no finite number. -/
  | literal (x : Float)
  /-- The operation has no result for these numbers. -/
  | operation (op : Operator) (x y : Float)
  /-- The result is beyond the largest double. -/
  | overflow (op : Operator) (x y : Float)
  /-- The function is not defined there. -/
  | argument (f : Elementary) (x : Float)

/-- Which step left the finite doubles, and with which numbers. -/
def Undefined.message : Undefined → String
  | .literal x => "non-finite literal " ++ numberText x
  | .operation op x y =>
      numberText x ++ " " ++ op.symbol ++ " " ++ numberText y ++ " is undefined"
  | .overflow op x y =>
      "numerical result out of range: " ++ numberText x ++ " " ++ op.symbol ++ " " ++ numberText y
  | .argument f x => f.name ++ "(" ++ numberText x ++ ") is undefined"

/-- A construct that is never evaluated. -/
inductive Forbidden where
  /-- Calls are not open to the basic mode. -/
  | basicCall
  /-- Only the namespace has attributes. -/
  | attribute (property : String)
  /-- Expressions of this kind have no value. -/
  | construct (kind : Expr.Kind)
  /-- Expressions of this kind name nothing. -/
  | asName (kind : Expr.Kind)
  deriving DecidableEq

/-- What is not allowed. -/
def Forbidden.message : Forbidden → String
  | .basicCall => "function calls are not allowed in basic mode"
  | .attribute p => "attribute access `." ++ p ++ "` is not allowed"
  | .construct k => k.label ++ " is not allowed"
  | .asName k => k.label ++ " cannot be used as a name"

/-- Why an expression has no value. -/
inductive Refusal where
  /-- The text is no expression. -/
  | unreadable (text : String) (fault : Fault)
  /-- The name is not in the catalogue. -/
  | unknownName (name : String)
  /-- The function was not given exactly one positional argument. -/
  | arity (f : Elementary) (given : Nat)
  | divisionByZero
  | undefined (cause : Undefined)
  | forbidden (construct : Forbidden)

namespace Refusal

/-- The class of the refusal. -/
def category : Refusal → String
  | .unreadable .. => "syntax"
  | .unknownName _ => "name"
  | .arity .. => "arity"
  | .divisionByZero => "division-by-zero"
  | .undefined _ => "domain"
  | .forbidden _ => "security"

/-- The whole wording of the refusal. -/
def message : Refusal → String
  | .unreadable text fault => "syntax error in `" ++ text ++ "`: " ++ fault.message
  | .unknownName name => "name not allowed: " ++ name
  | .arity f n =>
      f.name ++ "() takes exactly one positional argument (" ++ toString n ++ " given)"
  | .divisionByZero => "division by zero"
  | .undefined cause => "math domain error: " ++ cause.message
  | .forbidden c => "disallowed construct: " ++ c.message

end Refusal

end Reckoner
