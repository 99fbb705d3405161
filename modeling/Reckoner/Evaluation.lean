import Reckoner.Arithmetic
import Reckoner.Expr.Reading

/-!
# Evaluation

An expression has a value when it is made of finite numbers, catalogued names,
arithmetic, groups and calls of catalogued functions with one argument. Every other
construct is refused before anything inside it is looked at.
-/

namespace Reckoner

/-- The constant of that name. -/
def Constant.ofName (id : String) : Except Refusal Constant :=
  match Constant.ofName? id with
  | some c => .ok c
  | none => .error (.unknownName id)

/-- The function of that name. -/
def Elementary.ofName (id : String) : Except Refusal Elementary :=
  match Elementary.ofName? id with
  | some f => .ok f
  | none => .error (.unknownName id)

namespace Expr

/-- The name that an expression stands for: a bare name, or one behind a single `math.`. -/
def resolveName : Expr → Except Refusal String
  | .name id => .ok id
  | .attribute (.name ns) p =>
    if ns = mathNamespace then .ok p else .error (.forbidden (.attribute p))
  | .attribute _ p => .error (.forbidden (.attribute p))
  | e => .error (.forbidden (.asName e.kind))

/-- The constant that an expression names. -/
def resolveConstant (e : Expr) : Except Refusal Constant := e.resolveName.bind Constant.ofName

/-- The function that an expression names. -/
def resolveFunction (e : Expr) : Except Refusal Elementary := e.resolveName.bind Elementary.ofName

/-- The value of an expression: operands from left to right, the first refusal wins.

A call is refused for its name before its arguments are counted, and for their
number before any of them is evaluated. -/
def evaluate (p : Policy) (m : Mode) : Expr → Except Refusal Float
  | .number x => if x.isFinite then .ok x else .error (.undefined (.literal x))
  | .binary op l r => do
    let x ← l.evaluate p m
    let y ← r.evaluate p m
    op.apply x y
  | .signed s e => do
    let x ← e.evaluate p m
    return s.apply x
  | .group e => e.evaluate p m
  | .name id => return (← (Expr.name id).resolveConstant).value
  | .attribute base property => return (← (Expr.attribute base property).resolveConstant).value
  | .call callee args keywords =>
    if p.forbidsCalls m then .error (.forbidden .basicCall)
    else do
      let f ← callee.resolveFunction
      match args, keywords with
      | [arg], [] => do
        let x ← arg.evaluate p m
        f.apply x
      | _, _ => .error (.arity f args.length)
  | e => .error (.forbidden (.construct e.kind))

end Expr

/-- The value of a text under a policy. -/
def Policy.evaluate (p : Policy) (m : Mode) (text : String) : Except Refusal Float :=
  (p.parse text).bind (Expr.evaluate p m)

end Reckoner
