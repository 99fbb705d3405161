import Reckoner.Expr
import Reckoner.Token

/-!
# The grammar

Ten levels of precedence, each reading operands of the next tighter level:

* `or`, `and`, `not`, comparisons, `+ -`, `* / %`, signs, `**`, then calls,
  subscripts and attributes, and at the bottom single pieces and brackets.

All chains lean to the left, but `**` leans to the right and its exponent may have
a sign. The grammar enters itself again at three places only, and `read` counts how
often it may do so inside itself.
-/

namespace Reckoner.Grammar

/-- Reads a piece from the front of the tokens and leaves the rest. -/
abbrev Reader (α : Type) := List Token → Option (α × List Token)

/-- Where the grammar enters itself again: in brackets and behind `:` or `=`, after `not`, and
after `**`. -/
inductive Entry where
  | expression
  | negation
  | factor
  deriving DecidableEq

/-! ### Repetition -/

/-- Extends `left` by operators and operands as long as an operator follows.

The first list is at least as long as the tokens and bounds the rounds. -/
def chain (join? : Token → Option (Expr → Expr → Expr)) (operand : Reader Expr) :
    List Token → Expr → Reader Expr
  | _ :: rounds, left, t :: ts =>
    match join? t with
    | none => some (left, t :: ts)
    | some join =>
      match operand ts with
      | none => none
      | some (right, rest) => chain join? operand rounds (join left right) rest
  | _, left, ts => some (left, ts)

/-- An operand, and further ones behind operators, joined from the left. -/
def leftToRight (join? : Token → Option (Expr → Expr → Expr)) (operand : Reader Expr) :
    Reader Expr := fun ts =>
  match operand ts with
  | none => none
  | some (left, rest) => chain join? operand rest left rest

/-- Items with commas between them up to the closing bracket; a comma may follow the last. -/
def items (close : Symbol) (item : Reader α) : List Token → Reader (List α)
  | rounds, ts =>
    if ts.head? = some (.symbol close) then some ([], ts.tail)
    else
      match rounds, item ts with
      | _ :: rounds, some (a, .symbol s :: rest) =>
        if s = close then some ([a], rest)
        else if s = .comma then (items close item rounds rest).map fun (as, r) => (a :: as, r)
        else none
      | _, _ => none

/-! ### Single pieces -/

/-- The names of a lambda up to the colon. -/
def parameters : Reader (List String)
  | .name p :: .symbol .colon :: ts => some ([p], ts)
  | .name p :: .symbol .comma :: ts => (parameters ts).map fun (ps, r) => (p :: ps, r)
  | _ => none

/-- The names of a lambda, which may have none. -/
def parameters? : Reader (List String)
  | .symbol .colon :: ts => some ([], ts)
  | ts => parameters ts

/-- An argument of a call, by position or by name. -/
inductive Argument where
  | positional (e : Expr)
  | keyword (name : String) (e : Expr)

/-- The arguments by position. -/
def positionals : List Argument → List Expr
  | [] => []
  | .positional e :: as => e :: positionals as
  | .keyword .. :: as => positionals as

/-- The arguments by name. -/
def keywords : List Argument → List (String × Expr)
  | [] => []
  | .positional _ :: as => keywords as
  | .keyword k e :: as => (k, e) :: keywords as

section

variable (again : Entry → Reader Expr)

/-- An argument; a name with an assignment sign behind it names the argument. -/
def argument : Reader Argument
  | .name k :: .symbol .assign :: ts => (again .expression ts).map fun (e, r) => (.keyword k e, r)
  | ts => (again .expression ts).map fun (e, r) => (.positional e, r)

/-- A number, text, name, lambda, bracketed expression or list. -/
def primary : Reader Expr
  | .number n :: ts => some (.number n.value, ts)
  | .text body :: ts => some (.text body, ts)
  | .name id :: ts => some (.name id, ts)
  | .keyword .lambda :: ts =>
    match parameters? ts with
    | none => none
    | some (ps, ts) => (again .expression ts).map fun (e, r) => (.lambda ps e, r)
  | .symbol .openParen :: ts =>
    match again .expression ts with
    | some (e, .symbol .closeParen :: rest) => some (.group e, rest)
    | _ => none
  | .symbol .openBracket :: ts =>
    (items .closeBracket (again .expression) ts ts).map fun (es, r) => (.list es, r)
  | _ => none

/-- Extends `base` by calls, subscripts and attributes as long as one follows. -/
def suffixes : List Token → Expr → Reader Expr
  | _ :: rounds, base, .symbol .openParen :: ts =>
    match items .closeParen (argument again) ts ts with
    | none => none
    | some (as, rest) => suffixes rounds (.call base (positionals as) (keywords as)) rest
  | _ :: rounds, base, .symbol .openBracket :: ts =>
    match again .expression ts with
    | some (i, .symbol .closeBracket :: rest) => suffixes rounds (.subscript base i) rest
    | _ => none
  | _ :: rounds, base, .symbol .dot :: ts =>
    match ts with
    | .name p :: rest => suffixes rounds (.attribute base p) rest
    | _ => none
  | _, base, ts => some (base, ts)

/-- A single piece with its calls, subscripts and attributes. -/
def postfixed : Reader Expr := fun ts =>
  match primary again ts with
  | none => none
  | some (base, rest) => suffixes again rest base rest

/-! ### The levels -/

/-- A postfixed piece, raised to a factor if `**` follows. -/
def power : Reader Expr := fun ts =>
  match postfixed again ts with
  | some (base, .symbol .power :: rest) =>
    (again .factor rest).map fun (e, r) => (.binary .power base e, r)
  | other => other

/-- Signs in front of a power. -/
def factor : Reader Expr
  | .symbol .plus :: ts => (factor ts).map fun (e, r) => (.signed .plus e, r)
  | .symbol .minus :: ts => (factor ts).map fun (e, r) => (.signed .minus e, r)
  | ts => power again ts

/-- The operators between factors. -/
def productOperator? : Token → Option (Expr → Expr → Expr)
  | .symbol .star => some (.binary .product)
  | .symbol .slash => some (.binary .quotient)
  | .symbol .percent => some (.binary .remainder)
  | _ => none

/-- Factors joined by `*`, `/` and `%`. -/
def term : Reader Expr := leftToRight productOperator? (factor again)

/-- The operators between terms. -/
def sumOperator? : Token → Option (Expr → Expr → Expr)
  | .symbol .plus => some (.binary .sum)
  | .symbol .minus => some (.binary .difference)
  | _ => none

/-- Terms joined by `+` and `-`. -/
def sum : Reader Expr := leftToRight sumOperator? (term again)

/-- The comparison signs. -/
def comparisonOperator? : Token → Option (Expr → Expr → Expr)
  | .symbol .greater => some (.compare .greater)
  | .symbol .less => some (.compare .less)
  | .symbol .greaterOrEqual => some (.compare .greaterOrEqual)
  | .symbol .lessOrEqual => some (.compare .lessOrEqual)
  | .symbol .equal => some (.compare .equal)
  | .symbol .notEqual => some (.compare .notEqual)
  | _ => none

/-- Sums joined by comparison signs. -/
def comparison : Reader Expr := leftToRight comparisonOperator? (sum again)

/-- A comparison, or `not` in front of a negation. -/
def negation : Reader Expr
  | .keyword .not :: ts => (again .negation ts).map fun (e, r) => (.negate e, r)
  | ts => comparison again ts

/-- The word between conjuncts. -/
def andOperator? : Token → Option (Expr → Expr → Expr)
  | .keyword .and => some (.connect .and)
  | _ => none

/-- Negations joined by `and`. -/
def conjunction : Reader Expr := leftToRight andOperator? (negation again)

/-- The word between disjuncts. -/
def orOperator? : Token → Option (Expr → Expr → Expr)
  | .keyword .or => some (.connect .or)
  | _ => none

/-- Conjunctions joined by `or`: the loosest level, a whole expression. -/
def expression : Reader Expr := leftToRight orOperator? (conjunction again)

/-- An expression, or a name that an expression is assigned to. -/
def statement : Reader Expr
  | .name x :: .symbol .assign :: ts => (again .expression ts).map fun (e, r) => (.assign x e, r)
  | ts => expression again ts

end

/-! ### The whole grammar -/

/-- Reads at an entry with at most that many entries open at once, this one included. -/
def read : Nat → Entry → Reader Expr
  | 0, _ => fun _ => none
  | n + 1, .expression => expression (read n)
  | n + 1, .negation => negation (read n)
  | n + 1, .factor => factor (read n)

/-- The tree of a statement in which the grammar enters itself at most so deep. -/
def parseWithin (allowance : Nat) (ts : List Token) : Option Expr :=
  match statement (read allowance) ts with
  | some (e, []) => some e
  | _ => none

/-- The tree of a statement. Every entry uses a token up, so their number is enough. -/
def parse? (ts : List Token) : Option Expr := parseWithin ts.length ts

end Reckoner.Grammar
