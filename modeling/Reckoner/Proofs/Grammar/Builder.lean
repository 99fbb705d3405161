import Reckoner.Proofs.Grammar.Pairs

/-!
# Trees from pairs

The builder makes the tree of a pair from the pairs inside it. It expects the pairs that the
rules leave and reports what else it finds (`Flaw`): a pair that is missing, a rule in a place
where it does not belong, a word that is no operator, a text that is no number. Only the last
report, that a number is too large, is about the text and not about the rules.
-/

namespace Reckoner.Grammar

/-! ### Numbers -/

/-- Why a text is no number. -/
inductive NumberFault where
  | empty
  | invalid
  deriving DecidableEq

/-- What is wrong with the text. -/
def NumberFault.message : NumberFault → String
  | .empty => "cannot parse float from empty string"
  | .invalid => "invalid float literal"

/-- The double that a text names: a literal, an infinity or no number, with or without a sign. -/
def readFloat (cs : List Char) : Except NumberFault Float :=
  if cs = [] then .error .empty
  else
    let (sign, body) := Exponent.readSign cs
    let negative := sign = some '-'
    let word := String.ofList (body.map Char.toLower)
    if word = "inf" ∨ word = "infinity" then .ok (Binary.toFloat (.infinite negative))
    else if word = "nan" then .ok (Binary.toFloat .nan)
    else
      match Numeral.read? body with
      | some (n, []) => .ok (if negative then -n.value else n.value)
      | _ => .error .invalid

/-! ### Flaws -/

/-- What the builder reports. -/
inductive Flaw where
  /-- There is no pair where this one is expected. -/
  | expected (what : String)
  /-- The rule does not belong in that place. -/
  | unexpected (place : String) (rule : Rule)
  /-- The word is no operator. -/
  | unknown (u : Unknown)
  /-- The text is no number. -/
  | invalidNumber (text : String) (reason : NumberFault)
  /-- The number is beyond the largest double. -/
  | large (text : String)
  /-- There is no pair at all. -/
  | nothing

/-- The wording of the report. -/
def Flaw.message : Flaw → String
  | .expected what => "Expected " ++ what
  | .unexpected place rule => "Unexpected " ++ place ++ ": " ++ rule.name
  | .unknown u => u.message
  | .invalidNumber text reason => "Invalid number '" ++ text ++ "': " ++ reason.message
  | .large text => "Numeric literal out of range: " ++ text
  | .nothing => "Failed to parse expression"

/-- The number that a text names, which has to be finite. -/
def readNumber (text : String) : Except Flaw Float :=
  match readFloat text.toList with
  | .error reason => .error (.invalidNumber text reason)
  | .ok x => if x.isFinite then .ok x else .error (.large text)

/-! ### Builders -/

/-- The levels whose operators join from the left. -/
inductive Chain where
  | disjunction
  | conjunction
  | comparison
  | sum
  | term

/-- The builders of a tree from a pair. -/
inductive Builder where
  | logical
  | chain (c : Chain)
  | negation
  | factor
  | power
  | postfixed
  | primary

/-- The builder of the operands. -/
def Chain.operand : Chain → Builder
  | .disjunction => .chain .conjunction
  | .conjunction => .negation
  | .comparison => .chain .sum
  | .sum => .chain .term
  | .term => .factor

/-- What the operator of that spelling makes of two operands. -/
def Chain.join (word : String) : Chain → Except Flaw (Expr → Expr → Expr)
  | .disjunction | .conjunction =>
      ((Connective.ofSymbol word).map Expr.connect).mapError .unknown
  | .comparison => ((Comparison.ofSymbol word).map Expr.compare).mapError .unknown
  | .sum | .term => ((Operator.ofSymbol word).map Expr.binary).mapError .unknown

mutual

/-- The tree of a pair. -/
def build : Builder → Pair → Except Flaw Expr
  | .logical, ⟨_, _, inner⟩ =>
    match inner with
    | [] => .error (.expected "expression")
    | p :: _ => build (.chain .disjunction) p
  | .chain c, ⟨_, _, inner⟩ =>
    match inner with
    | [] => .error (.expected "operand")
    | p :: ps => (build c.operand p).bind fun left => buildChain c left ps
  | .negation, ⟨_, _, inner⟩ =>
    match inner with
    | [] => .error (.expected "operand")
    | p :: ps =>
      if p.rule = .notWord then
        match ps with
        | [] => .error (.expected "negated operand")
        | q :: _ => (build .negation q).map .negate
      else build (.chain .comparison) p
  | .factor, ⟨_, _, inner⟩ => buildFactor [] none inner
  | .power, ⟨_, _, inner⟩ =>
    match inner with
    | [] => .error (.expected "operand")
    | p :: ps =>
      (build .postfixed p).bind fun base =>
        match ps with
        | [] => .ok base
        | operator :: qs =>
          if operator.rule = .powerSign then
            match qs with
            | [] => .error (.expected "exponent")
            | q :: _ => (build .factor q).map (.binary .power base)
          else .error (.unexpected "power operator" operator.rule)
  | .postfixed, ⟨_, _, inner⟩ =>
    match inner with
    | [] => .error (.expected "primary expression")
    | p :: ps => (build .primary p).bind fun base => buildSuffixes base ps
  | .primary, ⟨rule, text, inner⟩ =>
    match rule with
    | .number => (readNumber text).map .number
    | .string =>
      match inner with
      | [] => .error (.expected "string body")
      | p :: _ => .ok (.text p.text)
    | .identifier => .ok (.name text)
    | .group =>
      match inner with
      | [] => .error (.expected "grouped expression")
      | p :: _ => (build .logical p).map .group
    | .list => (buildItems inner).map .list
    | .lambda => buildLambda [] none inner
    | other => .error (.unexpected "rule in primary expression" other)

/-- Extends a tree by operators and operands. -/
def buildChain (c : Chain) (left : Expr) : List Pair → Except Flaw Expr
  | [] => .ok left
  | operator :: ps =>
    (c.join operator.text).bind fun join =>
      match ps with
      | [] => .error (.expected "right operand")
      | p :: rest => (build c.operand p).bind fun right => buildChain c (join left right) rest

/-- Signs and their operand. -/
def buildFactor (signs : List Sign) (operand : Option Expr) : List Pair → Except Flaw Expr
  | [] =>
    match operand with
    | none => .error (.expected "an operand after unary operators")
    | some e => .ok (signs.foldr .signed e)
  | p :: ps =>
    match p.rule with
    | .unaryOperator =>
      ((Sign.ofSymbol p.text).mapError .unknown).bind fun s => buildFactor (signs ++ [s]) operand ps
    | .power => (build .power p).bind fun e => buildFactor signs (some e) ps
    | other => .error (.unexpected "rule in factor" other)

/-- Extends a tree by calls, subscripts and attributes. -/
def buildSuffixes (base : Expr) : List Pair → Except Flaw Expr
  | [] => .ok base
  | ⟨rule, _, inner⟩ :: ps =>
    match rule with
    | .call => (buildArguments inner).bind fun as =>
      buildSuffixes (.call base (positionals as) (keywords as)) ps
    | .subscript =>
      match inner with
      | [] => .error (.expected "index")
      | p :: _ => (build .logical p).bind fun i => buildSuffixes (.subscript base i) ps
    | .attribute =>
      match inner with
      | [] => .error (.expected "attribute name")
      | p :: _ => buildSuffixes (.attribute base p.text) ps
    | other => .error (.unexpected "postfix rule" other)

/-- The items of a list. -/
def buildItems : List Pair → Except Flaw (List Expr)
  | [] => .ok []
  | p :: ps => (build .logical p).bind fun e => (buildItems ps).map (e :: ·)

/-- The arguments of a call, by position and by name. -/
def buildArguments : List Pair → Except Flaw (List Argument)
  | [] => .ok []
  | p :: ps =>
    match p.rule with
    | .logicalExpression =>
      (build .logical p).bind fun e => (buildArguments ps).map (.positional e :: ·)
    | .keywordArgument =>
      match p with
      | ⟨_, _, []⟩ => .error (.expected "keyword")
      | ⟨_, _, [_]⟩ => .error (.expected "=")
      | ⟨_, _, [_, _]⟩ => .error (.expected "keyword value")
      | ⟨_, _, name :: _ :: value :: _⟩ =>
        (build .logical value).bind fun e => (buildArguments ps).map (.keyword name.text e :: ·)
    | other => .error (.unexpected "rule in call arguments" other)

/-- The parameters and the body of a lambda. -/
def buildLambda (params : List String) (body : Option Expr) : List Pair → Except Flaw Expr
  | [] =>
    match body with
    | none => .error (.expected "a lambda body")
    | some e => .ok (.lambda params e)
  | p :: ps =>
    match p.rule with
    | .lambdaWord => buildLambda params body ps
    | .parameters => buildLambda (p.inner.map Pair.text) body ps
    | .logicalExpression => (build .logical p).bind fun e => buildLambda params (some e) ps
    | other => .error (.unexpected "rule in lambda" other)

end

/-- The tree of an assignment. -/
def buildAssignment (p : Pair) : Except Flaw Expr :=
  match p.inner with
  | [] => .error (.expected "assignment target")
  | [_] => .error (.expected "=")
  | [_, _] => .error (.expected "assigned value")
  | target :: _ :: value :: _ => (build .logical value).map (.assign target.text)

/-- The tree of a whole text. -/
def buildStatement (p : Pair) : Except Flaw Expr :=
  match p.inner with
  | [] => .error (.expected "statement")
  | q :: _ =>
    match q.rule with
    | .assignment => buildAssignment q
    | .logicalExpression => build .logical q
    | other => .error (.unexpected "rule in statement" other)

/-- The tree of the pairs of a whole text. -/
def buildAll : List Pair → Except Flaw Expr
  | [] => .error .nothing
  | p :: _ => buildStatement p

end Reckoner.Grammar
