import Reckoner.Proofs.Grammar.Backtracking

/-!
# What a match leaves behind

The recogniser once more, now with a record of what it matched. Each rule leaves a pair: its
name, the text it matched, and the pairs of the rules inside it. Some rules leave nothing but the
pairs inside them, and brackets, commas, colons and points leave nothing at all. The outcome is
that of the recogniser (`outcome_emit`).
-/

namespace Reckoner.Grammar

/-! ### Pairs -/

/-- The rules that leave a pair. -/
inductive Rule where
  | wholeText
  | endOfText
  | assignment
  | logicalExpression
  | orExpression
  | andExpression
  | notExpression
  | comparisonExpression
  | arithmeticExpression
  | term
  | factor
  | power
  | postfixExpression
  | group
  | list
  | lambda
  | parameters
  | call
  | keywordArgument
  | subscript
  | attribute
  | unaryOperator
  | comparisonOperator
  | number
  | string
  | singleQuoted
  | doubleQuoted
  | identifier
  | andWord
  | orWord
  | notWord
  | lambdaWord
  | assignSign
  | powerSign
  | starSign
  | slashSign
  | percentSign
  | plusSign
  | minusSign
  deriving DecidableEq

/-- What the rule is called in messages. -/
def Rule.name : Rule → String
  | .wholeText => "expression"
  | .endOfText => "EOI"
  | .assignment => "assignment"
  | .logicalExpression => "logical_expression"
  | .orExpression => "or_expression"
  | .andExpression => "and_expression"
  | .notExpression => "not_expression"
  | .comparisonExpression => "comparison_expression"
  | .arithmeticExpression => "arithmetic_expression"
  | .term => "term"
  | .factor => "factor"
  | .power => "power"
  | .postfixExpression => "postfix_expression"
  | .group => "group"
  | .list => "list"
  | .lambda => "lambda"
  | .parameters => "parameters"
  | .call => "call"
  | .keywordArgument => "keyword_argument"
  | .subscript => "subscript"
  | .attribute => "attribute"
  | .unaryOperator => "unary_operator"
  | .comparisonOperator => "comparison_operator"
  | .number => "number"
  | .string => "string"
  | .singleQuoted => "single_quoted"
  | .doubleQuoted => "double_quoted"
  | .identifier => "identifier"
  | .andWord => "AND"
  | .orWord => "OR"
  | .notWord => "NOT"
  | .lambdaWord => "LAMBDA"
  | .assignSign => "ASSIGN"
  | .powerSign => "POW"
  | .starSign => "STAR"
  | .slashSign => "SLASH"
  | .percentSign => "MOD"
  | .plusSign => "PLUS"
  | .minusSign => "MINUS"

/-- A rule, the text it matched from its first token to its last, and the pairs of the rules
inside it. -/
structure Pair where
  rule : Rule
  text : String
  inner : List Pair

/-- The rule of a keyword. -/
def Rule.ofKeyword : Keyword → Rule
  | .and => .andWord
  | .or => .orWord
  | .not => .notWord
  | .lambda => .lambdaWord

/-- The rule of a sign, if it leaves a pair. -/
def Rule.ofSymbol? : Symbol → Option Rule
  | .plus => some .plusSign
  | .minus => some .minusSign
  | .star => some .starSign
  | .slash => some .slashSign
  | .percent => some .percentSign
  | .power => some .powerSign
  | .assign => some .assignSign
  | .greater | .less | .greaterOrEqual | .lessOrEqual | .equal | .notEqual =>
      some .comparisonOperator
  | .comma | .colon | .dot | .openParen | .closeParen | .openBracket | .closeBracket => none

/-- The pairs of a token with that spelling; a quoted text holds its body. -/
def Terminal.pairs (spelling : List Char) : Terminal → List Pair
  | .number => [⟨.number, .ofList spelling, []⟩]
  | .text =>
      let quoted := if spelling.head? = some '\'' then Rule.singleQuoted else .doubleQuoted
      [⟨.string, .ofList spelling, [⟨quoted, .ofList spelling.tail.dropLast, []⟩]⟩]
  | .name => [⟨.identifier, .ofList spelling, []⟩]
  | .keyword k => [⟨.ofKeyword k, .ofList spelling, []⟩]
  | .symbol s => (Rule.ofSymbol? s).toList.map (⟨·, .ofList spelling, []⟩)

/-! ### Schemes -/

/-- A parsing expression in which some parts are rules that leave a pair. -/
inductive Scheme where
  | terminal (u : Terminal)
  | notBefore (c : Char)
  | sequence (p q : Scheme)
  | choice (p q : Scheme)
  | optional (p : Scheme)
  | repeated (p : Scheme)
  | again (k : Entry)
  | rule (r : Rule) (p : Scheme)

/-- How a rule ends, with the pairs of what it matched. -/
inductive Emission where
  | matched (rest : List Char) (pairs : List Pair)
  | failed
  | exhausted

/-- The outcome without the pairs. -/
def Emission.outcome : Emission → Outcome
  | .matched rest _ => .matched rest
  | .failed => .failed
  | .exhausted => .exhausted

/-- Puts pairs in front of those of a match. -/
def Emission.behind (ps : List Pair) : Emission → Emission
  | .matched rest qs => .matched rest (ps ++ qs)
  | o => o

/-- A rule at work on a text that writes down what it matches. -/
abbrev Emitter := List Char → Emission

/-- What stands between two places of a text, without the blanks in front. -/
def stretch (cs rest : List Char) : String :=
  let sp := cs.dropWhile Token.isBlank
  .ofList (sp.take (sp.length - rest.length))

/-- The token behind the blanks and its pairs, if it is one that is asked for. -/
def Terminal.emit (u : Terminal) : Emitter := fun cs =>
  match Token.read? (cs.dropWhile Token.isBlank) with
  | some (t, rest) =>
    if u.accepts t then .matched rest (u.pairs (stretch cs rest).toList) else .failed
  | none => .failed

/-- Goes on as long as there is a match that uses up characters. -/
def emitWhile (r : Emitter) (cs : List Char) : Emission :=
  match r cs with
  | .matched rest ps =>
    if rest.length < cs.length then (emitWhile r rest).behind ps else .matched rest ps
  | .failed => .matched cs []
  | .exhausted => .exhausted
termination_by cs.length

namespace Scheme

/-- The parsing expression without the names of rules. -/
def pattern : Scheme → Pattern
  | .terminal u => .terminal u
  | .notBefore c => .notBefore c
  | .sequence p q => .sequence p.pattern q.pattern
  | .choice p q => .choice p.pattern q.pattern
  | .optional p => .optional p.pattern
  | .repeated p => .repeated p.pattern
  | .again k => .again k
  | .rule _ p => p.pattern

/-- A scheme at work, given what the rules do when they are entered again. -/
def run (enter : Entry → Emitter) : Scheme → Emitter
  | .terminal u, cs => u.emit cs
  | .notBefore c, cs => if cs.head? = some c then .failed else .matched cs []
  | .sequence p q, cs =>
    match p.run enter cs with
    | .matched rest ps => (q.run enter rest).behind ps
    | o => o
  | .choice p q, cs =>
    match p.run enter cs with
    | .failed => q.run enter cs
    | o => o
  | .optional p, cs =>
    match p.run enter cs with
    | .failed => .matched cs []
    | o => o
  | .repeated p, cs => emitWhile (p.run enter) cs
  | .again k, cs => enter k cs
  | .rule r p, cs =>
    match p.run enter cs with
    | .matched rest ps => .matched rest [⟨r, stretch cs rest, ps⟩]
    | o => o

/-! ### The rules -/

/-- A sign. -/
def symbol (s : Symbol) : Scheme := terminal (.symbol s)

/-- A keyword. -/
def keyword (k : Keyword) : Scheme := terminal (.keyword k)

/-- Something between brackets. -/
def bracketed (o : Symbol) (inner : Scheme) (close : Symbol) : Scheme :=
  sequence (symbol o) (sequence inner (symbol close))

/-- One item or more with commas between them. -/
def commaSeparated (item : Scheme) : Scheme :=
  sequence item (repeated (sequence (symbol .comma) item))

/-- Items between brackets; a comma may follow the last. -/
def enclosedItems (o : Symbol) (item : Scheme) (close : Symbol) : Scheme :=
  bracketed o (optional (sequence (commaSeparated item) (optional (symbol .comma)))) close

/-- A name with a value behind an assignment sign, by either of two rules. -/
def labelled (r : Rule) : Scheme :=
  rule r (sequence (terminal .name) (sequence (symbol .assign) (again .expression)))

/-- A lambda. -/
def lambda : Scheme :=
  rule .lambda (sequence (keyword .lambda)
    (sequence (sequence (optional (rule .parameters (commaSeparated (terminal .name))))
      (symbol .colon)) (again .expression)))

/-- A bracketed expression. -/
def group : Scheme := rule .group (bracketed .openParen (again .expression) .closeParen)

/-- A list. -/
def list : Scheme := rule .list (enclosedItems .openBracket (again .expression) .closeBracket)

/-- A number, text, lambda, list, bracketed expression or name. -/
def primary : Scheme :=
  choice (terminal .number) (choice (terminal .text) (choice lambda (choice list
    (choice group (terminal .name)))))

/-- An argument of a call. -/
def argument : Scheme := choice (labelled .keywordArgument) (again .expression)

/-- A call. -/
def call : Scheme := rule .call (enclosedItems .openParen argument .closeParen)

/-- A subscript. -/
def subscript : Scheme :=
  rule .subscript (bracketed .openBracket (again .expression) .closeBracket)

/-- An attribute. -/
def property : Scheme := rule .attribute (sequence (symbol .dot) (terminal .name))

/-- A call, a subscript or an attribute behind a base. -/
def suffix : Scheme := choice call (choice subscript property)

/-- A single piece with its calls, subscripts and attributes. -/
def postfixed : Scheme := rule .postfixExpression (sequence primary (repeated suffix))

/-- The exponent behind a base. -/
def exponent : Scheme := sequence (symbol .power) (again .factor)

/-- A postfixed piece, raised to a factor if `**` follows. -/
def power : Scheme := rule .power (sequence postfixed (optional exponent))

/-- A plus or a minus. -/
def sign : Scheme := choice (symbol .plus) (symbol .minus)

/-- Signs in front of a power. -/
def factor : Scheme := rule .factor (sequence (repeated (rule .unaryOperator sign)) power)

/-- Operands with operators between them. -/
def chain (r : Rule) (operand operator : Scheme) : Scheme :=
  rule r (sequence operand (repeated (sequence operator operand)))

/-- The operators between factors; a slash does not stand before another one. -/
def productOperator : Scheme :=
  choice (symbol .star) (choice (sequence (symbol .slash) (notBefore '/')) (symbol .percent))

/-- Factors joined by `*`, `/` and `%`. -/
def term : Scheme := chain .term factor productOperator

/-- Terms joined by `+` and `-`. -/
def sum : Scheme := chain .arithmeticExpression term sign

/-- The comparison signs, the longer ones first. -/
def comparisonOperator : Scheme :=
  choice (symbol .equal) (choice (symbol .notEqual) (choice (symbol .lessOrEqual)
    (choice (symbol .greaterOrEqual) (choice (symbol .less) (symbol .greater)))))

/-- Sums joined by comparison signs. -/
def comparison : Scheme := chain .comparisonExpression sum comparisonOperator

/-- A comparison, or `not` in front of a negation. -/
def negation : Scheme :=
  rule .notExpression (choice (sequence (keyword .not) (again .negation)) comparison)

/-- Negations joined by `and`. -/
def conjunction : Scheme := chain .andExpression negation (keyword .and)

/-- Conjunctions joined by `or`. -/
def disjunction : Scheme := chain .orExpression conjunction (keyword .or)

/-- A whole expression. -/
def expression : Scheme := rule .logicalExpression disjunction

/-- An assignment or an expression. -/
def statement : Scheme := choice (labelled .assignment) expression

end Scheme

/-- The rule that is entered. -/
def Entry.scheme : Entry → Scheme
  | .expression => .expression
  | .negation => .negation
  | .factor => .factor

/-- A rule that is entered again, with at most that many rules open at once, this one included. -/
def emit : Nat → Entry → Emitter
  | 0, _ => fun _ => .exhausted
  | n + 1, k => k.scheme.run (emit n)

/-- The pairs of a whole text, if it is a statement: one for the text, with those of the statement
and of its end inside. The rules that are entered again are never more than the characters. -/
def pairs? (cs : List Char) : Option (List Pair) :=
  match Scheme.statement.run (emit (cs.length + 1)) cs with
  | .matched rest ps =>
    if rest.all Token.isBlank then some [⟨.wholeText, .ofList cs, ps ++ [⟨.endOfText, "", []⟩]⟩]
    else none
  | _ => none

theorem Emission.behind_behind (ps qs : List Pair) (o : Emission) :
    (o.behind qs).behind ps = o.behind (ps ++ qs) := by
  cases o <;> simp [behind]

/-! ### The same outcome -/

@[simp] theorem Emission.outcome_behind (ps : List Pair) (o : Emission) :
    (o.behind ps).outcome = o.outcome := by
  cases o <;> rfl

theorem Terminal.outcome_emit (u : Terminal) (cs : List Char) :
    (u.emit cs).outcome = u.run cs := by
  unfold emit run
  cases Token.read? (cs.dropWhile Token.isBlank) with
  | none => rfl
  | some read =>
    dsimp only
    split <;> rfl

theorem outcome_emitWhile {r : Emitter} {r' : Recognizer} (h : ∀ cs, (r cs).outcome = r' cs)
    (cs : List Char) : (emitWhile r cs).outcome = repeatWhile r' cs := by
  fun_induction emitWhile r cs with
  | case1 cs rest ps hr hshorter ih =>
    have hr' : r' cs = .matched rest := by rw [← h, hr, Emission.outcome]
    rw [repeatWhile_of_matched hr' hshorter, Emission.outcome_behind, ih]
  | case2 cs rest ps hr hshorter =>
    have hr' : r' cs = .matched rest := by rw [← h, hr, Emission.outcome]
    rw [repeatWhile_of_not_lt hr' hshorter, Emission.outcome]
  | case3 cs hr =>
    have hr' : r' cs = .failed := by rw [← h, hr, Emission.outcome]
    rw [repeatWhile_of_failed hr', Emission.outcome]
  | case4 cs hr =>
    have hr' : r' cs = .exhausted := by rw [← h, hr, Emission.outcome]
    rw [repeatWhile_of_exhausted hr', Emission.outcome]

theorem Scheme.outcome_run {e : Entry → Emitter} {e' : Entry → Recognizer}
    (h : ∀ k cs, (e k cs).outcome = e' k cs) (p : Scheme) (cs : List Char) :
    (p.run e cs).outcome = p.pattern.run e' cs := by
  induction p generalizing cs with
  | terminal u => exact u.outcome_emit cs
  | notBefore c =>
    rw [run, pattern, Pattern.run_notBefore]
    split <;> rfl
  | sequence p q ihp ihq =>
    rw [run, pattern, Pattern.run_sequence, ← ihp]
    cases p.run e cs with
    | matched rest ps => exact (Emission.outcome_behind ps _).trans (ihq rest)
    | failed | exhausted => rfl
  | choice p q ihp ihq =>
    rw [run, pattern, Pattern.run_choice, ← ihp]
    cases p.run e cs with
    | failed => exact ihq cs
    | matched | exhausted => rfl
  | optional p ihp =>
    rw [run, pattern, Pattern.run_optional, ← ihp]
    cases p.run e cs <;> rfl
  | repeated p ihp => exact outcome_emitWhile ihp cs
  | again k => exact h k cs
  | rule r p ihp =>
    rw [run, pattern, ← ihp]
    cases p.run e cs <;> rfl

theorem Entry.pattern_scheme (k : Entry) : k.scheme.pattern = k.pattern := by
  cases k <;> rfl

theorem Scheme.pattern_statement : statement.pattern = .statement := rfl

/-- A rule that is entered ends as it does without its pairs. -/
theorem outcome_emit (n : Nat) (k : Entry) (cs : List Char) :
    (emit n k cs).outcome = enter n k cs := by
  induction n generalizing k cs with
  | zero => rfl
  | succ n ih => rw [emit, enter, Scheme.outcome_run ih, k.pattern_scheme]

end Reckoner.Grammar
