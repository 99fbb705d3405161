import Reckoner.Grammar
import Reckoner.Proofs.Expr.Shape

/-!
# Writing expressions

`Writes ts e` says that the tokens `ts` write the tree `e`, part by part and in order.
It leaves open how a number is spelled, whether a comma follows the last item of a list
or call, and how the arguments with and without names are interleaved; it knows no
precedence.
-/

namespace Reckoner

/-! ### The token of a construct -/

/-- The token of an operator. -/
def Operator.token : Operator → Token
  | .sum => .symbol .plus
  | .difference => .symbol .minus
  | .product => .symbol .star
  | .quotient => .symbol .slash
  | .remainder => .symbol .percent
  | .power => .symbol .power

/-- The token of a sign. -/
def Sign.token : Sign → Token
  | .plus => .symbol .plus
  | .minus => .symbol .minus

/-- The token of a comparison. -/
def Comparison.token : Comparison → Token
  | .greater => .symbol .greater
  | .less => .symbol .less
  | .greaterOrEqual => .symbol .greaterOrEqual
  | .lessOrEqual => .symbol .lessOrEqual
  | .equal => .symbol .equal
  | .notEqual => .symbol .notEqual

/-- The token of a connective. -/
def Connective.token : Connective → Token
  | .and => .keyword .and
  | .or => .keyword .or

/-- What stands between two operands. -/
inductive Join where
  | arithmetic (op : Operator)
  | comparison (op : Comparison)
  | connective (op : Connective)
  deriving DecidableEq

namespace Join

/-- The token between the operands. -/
def token : Join → Token
  | .arithmetic op => op.token
  | .comparison op => op.token
  | .connective op => op.token

/-- The expression of two operands. -/
def apply : Join → Expr → Expr → Expr
  | .arithmetic op => .binary op
  | .comparison op => .compare op
  | .connective op => .connect op

/-- The level of the expression. -/
def level : Join → Level
  | .arithmetic op => op.level
  | .comparison _ => .comparison
  | .connective op => op.level

@[simp] theorem level_apply (j : Join) (l r : Expr) : (j.apply l r).level = j.level := by
  cases j <;> rfl

@[simp] theorem endsOpen_apply (j : Join) (l r : Expr) :
    (j.apply l r).endsOpen = r.endsOpen := by
  cases j <;> rfl

@[simp] theorem children_apply (j : Join) (l r : Expr) : (j.apply l r).children = [l, r] := by
  cases j <;> rfl

/-- The loosest level of a left operand. -/
def leftLevel (j : Join) : Level := if j.level = .power then .postfixed else j.level

/-- The loosest level of a right operand. -/
def rightLevel (j : Join) : Level := if j.level = .power then .factor else j.level.tighter

theorem rootShaped_apply_iff {j : Join} {l r : Expr} :
    (j.apply l r).rootShaped = true ↔ l.isBase j.leftLevel = true ∧ r.level ≤ j.rightLevel := by
  cases j with
  | arithmetic op =>
    cases op <;> simp only [apply, Expr.rootShaped, Bool.and_eq_true, decide_eq_true_eq] <;>
      simp [leftLevel, rightLevel, level, Operator.level, Level.le_tighter_iff]
  | comparison op =>
    simp [apply, Expr.rootShaped, leftLevel, rightLevel, level, Level.le_tighter_iff]
  | connective op =>
    cases op <;> simp only [apply, Expr.rootShaped, Bool.and_eq_true, decide_eq_true_eq] <;>
      simp [leftLevel, rightLevel, level, Connective.level, Level.le_tighter_iff]

end Join

/-! ### Items -/

/-- Lists of tokens with commas between them, and one after the last if wanted. -/
def commaJoined (trailing : Bool) : List (List Token) → List Token
  | [] => []
  | [ts] => if trailing then ts ++ [.symbol .comma] else ts
  | ts :: us :: rest => ts ++ .symbol .comma :: commaJoined trailing (us :: rest)

/-- The names of a lambda with commas between them. -/
def parameterTokens (params : List String) : List Token :=
  commaJoined false (params.map fun p => [.name p])

/-- An item of a list or call: the tokens of its expression, and the name before them. -/
structure Piece where
  label : Option String
  body : List Token
  value : Expr

namespace Piece

/-- All tokens of the item. -/
def tokens (p : Piece) : List Token :=
  match p.label with
  | none => p.body
  | some k => .name k :: .symbol .assign :: p.body

/-- The item as an argument of a call. -/
def argument (p : Piece) : Grammar.Argument :=
  match p.label with
  | none => .positional p.value
  | some k => .keyword k p.value

/-- The arguments of a call are the values of its items, those behind names last. -/
theorem perm_arguments (ps : List Piece) :
    (Grammar.positionals (ps.map argument)
      ++ (Grammar.keywords (ps.map argument)).map Prod.snd).Perm (ps.map value) := by
  induction ps with
  | nil => exact .refl _
  | cons p ps ih =>
    cases hl : p.label with
    | none =>
      simp only [List.map_cons, argument, hl, Grammar.positionals, Grammar.keywords]
      exact ih.cons _
    | some k =>
      simp only [List.map_cons, argument, hl, Grammar.positionals, Grammar.keywords]
      exact List.perm_middle.trans (ih.cons _)

theorem forall_argument_iff {ps : List Piece} {P : Expr → Prop} :
    (∀ e ∈ Grammar.positionals (ps.map argument)
      ++ (Grammar.keywords (ps.map argument)).map Prod.snd, P e) ↔ ∀ p ∈ ps, P p.value := by
  simp only [(perm_arguments ps).mem_iff, List.forall_mem_map]

end Piece

/-- The arguments of a call have levels that their places admit if those of all pieces do. -/
theorem Expr.rootShaped_call_iff {f : Expr} {ps : List Piece} :
    (Expr.call f (Grammar.positionals (ps.map Piece.argument))
      (Grammar.keywords (ps.map Piece.argument))).rootShaped = true ↔
      f.isBase .postfixed = true ∧ ∀ p ∈ ps, p.value.level ≤ .expression := by
  rw [← Piece.forall_argument_iff (P := fun e => e.level ≤ .expression)]
  simp only [rootShaped, Bool.and_eq_true, List.all_eq_true, decide_eq_true_eq,
    List.forall_mem_append, List.forall_mem_map, and_assoc]

/-! ### Trees -/

/-- The tokens write the tree. -/
inductive Writes : List Token → Expr → Prop
  | number (n : Numeral) : Writes [.number n] (.number n.value)
  | text (body : String) : Writes [.text body] (.text body)
  | name (id : String) : Writes [.name id] (.name id)
  | list (trailing : Bool) {ps : List Piece} (items : ∀ p ∈ ps, Writes p.body p.value) :
      Writes (.symbol .openBracket :: (commaJoined trailing (ps.map Piece.body)
        ++ [.symbol .closeBracket])) (.list (ps.map Piece.value))
  | group {ts : List Token} {e : Expr} (inner : Writes ts e) :
      Writes (.symbol .openParen :: (ts ++ [.symbol .closeParen])) (.group e)
  | lambda (params : List String) {ts : List Token} {e : Expr} (body : Writes ts e) :
      Writes (.keyword .lambda :: (parameterTokens params ++ .symbol .colon :: ts))
        (.lambda params e)
  | call (trailing : Bool) {ts : List Token} {f : Expr} {ps : List Piece} (callee : Writes ts f)
      (arguments : ∀ p ∈ ps, Writes p.body p.value) :
      Writes (ts ++ .symbol .openParen :: (commaJoined trailing (ps.map Piece.tokens)
          ++ [.symbol .closeParen]))
        (.call f (Grammar.positionals (ps.map Piece.argument))
          (Grammar.keywords (ps.map Piece.argument)))
  | subscript {ts us : List Token} {b i : Expr} (base : Writes ts b) (index : Writes us i) :
      Writes (ts ++ .symbol .openBracket :: (us ++ [.symbol .closeBracket])) (.subscript b i)
  | property (p : String) {ts : List Token} {b : Expr} (base : Writes ts b) :
      Writes (ts ++ [.symbol .dot, .name p]) (.attribute b p)
  | join (j : Join) {ts us : List Token} {l r : Expr} (left : Writes ts l) (right : Writes us r) :
      Writes (ts ++ j.token :: us) (j.apply l r)
  | signed (s : Sign) {ts : List Token} {e : Expr} (operand : Writes ts e) :
      Writes (s.token :: ts) (.signed s e)
  | negate {ts : List Token} {e : Expr} (operand : Writes ts e) :
      Writes (.keyword .not :: ts) (.negate e)
  | assign (x : String) {ts : List Token} {e : Expr} (value : Writes ts e) :
      Writes (.name x :: .symbol .assign :: ts) (.assign x e)

/-- The tokens that an expression can begin with. -/
def Token.begins : Token → Bool
  | .number _ | .text _ | .name _ | .keyword .not | .keyword .lambda => true
  | .symbol .plus | .symbol .minus | .symbol .openParen | .symbol .openBracket => true
  | _ => false

theorem Writes.exists_begins {ts : List Token} {e : Expr} (h : Writes ts e) :
    ∃ t us, ts = t :: us ∧ t.begins = true := by
  induction h with
  | number | text | name | list | group | lambda | negate | assign => exact ⟨_, _, rfl, rfl⟩
  | call _ _ _ ih | subscript _ _ ih | property _ _ ih | join _ _ _ ih =>
    obtain ⟨t, us, rfl, ht⟩ := ih
    exact ⟨t, _, rfl, ht⟩
  | signed s => cases s <;> exact ⟨_, _, rfl, rfl⟩

theorem Writes.ne_nil {ts : List Token} {e : Expr} (h : Writes ts e) : ts ≠ [] := by
  obtain ⟨t, us, rfl, -⟩ := h.exists_begins
  exact List.cons_ne_nil t us

end Reckoner
