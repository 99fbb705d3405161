import Reckoner.Proofs.Grammar.Writing
import Reckoner.Proofs.Nesting.Marks
import Reckoner.Proofs.Nesting.Scan

/-!
# What the scan charges for a tree

The marks of the tokens that write a tree leave the open levels as they are and add the
`charge` of the tree to the innermost one: an operator for each construct outside
brackets, and what brackets enclose as a level inside. A call and a subscript are charged
for their brackets only, so the scan does not see how many of them are stacked.

A keyword directly behind a number literal may be `hidden` from the scan as a part of
the exponent; the charge leaves these keywords out or not.
-/

namespace Reckoner

/-! ### Levels as sums -/

namespace Nesting

namespace Level

variable (a b c : Level)

/-- Two parts of the same level. -/
def join : Level := ⟨a.operators + b.operators, max a.inner b.inner⟩

/-- An operator. -/
def operator : Level := ⟨1, 0⟩

/-- Brackets around a level. -/
def bracketed : Level := ⟨0, a.bound⟩

@[simp] theorem join_empty : a.join {} = a := by
  simp [join]

@[simp] theorem empty_join : Level.join {} a = a := by
  simp [join]

theorem join_assoc : (a.join b).join c = a.join (b.join c) := by
  simp [join, Nat.add_assoc, Nat.max_assoc]

theorem join_comm : a.join b = b.join a := by
  simp [join, Nat.add_comm, Nat.max_comm]

theorem join_left_comm : a.join (b.join c) = b.join (a.join c) := by
  rw [← join_assoc, join_comm a b, join_assoc]

theorem enclose_eq : a.enclose b = a.join b.bracketed := by
  simp [enclose, join, bracketed]

/-- All parts of a level. -/
def joinAll (ls : List Level) : Level := ls.foldr join {}

@[simp] theorem joinAll_nil : joinAll [] = {} := rfl

@[simp] theorem joinAll_cons (l : Level) (ls : List Level) :
    joinAll (l :: ls) = l.join (joinAll ls) := rfl

end Level

namespace Scan

variable (s : Scan)

/-- The scan with more in the innermost open level. -/
def add (l : Level) : Scan := ⟨s.current.join l, s.enclosing⟩

@[simp] theorem add_empty : s.add {} = s := by
  simp [add]

theorem add_add (a b : Level) : (s.add a).add b = s.add (a.join b) := by
  simp [add, Level.join_assoc]

theorem step_operator : s.step .operator = s.add .operator := by
  simp [step, add, Level.join, Level.operator]

theorem step_closing_of_opening (l : Level) :
    ((s.step .opening).add l).step .closing = s.add l.bracketed := by
  simp [step, add, Level.enclose_eq]

end Scan

end Nesting

/-! ### The charge of a tree -/

/-- Whether the token is a number literal. -/
def Token.isNumber : Token → Bool
  | .number _ => true
  | _ => false

/-- Whether the token is a keyword. -/
def Token.isKeyword : Token → Bool
  | .keyword _ => true
  | _ => false

namespace Expr

/-- Whether the right edge of the expression is a number. -/
def endsInNumber : Expr → Bool
  | .number _ => true
  | .binary _ _ r | .compare _ _ r | .connect _ _ r => r.endsInNumber
  | .signed _ e | .negate e | .lambda _ e | .assign _ e => e.endsInNumber
  | _ => false

mutual

/-- What the tokens of the tree add to the level in which they stand. -/
def charge (hidden : Bool) : Expr → Nesting.Level
  | .number _ | .text _ | .name _ => {}
  | .list items => (allCharge hidden items).bracketed
  | .binary _ l r | .compare _ l r => (l.charge hidden).join (.join .operator (r.charge hidden))
  | .connect _ l r =>
    (l.charge hidden).join
      (.join (if hidden && l.endsInNumber then {} else .operator) (r.charge hidden))
  | .signed _ e | .negate e | .lambda _ e | .assign _ e => .join .operator (e.charge hidden)
  | .attribute e _ => (e.charge hidden).join .operator
  | .group e => (e.charge hidden).bracketed
  | .call f args keywords =>
    (f.charge hidden).join
      ((allCharge hidden args).join (keywordCharge hidden keywords)).bracketed
  | .subscript b i => (b.charge hidden).join (i.charge hidden).bracketed

/-- What the tokens of all trees add. -/
def allCharge (hidden : Bool) : List Expr → Nesting.Level
  | [] => {}
  | e :: es => (e.charge hidden).join (allCharge hidden es)

/-- What the tokens of all trees and of the keywords before them add. -/
def keywordCharge (hidden : Bool) : List (String × Expr) → Nesting.Level
  | [] => {}
  | (_, e) :: es => (Nesting.Level.join .operator (e.charge hidden)).join (keywordCharge hidden es)

end

end Expr

namespace Nesting

/-! ### The marks of a token list -/

/-- The marks of the tokens, given whether they stand behind a number literal. Keywords there are
left out if they may be hidden. -/
def tokenMarks (hidden behindNumber : Bool) : List Token → List Mark
  | [] => []
  | t :: ts =>
    (if hidden && behindNumber && t.isKeyword then [] else t.marks)
      ++ tokenMarks hidden t.isNumber ts

/-- The tokens add a level to the innermost one that is open; `before` and `after` say whether a
number literal stands before what is to come. -/
def Adds (hidden before : Bool) (ts : List Token) (l : Level) (after : Bool) : Prop :=
  ∀ s rest, Scan.run s (tokenMarks hidden before (ts ++ rest))
    = (s.add l).run (tokenMarks hidden after rest)

namespace Adds

variable {hidden a b c : Bool} {ts us : List Token} {l m : Level}

theorem append (h : Adds hidden a ts l b) (h' : Adds hidden b us m c) :
    Adds hidden a (ts ++ us) (l.join m) c := by
  intro s rest
  rw [List.append_assoc, h, h', Scan.add_add]

theorem nil : Adds hidden a [] {} a := by
  intro s rest
  rw [List.nil_append, Scan.add_empty]

theorem number (n : Numeral) : Adds hidden a [.number n] {} true := by
  intro s rest
  cases a <;> cases hidden <;> simp [tokenMarks, Token.marks, Token.isNumber, Token.isKeyword]

/-- A token that is no literal and does not count. -/
theorem unmarked {t : Token} (hmarks : t.marks = []) (hnumber : t.isNumber = false) :
    Adds hidden a [t] {} false := by
  intro s rest
  simp [tokenMarks, hmarks, hnumber]

/-- A token that counts as an operator, if it is not hidden. -/
theorem counted {t : Token} (hmarks : t.marks = [.operator]) (hnumber : t.isNumber = false) :
    Adds hidden a [t] (if hidden && a && t.isKeyword then {} else .operator) false := by
  intro s rest
  rw [List.singleton_append, tokenMarks, hmarks, hnumber]
  split
  · simp
  · simp [Scan.step_operator]

theorem operator {t : Token} (hmarks : t.marks = [.operator]) (hnumber : t.isNumber = false)
    (hkeyword : t.isKeyword = false) : Adds hidden a [t] .operator false := by
  have : Adds hidden a [t] _ false := counted hmarks hnumber
  rwa [hkeyword, Bool.and_false, if_neg Bool.false_ne_true] at this

theorem keyword (k : Keyword) : Adds hidden false [.keyword k] .operator false := by
  have : Adds hidden false [.keyword k] _ false := counted rfl rfl
  rwa [Bool.and_false, Bool.false_and, if_neg Bool.false_ne_true] at this

/-- Brackets make a level of what they enclose. -/
theorem enclosed {o close : Symbol} (ho : o.marks = [.opening]) (hclose : close.marks = [.closing])
    (h : Adds hidden false ts l b) :
    Adds hidden a (.symbol o :: (ts ++ [.symbol close])) l.bracketed false := by
  intro s rest
  have hbody := h (s.step .opening) (.symbol close :: rest)
  simp only [List.cons_append, List.append_assoc, List.nil_append, tokenMarks, Token.marks, ho,
    hclose, Token.isNumber, Token.isKeyword, Bool.and_false, Bool.false_eq_true, if_false,
    Scan.run_cons] at hbody ⊢
  rw [hbody, Scan.step_closing_of_opening]

/-- The assignment sign behind a name counts. -/
theorem label (x : String) (h : Adds hidden false ts l b) :
    Adds hidden false (.name x :: .symbol .assign :: ts) (Level.operator.join l) b := by
  have hname : Adds hidden false [.name x] {} false := unmarked rfl rfl
  have hassign : Adds hidden false [.symbol .assign] .operator false := operator rfl rfl rfl
  have := hname.append (hassign.append h)
  rwa [Level.empty_join] at this

/-- Commas between the items count for nothing. -/
theorem items {X : Type} {used : X → List Token} {level : X → Level} {xs : List X} (trailing : Bool)
    (h : ∀ x ∈ xs, ∃ b, Adds hidden false (used x) (level x) b) :
    ∃ b, Adds hidden false (commaJoined trailing (xs.map used))
      (Level.joinAll (xs.map level)) b := by
  have hcomma {b : Bool} : Adds hidden b [.symbol .comma] {} false := unmarked rfl rfl
  induction xs with
  | nil => exact ⟨false, nil⟩
  | cons x xs ih =>
    obtain ⟨⟨b, hx⟩, hxs⟩ := List.forall_mem_cons.mp h
    cases xs with
    | nil =>
      cases trailing with
      | false => exact ⟨b, by simpa [commaJoined] using hx⟩
      | true => exact ⟨false, hx.append hcomma⟩
    | cons y ys =>
      obtain ⟨c, htail⟩ := ih hxs
      refine ⟨c, ?_⟩
      have := hx.append (hcomma.append htail)
      rwa [Level.empty_join] at this

theorem parameters (params : List String) :
    ∃ b, Adds hidden false (parameterTokens params) {} b := by
  have hempty : Level.joinAll (params.map fun _ => {}) = {} := by
    induction params with
    | nil => rfl
    | cons p params ih => simpa using ih
  have hname : ∀ p ∈ params, ∃ b, Adds hidden false [.name p] {} b :=
    fun _ _ => ⟨false, unmarked rfl rfl⟩
  have := items false hname
  rwa [hempty] at this

end Adds

end Nesting

/-! ### The charge of what is written -/

open Nesting (Adds)

namespace Expr

variable {hidden : Bool}

theorem allCharge_eq (es : List Expr) :
    allCharge hidden es = Nesting.Level.joinAll (es.map (charge hidden)) := by
  induction es with
  | nil => rfl
  | cons e es ih => rw [allCharge, ih, List.map_cons, Nesting.Level.joinAll_cons]

theorem charge_apply (j : Join) (l r : Expr) : (j.apply l r).charge hidden =
    (l.charge hidden).join
      (.join (if hidden && l.endsInNumber && j.token.isKeyword then {} else .operator)
        (r.charge hidden)) := by
  cases j with
  | arithmetic op | comparison op => cases op <;> simp [Join.apply, charge, Join.token,
      Operator.token, Comparison.token, Token.isKeyword]
  | connective op => cases op <;> simp [Join.apply, charge, Join.token, Connective.token,
      Token.isKeyword]

@[simp] theorem endsInNumber_apply (j : Join) (l r : Expr) :
    (j.apply l r).endsInNumber = r.endsInNumber := by
  cases j <;> rfl

end Expr

theorem Join.marks_token (j : Join) : j.token.marks = [.operator] := by
  cases j with
  | arithmetic op | comparison op | connective op => cases op <;> rfl

theorem Join.isNumber_token (j : Join) : j.token.isNumber = false := by
  cases j with
  | arithmetic op | comparison op | connective op => cases op <;> rfl

/-- The charge of an item, and of the name before it. -/
def Piece.charge (hidden : Bool) (p : Piece) : Nesting.Level :=
  match p.label with
  | none => p.value.charge hidden
  | some _ => .join .operator (p.value.charge hidden)

/-- The order of the arguments does not matter. -/
theorem Piece.joinAll_charge (hidden : Bool) (ps : List Piece) :
    Nesting.Level.joinAll (ps.map (Piece.charge hidden)) =
      (Expr.allCharge hidden (Grammar.positionals (ps.map Piece.argument))).join
        (Expr.keywordCharge hidden (Grammar.keywords (ps.map Piece.argument))) := by
  induction ps with
  | nil => rfl
  | cons p ps ih =>
    rw [List.map_cons, Nesting.Level.joinAll_cons, ih]
    cases hl : p.label with
    | none =>
      simp [Piece.charge, Piece.argument, hl, Grammar.positionals, Grammar.keywords, Expr.allCharge,
        Nesting.Level.join_assoc]
    | some k =>
      simp only [Piece.charge, Piece.argument, hl, List.map_cons, Grammar.positionals,
        Grammar.keywords, Expr.keywordCharge]
      rw [Nesting.Level.join_left_comm]

theorem Piece.adds {hidden b : Bool} (p : Piece)
    (h : Adds hidden false p.body (p.value.charge hidden) b) :
    Adds hidden false p.tokens (p.charge hidden) b := by
  cases hl : p.label with
  | none => simpa [Piece.tokens, Piece.charge, hl] using h
  | some k =>
    have := Adds.label k h
    simpa [Piece.tokens, Piece.charge, hl] using this

/-- **The charge of a tree** is what the tokens that write it add to the innermost open level. -/
theorem Writes.adds {ts : List Token} {e : Expr} (h : Writes ts e) (hidden : Bool) :
    Adds hidden false ts (e.charge hidden) e.endsInNumber := by
  induction h with
  | number n => exact .number n
  | text body => exact .unmarked rfl rfl
  | name id => exact .unmarked rfl rfl
  | @list trailing ps items ih =>
    obtain ⟨b, hitems⟩ := Adds.items trailing fun p hp => ⟨_, ih p hp⟩
    rw [Expr.charge, Expr.allCharge_eq, List.map_map]
    exact hitems.enclosed rfl rfl
  | group inner ih => exact ih.enclosed rfl rfl
  | lambda params body ih =>
    obtain ⟨b, hparams⟩ : ∃ b, Adds hidden false (parameterTokens params) {} b :=
      Adds.parameters params
    have hcolon : Adds hidden b [.symbol .colon] {} false := .unmarked rfl rfl
    have := (Adds.keyword .lambda).append ((hparams.append hcolon).append ih)
    simpa [Expr.charge, Expr.endsInNumber] using this
  | call trailing callee arguments ihf iha =>
    obtain ⟨b, harguments⟩ := Adds.items trailing fun p hp => ⟨_, Piece.adds p (iha p hp)⟩
    rw [Expr.charge, ← Piece.joinAll_charge]
    exact ihf.append (harguments.enclosed rfl rfl)
  | subscript base index ihb ihi => exact ihb.append (ihi.enclosed rfl rfl)
  | @property p ts b base ih =>
    have hdot : Adds hidden b.endsInNumber [.symbol .dot] .operator false := .operator rfl rfl rfl
    have hname : Adds hidden false [.name p] {} false := .unmarked rfl rfl
    have := ih.append (hdot.append hname)
    simpa [Expr.charge, Expr.endsInNumber] using this
  | @join j ts us l r left right ihl ihr =>
    -- only a connective may be hidden, and only behind a literal
    have htoken : Adds hidden l.endsInNumber [j.token]
        (if hidden && l.endsInNumber && j.token.isKeyword then {} else .operator) false :=
      .counted j.marks_token j.isNumber_token
    rw [Expr.charge_apply, Expr.endsInNumber_apply]
    exact ihl.append (htoken.append ihr)
  | signed s operand ih =>
    have hsign : Adds hidden false [s.token] .operator false := by
      cases s <;> exact .operator rfl rfl rfl
    exact hsign.append ih
  | negate operand ih =>
    exact (Adds.keyword .not).append ih
  | assign x value ih =>
    have := Adds.label x ih
    simpa [Expr.charge, Expr.endsInNumber] using this

/-- The scan of the tokens alone ends at the bound of the charge. -/
theorem Writes.bound_tokenMarks {ts : List Token} {e : Expr} (h : Writes ts e) (hidden : Bool) :
    (Nesting.Scan.run {} (Nesting.tokenMarks hidden false ts)).bound = (e.charge hidden).bound := by
  have hrun := h.adds hidden {} []
  rw [List.append_nil] at hrun
  rw [hrun]
  simp [Nesting.Scan.bound_eq, Nesting.Scan.closed, Nesting.Scan.add, Nesting.tokenMarks]

end Reckoner
