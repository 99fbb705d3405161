import Reckoner.Proofs.Grammar.Writing

/-!
# Phrases

A phrase of a level is the longest beginning of some tokens that writes a shaped tree of
this level: what follows it must not go on with the expression. A token goes on with an
expression from its `binding?` level on, and with an expression that ends in a lambda
at every level.
-/

namespace Reckoner

/-- The tightest level of the expressions that go on with the token. -/
def Token.binding? : Token → Option Level
  | .symbol .openParen | .symbol .openBracket | .symbol .dot => some .postfixed
  | .symbol .power => some .power
  | .symbol .star | .symbol .slash | .symbol .percent => some .term
  | .symbol .plus | .symbol .minus => some .sum
  | .symbol .greater | .symbol .less | .symbol .greaterOrEqual | .symbol .lessOrEqual
  | .symbol .equal | .symbol .notEqual => some .comparison
  | .keyword .and => some .conjunction
  | .keyword .or => some .expression
  | _ => none

/-- What goes on with an expression, by the tightest level it goes on with. -/
theorem Token.binding?_cases {t : Token} {l : Level} (h : t.binding? = some l) :
    (l = .postfixed ∧ (t = .symbol .openParen ∨ t = .symbol .openBracket ∨ t = .symbol .dot)) ∨
      (l = .power ∧ t = .symbol .power) ∨
      l = .term ∨ l = .sum ∨ l = .comparison ∨ l = .conjunction ∨ l = .expression := by
  cases t with
  | symbol s => cases s <;> cases h <;> simp
  | keyword k => cases k <;> cases h <;> simp
  | _ => cases h

theorem Join.binding?_token (j : Join) : j.token.binding? = some j.level := by
  cases j with
  | arithmetic op => cases op <;> rfl
  | comparison op => cases op <;> rfl
  | connective op => cases op <;> rfl

theorem Join.level_le_expression (j : Join) : j.level ≤ .expression := by
  cases j with
  | arithmetic op => cases op <;> decide
  | comparison op => exact (by decide : Level.comparison ≤ .expression)
  | connective op => cases op <;> decide

/-- The tokens do not go on with an expression of the level. -/
def Stops (l : Level) (ts : List Token) : Prop := ∀ t ∈ ts.head?, ∀ b ∈ t.binding?, l < b

namespace Stops

variable {l m : Level} {t : Token} {ts : List Token}

@[simp] theorem nil : Stops l [] := by
  simp [Stops]

theorem cons_iff : Stops l (t :: ts) ↔ ∀ b ∈ t.binding?, l < b := by
  simp [Stops]

theorem cons_of_none (h : t.binding? = none) : Stops l (t :: ts) := by
  simp [cons_iff, h]

theorem of_primary : Stops .primary ts := by
  intro t _ b hb
  rcases Token.binding?_cases hb with ⟨rfl, -⟩ | ⟨rfl, -⟩ | rfl | rfl | rfl | rfl | rfl <;> decide

/-- Where no call, subscript or attribute follows, postfixed pieces stop. -/
theorem postfixed_of_ne (hcall : ∀ us, ts ≠ .symbol .openParen :: us)
    (hsub : ∀ us, ts ≠ .symbol .openBracket :: us) (hattr : ∀ us, ts ≠ .symbol .dot :: us) :
    Stops .postfixed ts := by
  intro t ht b hb
  obtain ⟨us, rfl⟩ := List.head?_eq_some_iff.mp ht
  rcases Token.binding?_cases hb with
    ⟨rfl, rfl | rfl | rfl⟩ | ⟨rfl, -⟩ | rfl | rfl | rfl | rfl | rfl
  · exact absurd rfl (hcall us)
  · exact absurd rfl (hsub us)
  · exact absurd rfl (hattr us)
  all_goals decide

/-- Where a postfixed piece stops and no `**` follows, powers stop. -/
theorem power_of_ne (h : Stops .postfixed ts) (hpow : ∀ us, ts ≠ .symbol .power :: us) :
    Stops .power ts := by
  intro t ht b hb
  have hlt := h t ht b hb
  obtain ⟨us, rfl⟩ := List.head?_eq_some_iff.mp ht
  rcases Token.binding?_cases hb with ⟨rfl, -⟩ | ⟨-, rfl⟩ | rfl | rfl | rfl | rfl | rfl
  · exact absurd hlt (by decide)
  · exact absurd rfl (hpow us)
  all_goals decide

theorem mono (h : Stops m ts) (hl : l ≤ m) : Stops l ts :=
  fun t ht b hb => Nat.lt_of_le_of_lt hl (h t ht b hb)

/-- No operator stands between factors alone. -/
theorem factor_of_power (h : Stops .power ts) : Stops .factor ts := by
  intro t ht b hb
  have hlt := h t ht b hb
  rcases Token.binding?_cases hb with ⟨rfl, -⟩ | ⟨rfl, -⟩ | rfl | rfl | rfl | rfl | rfl <;>
    first | exact absurd hlt (by decide) | decide

/-- No operator stands between negations alone. -/
theorem negation_of_comparison (h : Stops .comparison ts) : Stops .negation ts := by
  intro t ht b hb
  have hlt := h t ht b hb
  rcases Token.binding?_cases hb with ⟨rfl, -⟩ | ⟨rfl, -⟩ | rfl | rfl | rfl | rfl | rfl <;>
    first | exact absurd hlt (by decide) | decide

end Stops

/-- The level at which the text behind an expression of level `l` has to stop. -/
def Expr.reach (l : Level) (e : Expr) : Level := if e.endsOpen then .expression else l

theorem Expr.reach_of_closed {e : Expr} {l : Level} (h : e.endsOpen = false) : e.reach l = l := by
  simp [reach, h]

theorem Expr.reach_of_open {e : Expr} {l : Level} (h : e.endsOpen = true) :
    e.reach l = .expression := by
  simp [reach, h]

theorem Expr.reach_le {e e' : Expr} {l m : Level} (h : e.endsOpen = e'.endsOpen) (hl : l ≤ m) :
    e.reach l ≤ e'.reach m := by
  unfold reach
  rw [h]
  split
  · exact Nat.le_refl _
  · exact hl

/-- Before a token that goes on with an expression stands none with an open end. -/
theorem Stops.closed {e : Expr} {l b : Level} {t : Token} {ts : List Token}
    (h : Stops (e.reach l) (t :: ts)) (hb : t.binding? = some b) (hle : b ≤ .expression) :
    e.endsOpen = false := by
  cases ho : e.endsOpen with
  | false => rfl
  | true =>
    rw [Expr.reach_of_open ho] at h
    exact absurd (Nat.lt_of_lt_of_le (Stops.cons_iff.mp h b hb) hle) (Nat.lt_irrefl _)

/-- The tokens begin with a phrase of the level that writes `e`, and go on with `rest`. -/
structure Phrase (l : Level) (ts : List Token) (e : Expr) (rest : List Token) : Prop where
  writes : ∃ used, ts = used ++ rest ∧ Writes used e
  shaped : e.shaped = true
  level_le : e.level ≤ l
  stops : Stops (e.reach l) rest

namespace Phrase

variable {l m : Level} {ts rest : List Token} {e : Expr}

/-- A phrase is one of every looser level whose operators do not follow. -/
theorem weaken (h : Phrase l ts e rest) (hl : l ≤ m)
    (hm : e.endsOpen = false → Stops m rest) : Phrase m ts e rest where
  writes := h.writes
  shaped := h.shaped
  level_le := Nat.le_trans h.level_le hl
  stops := by
    cases ho : e.endsOpen with
    | false => rw [Expr.reach_of_closed ho]; exact hm ho
    | true => rw [Expr.reach_of_open ho, ← Expr.reach_of_open (l := l) ho]; exact h.stops

end Phrase

/-! ### Tables of operators -/

/-- What a token between two operands stands for. -/
def Token.join? : Token → Option Join
  | .symbol .plus => some (.arithmetic .sum)
  | .symbol .minus => some (.arithmetic .difference)
  | .symbol .star => some (.arithmetic .product)
  | .symbol .slash => some (.arithmetic .quotient)
  | .symbol .percent => some (.arithmetic .remainder)
  | .symbol .power => some (.arithmetic .power)
  | .symbol .greater => some (.comparison .greater)
  | .symbol .less => some (.comparison .less)
  | .symbol .greaterOrEqual => some (.comparison .greaterOrEqual)
  | .symbol .lessOrEqual => some (.comparison .lessOrEqual)
  | .symbol .equal => some (.comparison .equal)
  | .symbol .notEqual => some (.comparison .notEqual)
  | .keyword .and => some (.connective .and)
  | .keyword .or => some (.connective .or)
  | _ => none

@[simp] theorem Join.join?_token (j : Join) : j.token.join? = some j := by
  cases j with
  | arithmetic op => cases op <;> rfl
  | comparison op => cases op <;> rfl
  | connective op => cases op <;> rfl

theorem Token.eq_token_of_join? {t : Token} {j : Join} (h : t.join? = some j) : t = j.token := by
  cases t with
  | symbol s => cases s <;> cases h <;> rfl
  | keyword k => cases k <;> cases h <;> rfl
  | _ => cases h

/-- The operators of one level. -/
def Level.join? (l : Level) (t : Token) : Option (Expr → Expr → Expr) :=
  (t.join?.filter (·.level = l)).map Join.apply

theorem Level.join?_token {l : Level} {j : Join} (h : j.level = l) :
    l.join? j.token = some j.apply := by
  rw [Level.join?, j.join?_token, Option.filter_some, if_pos (decide_eq_true h), Option.map_some]

theorem Level.exists_of_join? {l : Level} {t : Token} {f : Expr → Expr → Expr}
    (h : l.join? t = some f) : ∃ j : Join, t = j.token ∧ f = j.apply ∧ j.level = l := by
  simp only [Level.join?, Option.map_eq_some_iff, Option.filter_eq_some_iff,
    decide_eq_true_eq] at h
  obtain ⟨j, ⟨hj, hl⟩, rfl⟩ := h
  exact ⟨j, Token.eq_token_of_join? hj, rfl, hl⟩

/-- The levels whose expressions are chains of operands, joined from the left. -/
def Level.IsChain (l : Level) : Prop :=
  l = .term ∨ l = .sum ∨ l = .comparison ∨ l = .conjunction ∨ l = .expression

namespace Level.IsChain

variable {l : Level}

theorem le_expression (h : l.IsChain) : l ≤ .expression := by
  rcases h with rfl | rfl | rfl | rfl | rfl <;> decide

theorem leftLevel (h : l.IsChain) {j : Join} (hj : j.level = l) : j.leftLevel = l := by
  rcases h with rfl | rfl | rfl | rfl | rfl <;> simp [Join.leftLevel, hj]

theorem rightLevel (h : l.IsChain) {j : Join} (hj : j.level = l) : j.rightLevel = l.tighter := by
  rcases h with rfl | rfl | rfl | rfl | rfl <;> simp [Join.rightLevel, Level.tighter, hj]

/-- A token that stops the operands of a chain is an operator of the chain or stops it too. -/
theorem lt_of_join?_eq_none (h : l.IsChain) {t : Token} (ht : l.join? t = none) {b : Level}
    (hb : b ∈ t.binding?) (hlt : l.tighter < b) : l < b := by
  by_cases hle : b ≤ l
  · obtain rfl := Level.eq_of_tighter_lt hlt hle
    rcases h with rfl | rfl | rfl | rfl | rfl <;>
    · cases t with
      | symbol s => cases s <;> cases hb <;> cases ht
      | keyword k => cases k <;> cases hb <;> cases ht
      | _ => cases hb
  · exact Nat.lt_of_not_le hle

end Level.IsChain

namespace Grammar

theorem productOperator?_eq : productOperator? = Level.term.join? := by
  funext t
  cases t with
  | symbol s => cases s <;> rfl
  | keyword k => cases k <;> rfl
  | _ => rfl

theorem sumOperator?_eq : sumOperator? = Level.sum.join? := by
  funext t
  cases t with
  | symbol s => cases s <;> rfl
  | keyword k => cases k <;> rfl
  | _ => rfl

theorem comparisonOperator?_eq : comparisonOperator? = Level.comparison.join? := by
  funext t
  cases t with
  | symbol s => cases s <;> rfl
  | keyword k => cases k <;> rfl
  | _ => rfl

theorem andOperator?_eq : andOperator? = Level.conjunction.join? := by
  funext t
  cases t with
  | symbol s => cases s <;> rfl
  | keyword k => cases k <;> rfl
  | _ => rfl

theorem orOperator?_eq : orOperator? = Level.expression.join? := by
  funext t
  cases t with
  | symbol s => cases s <;> rfl
  | keyword k => cases k <;> rfl
  | _ => rfl

end Grammar

end Reckoner
