import Reckoner.Proofs.Grammar.Writing
import Reckoner.Proofs.Nesting.Marks

/-!
# Which tokens stand side by side

Behind a sign that a star or an equals sign could join, what is written goes on with an
operand, behind a point with a name, and behind a number literal with a sign or a keyword.
So the scan tells the signs of a written tree apart.
-/

namespace Reckoner

/-- The tokens that can stand behind an expression. -/
def Token.trails : Token → Bool
  | .symbol _ | .keyword _ => true
  | _ => false

/-- Whether what is written can go on with this token, or end. -/
def Token.admits (t : Token) (next : Option Token) : Bool :=
  match t with
  | .symbol .dot => next.any fun | .name _ => true | _ => false
  | .symbol s => !s.joins || next.all Token.begins
  | .number _ => next.all Token.trails
  | _ => true

/-- Whether each token can stand before the one behind it. -/
def joined : List Token → Bool
  | [] => true
  | t :: ts => t.admits ts.head? && joined ts

theorem joined_of_append {ts us : List Token} (h : joined (ts ++ us) = true) :
    joined us = true := by
  induction ts with
  | nil => exact h
  | cons t ts ih => exact ih (Bool.and_eq_true_iff.mp h).2

theorem Join.admits_token {j : Join} {t : Token} (h : t.begins = true) :
    j.token.admits (some t) = true := by
  cases j with
  | arithmetic op | comparison op | connective op =>
    cases op <;> simp [token, Operator.token, Comparison.token, Connective.token, Token.admits, h]

theorem Join.trails_token (j : Join) : j.token.trails = true := by
  cases j with
  | arithmetic op | comparison op | connective op => cases op <;> rfl

/-- What follows the tokens may follow an expression, and they can be joined to it. -/
def Joins (ts : List Token) : Prop :=
  ∀ rest, joined rest = true → rest.head?.all Token.trails = true → joined (ts ++ rest) = true

theorem Joins.items {X : Type} {used : X → List Token} {xs : List X} (trailing : Bool)
    (h : ∀ x ∈ xs, Joins (used x)) : Joins (commaJoined trailing (xs.map used)) := by
  induction xs with
  | nil => exact fun rest hrest _ => hrest
  | cons x xs ih =>
    obtain ⟨hx, hxs⟩ := List.forall_mem_cons.mp h
    intro rest hrest hnext
    cases xs with
    | nil =>
      cases trailing with
      | false => exact hx rest hrest hnext
      | true =>
        rw [List.map_cons, List.map_nil, commaJoined, if_pos rfl, List.append_assoc]
        exact hx (.symbol .comma :: rest) hrest rfl
    | cons y ys =>
      have htail := ih hxs rest hrest hnext
      rw [List.map_cons, List.map_cons, commaJoined, List.append_assoc]
      exact hx (.symbol .comma :: _) htail rfl

/-- An expression stands behind a token that asks for one. -/
theorem Writes.joined_cons {ts rest : List Token} {e : Expr} {t : Token} (h : Writes ts e)
    (ht : ∀ u : Token, u.begins = true → t.admits (some u) = true)
    (hrest : joined (ts ++ rest) = true) : joined (t :: (ts ++ rest)) = true := by
  obtain ⟨u, us, rfl, hu⟩ := h.exists_begins
  exact Bool.and_eq_true_iff.mpr ⟨ht u hu, hrest⟩

/-- The tokens of a written tree can stand side by side. -/
theorem Writes.joins {ts : List Token} {e : Expr} (h : Writes ts e) : Joins ts := by
  induction h with
  | number n => exact fun rest hrest hnext => Bool.and_eq_true_iff.mpr ⟨hnext, hrest⟩
  | text | name => exact fun rest hrest _ => hrest
  | list trailing items ih =>
    intro rest hrest _
    have := Joins.items trailing ih (.symbol .closeBracket :: rest) hrest rfl
    simpa [joined, Token.admits, Symbol.joins] using this
  | group inner ih =>
    intro rest hrest _
    have := ih (.symbol .closeParen :: rest) hrest rfl
    simpa [joined, Token.admits, Symbol.joins] using this
  | lambda params body ih =>
    intro rest hrest hnext
    have hparams : Joins (parameterTokens params) :=
      Joins.items false fun _ _ rest hrest _ => hrest
    have := hparams (.symbol .colon :: (_ ++ rest)) (ih rest hrest hnext) rfl
    simpa [joined, Token.admits] using this
  | @call trailing ts f ps callee arguments ihf iha =>
    intro rest hrest _
    have hpieces : ∀ p ∈ ps, Joins p.tokens := by
      intro p hp rest hrest hnext
      cases hl : p.label with
      | none =>
        rw [Piece.tokens, hl]
        exact iha p hp rest hrest hnext
      | some k =>
        rw [Piece.tokens, hl]
        refine (arguments p hp).joined_cons (t := .symbol .assign) (fun u hu => ?_)
          (iha p hp rest hrest hnext)
        simp [Token.admits, hu]
    have := Joins.items trailing hpieces (.symbol .closeParen :: rest) hrest rfl
    have := ihf (.symbol .openParen :: _) this rfl
    simpa using this
  | subscript base index ihb ihi =>
    intro rest hrest _
    have := ihb (.symbol .openBracket :: _) (ihi (.symbol .closeBracket :: rest) hrest rfl) rfl
    simpa using this
  | property p base ih =>
    intro rest hrest _
    have := ih (.symbol .dot :: .name p :: rest) hrest rfl
    simpa using this
  | join j left right ihl ihr =>
    intro rest hrest hnext
    have := right.joined_cons (fun u hu => j.admits_token hu) (ihr rest hrest hnext)
    have := ihl (j.token :: _) this j.trails_token
    simpa using this
  | signed s operand ih =>
    intro rest hrest hnext
    refine operand.joined_cons (t := s.token) (fun u _ => ?_) (ih rest hrest hnext)
    cases s <;> rfl
  | negate operand ih => exact fun rest hrest hnext => ih rest hrest hnext
  | assign x value ih =>
    intro rest hrest hnext
    refine value.joined_cons (t := .symbol .assign) (fun u hu => ?_) (ih rest hrest hnext)
    simp [Token.admits, hu]

theorem Writes.joined {ts : List Token} {e : Expr} (h : Writes ts e) : joined ts = true := by
  have := h.joins [] rfl rfl
  rwa [List.append_nil] at this

end Reckoner
