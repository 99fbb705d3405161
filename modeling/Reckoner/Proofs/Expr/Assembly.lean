import Reckoner.Proofs.Expr.Acceptance
import Reckoner.Proofs.Token.Concatenation

/-!
# Texts put together

The text of a tree goes into longer texts as it is: in parentheses, behind a sign, beside an
operator, and in parentheses behind the name of a function. What each of these texts says is
said here once.
-/

namespace Reckoner

open Token (list?)

variable {cs ds : List Char} {ts us : List Token} {e f : Expr}

/-! ### Parentheses -/

/-- The tokens of a text in parentheses, whatever follows. -/
theorem Token.list?_enclosed (h : list? cs = some ts) (rest : List Char) :
    list? ('(' :: (cs ++ ')' :: rest)) =
      (list? rest).map ((.symbol .openParen :: (ts ++ [.symbol .closeParen])) ++ ·) := by
  have hclose : EndsRun mayContinue (')' :: rest) := EndsRun.cons_iff.mpr rfl
  have hopen := list?_symbol (s := .openParen) rfl (by simp) (cs ++ ')' :: rest)
  have hrest := list?_symbol (s := .closeParen) rfl (by simp) rest
  rw [show Symbol.spelling .openParen = ['('] from rfl, List.singleton_append] at hopen
  rw [show Symbol.spelling .closeParen = [')'] from rfl, List.singleton_append] at hrest
  rw [hopen, list?_append hclose h, hrest, Option.map_map, Option.map_map]
  congr 1
  funext us
  simp

namespace Says

theorem group (h : Says cs ts e) (he : e.level ≤ .expression) :
    Says ('(' :: (cs ++ [')'])) (.symbol .openParen :: (ts ++ [.symbol .closeParen]))
      (.group e) where
  tokens := by
    rw [Token.list?_enclosed h.tokens, Token.list?_blank rfl]
    simp
  writes := .group h.writes
  canonical := by
    refine Expr.canonical_iff.mpr ⟨decide_eq_true he, rfl, ?_⟩
    simpa [Expr.children] using h.canonical

theorem signed (s : Sign) (h : Says cs ts e) (he : e.level ≤ .factor) :
    Says (s.symbol.toList ++ cs) (s.token :: ts) (.signed s e) where
  tokens := by
    cases s with
    | plus =>
      refine (Token.list?_symbol (s := .plus) rfl (by simp) cs).trans ?_
      rw [h.tokens]
      rfl
    | minus =>
      refine (Token.list?_symbol (s := .minus) rfl (by simp) cs).trans ?_
      rw [h.tokens]
      rfl
  writes := .signed s h.writes
  canonical := by
    refine Expr.canonical_iff.mpr ⟨decide_eq_true he, rfl, ?_⟩
    simpa [Expr.children] using h.canonical

theorem call (hf : Says ds us f) (hbase : f.isBase .postfixed = true) (h : Says cs ts e)
    (he : e.level ≤ .expression) :
    Says (ds ++ '(' :: (cs ++ [')']))
      (us ++ .symbol .openParen :: (ts ++ [.symbol .closeParen])) (.call f [e] []) where
  tokens := by
    have hopen : EndsRun mayContinue ('(' :: (cs ++ [')'])) := EndsRun.cons_iff.mpr rfl
    rw [Token.list?_append hopen hf.tokens, Token.list?_enclosed h.tokens, Token.list?_blank rfl]
    simp
  writes := by
    have harguments : ∀ q ∈ [Piece.mk none ts e], Writes q.body q.value :=
      List.forall_mem_singleton.mpr h.writes
    exact .call false hf.writes harguments
  canonical := by
    refine Expr.canonical_iff.mpr ⟨?_, rfl, ?_⟩
    · simp [Expr.rootShaped, hbase, he]
    · simpa [Expr.children] using ⟨hf.canonical, h.canonical⟩

theorem name {id : String} (h : Token.isName id = true) :
    Says id.toList [.name id] (.name id) where
  tokens := Token.list?_spaced (.cons (.name h) .nil)
  writes := .name id
  canonical := Expr.canonical_iff.mpr ⟨rfl, h, fun c hc => by cases hc⟩

end Says

/-! ### Operators and functions -/

/-- The ways to type an operator. -/
def Operator.spellings : Operator → List String
  | .power => ["**", "^"]
  | op => [op.symbol]

theorem Operator.expandCarets_of_mem_spellings {op : Operator} {sp : String}
    (h : sp ∈ op.spellings) : Text.expandCarets sp.toList = op.symbol.toList := by
  cases op with
  | power =>
    simp only [spellings, List.mem_cons, List.not_mem_nil, or_false] at h
    rcases h with rfl | rfl <;> rfl
  | _ =>
    obtain rfl := List.mem_singleton.mp h
    rfl

theorem Operator.spells_symbol (op : Operator) : Token.Spells op.symbol.toList op.token := by
  obtain ⟨s, htoken, hsymbol⟩ : ∃ s, op.token = .symbol s ∧ op.symbol.toList = s.spelling := by
    cases op <;> exact ⟨_, rfl, rfl⟩
  rw [htoken, hsymbol]
  exact .symbol s

/-- Two texts in parentheses with an operator between them. -/
theorem Says.operation (op : Operator) (he : Says cs ts e) (hlevel : e.level ≤ .expression)
    (hf : Says ds us f) (hlevel' : f.level ≤ .expression) :
    Says ('(' :: (cs ++ ')' :: (op.symbol.toList ++ '(' :: (ds ++ [')']))))
      ((.symbol .openParen :: (ts ++ [.symbol .closeParen])) ++
        op.token :: .symbol .openParen :: (us ++ [.symbol .closeParen]))
      (.binary op (.group e) (.group f)) where
  tokens := by
    have hends : EndsRun op.token.continues ('(' :: (ds ++ [')'])) := by
      cases op <;> exact EndsRun.cons_iff.mpr rfl
    have hright := Token.list?_spelling List.all_nil op.spells_symbol hends
    rw [List.nil_append, (hf.group hlevel').tokens] at hright
    rw [Token.list?_enclosed he.tokens, hright]
    rfl
  writes := .join (.arithmetic op) (.group he.writes) (.group hf.writes)
  canonical := by
    refine Expr.canonical_iff.mpr ⟨?_, rfl, ?_⟩
    · cases op <;> rfl
    · simpa [Expr.children] using ⟨(he.group hlevel).canonical, (hf.group hlevel').canonical⟩

theorem Says.level_le_expression (h : Says cs ts e) (he : ∀ x v, e ≠ .assign x v) :
    e.level ≤ .expression := by
  by_contra hl
  obtain ⟨x, us, v, -, rfl, -⟩ := h.writes.assign_of_not_le hl
  exact he x v rfl

theorem Elementary.isName_name (f : Elementary) : Token.isName f.name = true := by
  cases f <;> decide

/-- Two texts with an operator between them and a blank on both sides of it. -/
theorem Token.list?_operation (op : Operator) (hts : list? cs = some ts)
    (hus : list? ds = some us) :
    list? (cs ++ ' ' :: (op.symbol.toList ++ ' ' :: ds)) = some (ts ++ op.token :: us) := by
  have hspace : [' '].all isBlank = true := rfl
  have hblank : EndsRun mayContinue (' ' :: (op.symbol.toList ++ ' ' :: ds)) :=
    EndsRun.cons_iff.mpr rfl
  have hends : EndsRun op.token.continues (' ' :: ds) :=
    EndsRun.cons_iff.mpr (not_continues_of_isBlank rfl)
  have hright : list? (' ' :: ds) = some us :=
    (list?_append_of_all_isBlank hspace ds).trans hus
  have hoperator := list?_spelling hspace op.spells_symbol hends
  rw [hright] at hoperator
  rw [list?_append hblank hts]
  exact congrArg (Option.map (ts ++ ·)) hoperator

end Reckoner
