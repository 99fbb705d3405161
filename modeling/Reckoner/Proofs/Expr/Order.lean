import Reckoner.Proofs.Expr.Rendering

/-!
# The order of arguments

A tree keeps the arguments of a call in two lists, those without names and those with
names, so its tokens may differ in order from the tokens that it was read from. Whether
the arguments without names come first can be told from the tokens alone (`namesLast`).
They do in the tokens of every tree (`Expr.inOrder_tokens`), and commas before closing
brackets do not matter (`Agree.namesLast`).
-/

namespace Reckoner

/-! ### Tokens that say the same -/

/-- The tokens are equal, or they are literals with the same value. -/
def Token.Same : Token → Token → Prop
  | .number n, .number m => n.value = m.value
  | t, u => t = u

theorem Token.Same.refl (t : Token) : t.Same t := by
  cases t <;> rfl

theorem Token.Same.eq_or {t u : Token} (h : t.Same u) :
    t = u ∨ ∃ n m, t = .number n ∧ u = .number m := by
  cases t with
  | number n =>
    cases u with
    | number m => exact .inr ⟨n, m, rfl, rfl⟩
    | _ => exact .inl h
  | _ => exact .inl h

/-- The same tokens in order, but for commas before closing brackets on the left. -/
inductive Agree : List Token → List Token → Prop
  | nil : Agree [] []
  | cons {t u : Token} {ts us : List Token} (head : t.Same u) (rest : Agree ts us) :
      Agree (t :: ts) (u :: us)
  | comma {s : Symbol} {ts us : List Token} (hs : s = .closeParen ∨ s = .closeBracket)
      (rest : Agree (.symbol s :: ts) us) : Agree (.symbol .comma :: .symbol s :: ts) us

namespace Agree

variable {ts us ts' us' : List Token}

theorem refl (ts : List Token) : Agree ts ts := by
  induction ts with
  | nil => exact .nil
  | cons t ts ih => exact .cons (Token.Same.refl t) ih

theorem append (h : Agree ts us) (h' : Agree ts' us') : Agree (ts ++ ts') (us ++ us') := by
  induction h with
  | nil => exact h'
  | cons head rest ih => exact .cons head ih
  | comma hs rest ih => exact .comma hs ih

theorem between (h : Agree ts us) (t : Token) (h' : Agree ts' us') :
    Agree (ts ++ t :: ts') (us ++ t :: us') :=
  h.append (.cons (Token.Same.refl t) h')

/-- No comma is dropped before a token that is no closing bracket. -/
theorem exists_cons {u : Token} (h : Agree ts (u :: us)) (hparen : u ≠ .symbol .closeParen)
    (hbracket : u ≠ .symbol .closeBracket) : ∃ t ts', ts = t :: ts' ∧ t.Same u ∧ Agree ts' us := by
  cases h with
  | cons head rest => exact ⟨_, _, rfl, head, rest⟩
  | @comma s ts _ hs rest =>
    cases rest with
    | cons head =>
      obtain rfl : Token.symbol s = u := head
      rcases hs with rfl | rfl <;> contradiction
    | comma => rcases hs with hs | hs <;> cases hs

end Agree

/-! ### Arguments in order -/

namespace Token

/-- Whether an argument with a name, or no argument at all, stands next. -/
def noPositional : List Token → Bool
  | .name _ :: .symbol .assign :: _ => true
  | .symbol .closeParen :: _ | .symbol .closeBracket :: _ | .symbol .comma :: _ => true
  | _ => false

/-- Whether no argument without a name comes after one with a name, given whether an assignment
sign has been seen between the innermost brackets, and between those around them. The parameters
of a lambda stand between brackets, too: its keyword and the colon. -/
def namesLast (named : Bool) (enclosing : List Bool) : List Token → Bool
  | [] => true
  | .symbol .openParen :: ts | .symbol .openBracket :: ts | .keyword .lambda :: ts =>
    namesLast false (named :: enclosing) ts
  | .symbol .closeParen :: ts | .symbol .closeBracket :: ts | .symbol .colon :: ts =>
    namesLast (enclosing.headD false) enclosing.tail ts
  | .symbol .comma :: ts => (!named || noPositional ts) && namesLast named enclosing ts
  | .symbol .assign :: ts => namesLast true enclosing ts
  | _ :: ts => namesLast named enclosing ts

variable {named : Bool} {enclosing : List Bool} {ts : List Token}

theorem namesLast_parameters (params : List String) :
    namesLast false enclosing (parameterTokens params ++ .symbol .colon :: ts)
      = namesLast (enclosing.headD false) enclosing.tail ts := by
  unfold parameterTokens
  induction params with
  | nil => rfl
  | cons p params ih =>
    cases params with
    | nil => rfl
    | cons q params => exact ih

end Token

open Token (namesLast)

theorem namesLast_open {o : Symbol} (ho : o = .openParen ∨ o = .openBracket) {named : Bool}
    {enclosing : List Bool} {rest : List Token} : namesLast named enclosing (.symbol o :: rest)
      = namesLast false (named :: enclosing) rest := by
  rcases ho with rfl | rfl <;> rfl

theorem namesLast_close {s : Symbol} (hs : s = .closeParen ∨ s = .closeBracket) {named : Bool}
    {enclosing : List Bool} {rest : List Token} : namesLast named enclosing (.symbol s :: rest)
      = namesLast (enclosing.headD false) enclosing.tail rest := by
  rcases hs with rfl | rfl <;> rfl

namespace Agree

variable {ts us : List Token}

theorem noPositional (h : Agree ts us) (hus : Token.noPositional us = true) :
    Token.noPositional ts = true := by
  cases h with
  | nil => exact hus
  | comma => rfl
  | @cons t u ts us head rest =>
    obtain rfl | ⟨n, m, rfl, rfl⟩ := head.eq_or
    · unfold Token.noPositional at hus
      split at hus
      · rename_i heq
        cases heq
        obtain ⟨t, ts, rfl, ht, -⟩ := rest.exists_cons (by simp) (by simp)
        obtain rfl : t = .symbol .assign := by simpa using ht.eq_or
        rfl
      · rename_i heq
        cases heq
        rfl
      · rename_i heq
        cases heq
        rfl
      · rename_i heq
        cases heq
        rfl
      · cases hus
    · cases hus

/-- If the arguments are in order once commas are dropped, they were before. -/
theorem namesLast (h : Agree ts us) {named : Bool} {enclosing : List Bool}
    (ho : namesLast named enclosing us = true) : namesLast named enclosing ts = true := by
  induction h generalizing named enclosing with
  | nil => rfl
  | @cons t u ts us head rest ih =>
    obtain rfl | ⟨n, m, rfl, rfl⟩ := head.eq_or
    · cases t with
      | symbol s =>
        cases s with
        | comma =>
          simp only [Token.namesLast, Bool.and_eq_true, Bool.or_eq_true] at ho ⊢
          exact ⟨ho.1.imp_right rest.noPositional, ih ho.2⟩
        | _ => exact ih ho
      | keyword k => cases k <;> exact ih ho
      | _ => exact ih ho
    · exact ih ho
  | comma hs rest ih =>
    simp only [Token.namesLast, Bool.and_eq_true]
    refine ⟨?_, ih ho⟩
    rcases hs with rfl | rfl <;> simp [Token.noPositional]

end Agree

/-! ### The order in a tree -/

theorem Join.level_ne_statement (j : Join) : j.level ≠ .statement := by
  intro heq
  have hlevel := j.level_le_expression
  rw [heq] at hlevel
  exact absurd hlevel (by decide)

/-- The scan for the order of arguments passes the tokens by, an assignment sign outside brackets
being remembered. -/
def InOrder (sign : Bool) (ts : List Token) : Prop :=
  ∀ named enclosing rest,
    namesLast named enclosing (ts ++ rest) = namesLast (named || sign) enclosing rest

namespace InOrder

variable {a b : Bool} {ts us : List Token} {t : Token}

theorem append (h : InOrder a ts) (h' : InOrder b us) : InOrder (a || b) (ts ++ us) := by
  intro named enclosing rest
  rw [List.append_assoc, h, h', Bool.or_assoc]

theorem passed (h : ∀ named enclosing rest,
    namesLast named enclosing (t :: rest) = namesLast named enclosing rest) :
    InOrder false [t] := by
  intro named enclosing rest
  rw [Bool.or_false]
  exact h ..

theorem join (j : Join) : InOrder false [j.token] := by
  refine .passed fun _ _ _ => ?_
  cases j with
  | arithmetic op | comparison op | connective op => cases op <;> rfl

theorem apply (j : Join) {l r : Expr} (hl : InOrder false l.tokens) (hr : InOrder false r.tokens) :
    InOrder (decide ((j.apply l r).level = .statement)) (j.apply l r).tokens := by
  rw [j.level_apply, decide_eq_false j.level_ne_statement, Expr.tokens_apply]
  exact hl.append ((join j).append hr)

theorem sign (s : Sign) : InOrder false [s.token] := by
  refine .passed fun _ _ _ => ?_
  cases s <;> rfl

theorem assign (x : String) : InOrder true [.name x, .symbol .assign] := by
  intro named enclosing rest
  rw [Bool.or_true]
  rfl

theorem property (p : String) : InOrder false [.symbol .dot, .name p] :=
  (InOrder.passed fun _ _ _ => rfl).append (.passed fun _ _ _ => rfl)

theorem parameters (params : List String) :
    InOrder false (.keyword .lambda :: (parameterTokens params ++ [.symbol .colon])) := by
  intro named enclosing rest
  rw [List.cons_append, List.append_assoc, Bool.or_false]
  exact Token.namesLast_parameters params

theorem enclosed {o s : Symbol} (ho : o = .openParen ∨ o = .openBracket)
    (hs : s = .closeParen ∨ s = .closeBracket) (h : InOrder a ts) :
    InOrder false (.symbol o :: (ts ++ [.symbol s])) := by
  intro named enclosing rest
  rw [List.cons_append, List.append_assoc, namesLast_open ho, h, List.singleton_append,
    namesLast_close hs, Bool.or_false]
  rfl

end InOrder

section

variable {s : Symbol} (hs : s = .closeParen ∨ s = .closeBracket) {named : Bool}
  {enclosing : List Bool} {rest : List Token}

include hs

theorem namesLast_keywordTokens {keywords : List (String × Expr)}
    (h : ∀ ke ∈ keywords, InOrder false ke.2.tokens) :
    namesLast named enclosing (commaJoined false (Expr.keywordTokens keywords) ++ .symbol s :: rest)
      = namesLast (enclosing.headD false) enclosing.tail rest := by
  induction keywords generalizing named with
  | nil => exact namesLast_close hs
  | cons ke keywords ih =>
    obtain ⟨hke, hkeywords⟩ := List.forall_mem_cons.mp h
    cases keywords with
    | nil => exact (hke ..).trans (namesLast_close hs)
    | cons ke' keywords =>
      have hnext : Token.noPositional (commaJoined false (Expr.keywordTokens (ke' :: keywords))
          ++ .symbol s :: rest) = true := by
        cases keywords <;> rfl
      have htail : namesLast true enclosing (commaJoined false
          (Expr.keywordTokens (ke' :: keywords)) ++ .symbol s :: rest) = _ := ih hkeywords
      simp only [Expr.keywordTokens, commaJoined, List.append_assoc, List.cons_append]
        at hnext htail ⊢
      refine (hke true enclosing _).trans ?_
      rw [namesLast, hnext, Bool.or_true, Bool.true_and]
      exact htail

/-- The items of a list or call up to the closing bracket, those with names last. -/
theorem namesLast_allTokens {args : List Expr} {keywords : List (String × Expr)}
    (hargs : ∀ e ∈ args, InOrder false e.tokens)
    (hkeywords : ∀ ke ∈ keywords, InOrder false ke.2.tokens) (enclosing : List Bool)
    (rest : List Token) : namesLast false enclosing
      (commaJoined false (Expr.allTokens args ++ Expr.keywordTokens keywords) ++ .symbol s :: rest)
      = namesLast (enclosing.headD false) enclosing.tail rest := by
  induction args with
  | nil => exact namesLast_keywordTokens hs hkeywords
  | cons e args ih =>
    obtain ⟨he, hargs⟩ := List.forall_mem_cons.mp hargs
    rw [Expr.allTokens, List.cons_append]
    cases htss : Expr.allTokens args ++ Expr.keywordTokens keywords with
    | nil => exact (he ..).trans (namesLast_close hs)
    | cons ts tss =>
      rw [commaJoined, List.append_assoc, he, List.cons_append, namesLast, ← htss, Bool.or_false,
        ih hargs]
      rfl

end

namespace Expr

theorem level_ne_statement {e c : Expr} (he : e.rootShaped = true) (hc : c ∈ e.children) :
    c.level ≠ .statement := by
  intro heq
  have hlevel := level_le_of_mem_children he hc
  rw [heq] at hlevel
  exact absurd hlevel (by decide)

/-- In the tokens of a tree the arguments without names come first. -/
theorem inOrder_tokens {e : Expr} (he : e.shaped = true) :
    InOrder (decide (e.level = .statement)) e.tokens := by
  induction e using childrenInduction with
  | step e ih =>
    obtain ⟨hroot, hchildren⟩ := shaped_iff.mp he
    have hc (c : Expr) (hmem : c ∈ e.children) : InOrder false c.tokens := by
      have := ih c hmem (hchildren c hmem)
      rwa [decide_eq_false (level_ne_statement hroot hmem)] at this
    cases e with
    | number | text | name => exact .passed fun _ _ _ => rfl
    | list items =>
      intro named enclosing rest
      have := namesLast_allTokens (.inr rfl) hc (List.forall_mem_nil _) (named :: enclosing) rest
      simpa [tokens, level, keywordTokens, namesLast, children] using this
    | binary op l r =>
      exact .apply (.arithmetic op) (hc l (by simp [children])) (hc r (by simp [children]))
    | compare op l r =>
      exact .apply (.comparison op) (hc l (by simp [children])) (hc r (by simp [children]))
    | connect op l r =>
      exact .apply (.connective op) (hc l (by simp [children])) (hc r (by simp [children]))
    | signed s e => exact (InOrder.sign s).append (hc e (by simp [children]))
    | negate e => exact (InOrder.passed fun _ _ _ => rfl).append (hc e (by simp [children]))
    | group e => exact (hc e (by simp [children])).enclosed (.inl rfl) (.inl rfl)
    | call f args keywords =>
      have hf := hc f (by simp [children])
      have hargs : ∀ e ∈ args, InOrder false e.tokens :=
        fun e he => hc e (by simp [children, he])
      have hkeywords : ∀ ke ∈ keywords, InOrder false ke.2.tokens := fun ke hke =>
        hc ke.2 (List.mem_cons_of_mem _ (List.mem_append_right _ (List.mem_map_of_mem hke)))
      intro named enclosing rest
      have := namesLast_allTokens (.inl rfl) hargs hkeywords (named :: enclosing) rest
      rw [tokens, List.append_assoc, hf]
      simpa [level, namesLast] using this
    | «attribute» b p => exact (hc b (by simp [children])).append (InOrder.property p)
    | subscript b i =>
      exact (hc b (by simp [children])).append
        ((hc i (by simp [children])).enclosed (.inr rfl) (.inr rfl))
    | lambda params b =>
      have := (InOrder.parameters params).append (hc b (by simp [children]))
      simpa [tokens, level] using this
    | assign x e => exact (InOrder.assign x).append (hc e (by simp [children]))

end Expr

end Reckoner
