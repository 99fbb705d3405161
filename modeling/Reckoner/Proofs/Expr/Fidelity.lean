import Reckoner.Proofs.Expr.Order

/-!
# Reading is faithful

A text that is read consists of blanks and of tokens that write the tree, and the tree is
canonical. Only two things are forgotten: commas before closing brackets, and where the
arguments with names stood among the others. So the tokens of the text are those of the
tree if and only if no argument without a name comes after one with a name.
-/

namespace Reckoner

open Token (namesLast)

/-! ### Tokens that echo -/

/-- In the scan for the order of arguments the tokens `ts` are passed by, an assignment sign
outside brackets being remembered, and they agree with `us` if the scan does not fail. -/
def Echoes (sign : Bool) (ts us : List Token) : Prop :=
  ∀ named enclosing rest, namesLast named enclosing (ts ++ rest) = true →
    Agree ts us ∧ namesLast (named || sign) enclosing rest = true

namespace Echoes

variable {a b : Bool} {ts us ts' us' : List Token}

theorem append (h : Echoes a ts us) (h' : Echoes b ts' us') :
    Echoes (a || b) (ts ++ ts') (us ++ us') := by
  intro named enclosing rest ho
  rw [List.append_assoc] at ho
  obtain ⟨hagree, ho⟩ := h _ _ _ ho
  obtain ⟨hagree', ho⟩ := h' _ _ _ ho
  rw [Bool.or_assoc] at ho
  exact ⟨hagree.append hagree', ho⟩

theorem of_inOrder (h : InOrder a ts) : Echoes a ts ts := by
  intro named enclosing rest ho
  rw [h] at ho
  exact ⟨.refl ts, ho⟩

theorem enclosed {o s : Symbol} (ho : o = .openParen ∨ o = .openBracket)
    (hs : s = .closeParen ∨ s = .closeBracket) (h : Echoes a ts us) :
    Echoes false (.symbol o :: (ts ++ [.symbol s])) (.symbol o :: (us ++ [.symbol s])) := by
  intro named enclosing rest hscan
  rw [List.cons_append, List.append_assoc, namesLast_open ho] at hscan
  obtain ⟨hagree, hscan⟩ := h _ _ _ hscan
  rw [List.singleton_append, namesLast_close hs] at hscan
  refine ⟨.cons rfl (hagree.append (.refl _)), ?_⟩
  rw [Bool.or_false]
  exact hscan

end Echoes

theorem Echoes.items {X : Type} {used wanted : X → List Token} {sign : X → Bool} {s : Symbol}
    (hs : s = .closeParen ∨ s = .closeBracket) {xs : List X}
    (h : ∀ x ∈ xs, Echoes (sign x) (used x) (wanted x)) {trailing named : Bool}
    {enclosing : List Bool} {rest : List Token}
    (ho : namesLast named enclosing
      (commaJoined trailing (xs.map used) ++ .symbol s :: rest) = true) :
    Agree (commaJoined trailing (xs.map used) ++ [.symbol s])
        (commaJoined false (xs.map wanted) ++ [.symbol s]) ∧
      namesLast (enclosing.headD false) enclosing.tail rest = true := by
  induction xs generalizing named with
  | nil => exact ⟨.refl _, (namesLast_close hs).symm.trans ho⟩
  | cons x xs ih =>
    obtain ⟨hx, hxs⟩ := List.forall_mem_cons.mp h
    cases xs with
    | cons y ys =>
      simp only [List.map_cons, commaJoined, List.append_assoc, List.cons_append] at ho ih ⊢
      obtain ⟨hagree, ho⟩ := hx _ _ _ ho
      rw [namesLast, Bool.and_eq_true] at ho
      obtain ⟨htail, hrest⟩ := ih hxs ho.2
      exact ⟨hagree.between _ htail, hrest⟩
    | nil =>
      cases trailing with
      | false =>
        obtain ⟨hagree, ho⟩ := hx _ _ _ ho
        exact ⟨hagree.append (.refl _), (namesLast_close hs).symm.trans ho⟩
      | true =>
        simp only [List.map_cons, List.map_nil, commaJoined, if_true, List.append_assoc,
          List.cons_append, List.nil_append] at ho ⊢
        obtain ⟨hagree, ho⟩ := hx _ _ _ ho
        rw [namesLast, Bool.and_eq_true] at ho
        exact ⟨hagree.append (.comma hs (.refl _)), (namesLast_close hs).symm.trans ho.2⟩

/-! ### Written trees -/

/-- An expression that is no statement does not begin like an argument with a name. -/
theorem Writes.noPositional_eq_false {ts : List Token} {e : Expr} (h : Writes ts e)
    (hs : e.shaped = true) (hl : e.level ≤ .expression) (s : Symbol) (rest : List Token)
    (hassign : s ≠ .assign) : Token.noPositional (ts ++ .symbol s :: rest) = false := by
  have hne (k : String) (us : List Token) : ts ≠ .name k :: .symbol .assign :: us := by
    have := (h.reads hs (Nat.le_refl _) hl (Nat.le_refl _)).ne_assign Stops.nil (by simp) k us
    rwa [List.append_nil] at this
  obtain ⟨t, us, rfl, ht⟩ := h.exists_begins
  unfold Token.noPositional
  split
  · rename_i k vs heq
    cases us with
    | nil =>
      cases heq
      exact absurd rfl hassign
    | cons u us =>
      cases heq
      exact absurd rfl (hne k us)
  · rename_i heq
    cases heq
    cases ht
  · rename_i heq
    cases heq
    cases ht
  · rename_i heq
    cases heq
    cases ht
  · rfl

namespace Piece

/-- The tokens of the item when its tree is written anew. -/
def rewritten (p : Piece) : List Token := { p with body := p.value.tokens }.tokens

theorem echoes (p : Piece) (h : Echoes false p.body p.value.tokens) :
    Echoes p.label.isSome p.tokens p.rewritten := by
  intro named enclosing rest ho
  cases hl : p.label with
  | none =>
    simp only [tokens, rewritten, hl] at ho ⊢
    exact h _ _ _ ho
  | some k =>
    simp only [tokens, rewritten, hl, List.cons_append, namesLast] at ho ⊢
    obtain ⟨hagree, ho⟩ := h _ _ _ ho
    refine ⟨.cons rfl (.cons rfl hagree), ?_⟩
    simpa using ho

/-- Behind the first item of a call stands a comma or the closing bracket. -/
theorem exists_commaJoined_append (ts : List Token) (tss : List (List Token)) (trailing : Bool)
    (rest : List Token) : ∃ s us, s ≠ .assign ∧
      commaJoined trailing (ts :: tss) ++ .symbol .closeParen :: rest = ts ++ .symbol s :: us := by
  cases tss with
  | nil =>
    cases trailing with
    | false => exact ⟨.closeParen, _, by decide, rfl⟩
    | true => exact ⟨.comma, _, by decide, by simp [commaJoined]; rfl⟩
  | cons us tss => exact ⟨.comma, _, by decide, List.append_assoc ..⟩

/-- If no argument without a name comes after one with a name, the arguments in the order in
which a tree is written are the pieces in their own order. -/
theorem tokens_arguments {ps : List Piece} {enclosing : List Bool} {rest : List Token}
    {trailing : Bool} (h : ∀ p ∈ ps, Echoes p.label.isSome p.tokens p.rewritten)
    (hpositional : ∀ p ∈ ps, p.label = none → ∀ s us, s ≠ .assign →
      Token.noPositional (p.body ++ .symbol s :: us) = false) {named : Bool}
    (hnamed : named = true → ∀ p ∈ ps.head?, p.label.isSome = true)
    (ho : namesLast named enclosing
      (commaJoined trailing (ps.map tokens) ++ .symbol .closeParen :: rest) = true) :
    (named = true → Grammar.positionals (ps.map argument) = []) ∧
      Expr.allTokens (Grammar.positionals (ps.map argument))
        ++ Expr.keywordTokens (Grammar.keywords (ps.map argument)) = ps.map rewritten := by
  induction ps generalizing named with
  | nil => exact ⟨fun _ => rfl, rfl⟩
  | cons p ps ih =>
    obtain ⟨hp, hps⟩ := List.forall_mem_cons.mp h
    obtain ⟨hnp, hnps⟩ := List.forall_mem_cons.mp hpositional
    have htail : ((named || p.label.isSome) = true → Grammar.positionals (ps.map argument) = []) ∧
        Expr.allTokens (Grammar.positionals (ps.map argument))
          ++ Expr.keywordTokens (Grammar.keywords (ps.map argument)) = ps.map rewritten := by
      cases ps with
      | nil => exact ⟨fun _ => rfl, rfl⟩
      | cons q qs =>
        simp only [List.map_cons, commaJoined, List.append_assoc, List.cons_append] at ho
        have ho := (hp _ _ _ ho).2
        rw [namesLast, Bool.and_eq_true, Bool.or_eq_true, Bool.not_eq_true'] at ho
        refine ih hps hnps (fun hseen q' hq' => ?_) ho.2
        obtain rfl : q = q' := by simpa using hq'
        -- else the scan would have failed at the comma before `q`
        rw [← Option.ne_none_iff_isSome]
        intro hq
        obtain ⟨s, us, hs, heq⟩ :=
          exists_commaJoined_append q.tokens (qs.map tokens) trailing rest
        have hfalse := hnps q List.mem_cons_self hq s us hs
        rw [heq, hseen] at ho
        simp [tokens, hq, hfalse] at ho
    cases hl : p.label with
    | none =>
      have hfirst : named = false := by
        rw [Bool.eq_false_iff]
        intro hn
        have := hnamed hn p rfl
        simp [hl] at this
      refine ⟨by simp [hfirst], ?_⟩
      have := congrArg (p.value.tokens :: ·) htail.2
      simpa [argument, hl, Grammar.positionals, Grammar.keywords, Expr.allTokens, rewritten,
        tokens] using this
    | some k =>
      have hnil := htail.1 (by simp [hl])
      have hrest := htail.2
      rw [hnil] at hrest
      simp [argument, hl, Grammar.positionals, Grammar.keywords, hnil, Expr.allTokens,
        Expr.keywordTokens, rewritten, tokens] at hrest ⊢
      exact hrest

end Piece

/-- A child of a canonical tree leaves no assignment sign outside brackets. -/
theorem Echoes.of_mem_children {e c : Expr} {ts us : List Token} (he : e.canonical = true)
    (hc : c ∈ e.children)
    (h : c.canonical = true → Echoes (decide (c.level = .statement)) ts us) :
    Echoes false ts us := by
  obtain ⟨hroot, -, hchildren⟩ := Expr.canonical_iff.mp he
  have := h (hchildren c hc)
  rwa [decide_eq_false (Expr.level_ne_statement hroot hc)] at this

/-- Tokens that write a canonical tree agree with the tokens of the tree, if the arguments without
names come first. -/
theorem Writes.echoes {ts : List Token} {e : Expr} (h : Writes ts e) :
    e.canonical = true → Echoes (decide (e.level = .statement)) ts e.tokens := by
  induction h with
  | number n =>
    intro hc named enclosing rest ho
    have hroot := (Expr.canonical_iff.mp hc).2.1
    exact ⟨.cons (Numeral.value_ofFloat hroot).symm .nil, by simpa [namesLast, Expr.level] using ho⟩
  | text | name => exact fun _ => .of_inOrder (.passed fun _ _ _ => rfl)
  | group inner ih =>
    intro hc
    exact (Echoes.of_mem_children hc (List.mem_singleton_self _) ih).enclosed (.inl rfl) (.inl rfl)
  | @list trailing ps items ih =>
    intro hc named enclosing rest ho
    have hitems : ∀ p ∈ ps, Echoes false p.body p.value.tokens :=
      fun p hp => .of_mem_children hc (List.mem_map_of_mem hp) (ih p hp)
    rw [List.cons_append, List.append_assoc] at ho
    obtain ⟨hagree, ho⟩ := Echoes.items (.inr rfl) hitems ho
    rw [Expr.tokens, Expr.allTokens_eq, List.map_map]
    exact ⟨.cons rfl hagree, by simpa [Expr.level] using ho⟩
  | lambda params body ih =>
    intro hc
    have := (Echoes.of_inOrder (.parameters params)).append
      (Echoes.of_mem_children hc (List.mem_singleton_self _) ih)
    simpa [Expr.tokens, Expr.level] using this
  | @call trailing ts f ps callee arguments ihf iha =>
    intro hc named enclosing rest ho
    have hvalue : ∀ p ∈ ps, p.value ∈ (Expr.call f (Grammar.positionals (ps.map Piece.argument))
        (Grammar.keywords (ps.map Piece.argument))).children := by
      exact fun p hp => List.mem_cons_of_mem f (Piece.forall_argument_iff.mp (fun _ h => h) p hp)
    have hpieces : ∀ p ∈ ps, Echoes p.label.isSome p.tokens p.rewritten :=
      fun p hp => p.echoes (.of_mem_children hc (hvalue p hp) (iha p hp))
    have hpositional : ∀ p ∈ ps, p.label = none → ∀ s us, s ≠ .assign →
        Token.noPositional (p.body ++ .symbol s :: us) = false := by
      intro p hp _ s us hs
      obtain ⟨hroot, -, hchildren⟩ := Expr.canonical_iff.mp hc
      exact (arguments p hp).noPositional_eq_false
        (Bool.and_eq_true_iff.mp (hchildren _ (hvalue p hp))).1
        (Expr.level_le_of_mem_children hroot (hvalue p hp)) s us hs
    rw [List.append_assoc, List.cons_append, List.append_assoc] at ho
    obtain ⟨hcallee, ho⟩ := Echoes.of_mem_children hc List.mem_cons_self ihf _ _ _ ho
    obtain ⟨hagree, hrest⟩ := Echoes.items (.inl rfl) hpieces ho
    obtain ⟨-, horder⟩ := Piece.tokens_arguments hpieces hpositional (by simp) ho
    rw [Expr.tokens, horder]
    exact ⟨hcallee.between _ hagree, by simpa [Expr.level] using hrest⟩
  | subscript base index ihb ihi =>
    intro hc
    have hindex := Echoes.of_mem_children hc (List.mem_cons_of_mem _ (List.mem_singleton_self _)) ihi
    exact (Echoes.of_mem_children hc List.mem_cons_self ihb).append
      (hindex.enclosed (.inr rfl) (.inr rfl))
  | property p base ih =>
    intro hc
    have hbase := Echoes.of_mem_children hc (List.mem_singleton_self _) ih
    exact hbase.append (.of_inOrder (.property p))
  | @join j ts us l r left right ihl ihr =>
    intro hc
    have hl := Echoes.of_mem_children (c := l) hc (by simp) ihl
    have hr := Echoes.of_mem_children (c := r) hc (by simp) ihr
    rw [j.level_apply, decide_eq_false j.level_ne_statement, Expr.tokens_apply]
    exact hl.append ((Echoes.of_inOrder (.join j)).append hr)
  | signed s operand ih =>
    exact fun hc => (Echoes.of_inOrder (.sign s)).append
      (Echoes.of_mem_children hc (List.mem_singleton_self _) ih)
  | negate operand ih =>
    exact fun hc => (Echoes.of_inOrder (.passed fun _ _ _ => rfl)).append
      (Echoes.of_mem_children hc (List.mem_singleton_self _) ih)
  | assign x value ih =>
    exact fun hc => (Echoes.of_inOrder (.assign x)).append
      (Echoes.of_mem_children hc (List.mem_singleton_self _) ih)

/-! ### Texts -/

/-- The tokens of a text are legible if no literal is too large. -/
theorem Token.Spaced.isLegible {cs : List Char} {ts : List Token} (h : Spaced cs ts)
    (hlarge : firstLarge? ts = none) : ∀ t ∈ ts, t.isLegible = true := by
  induction h with
  | blank hbs => simp
  | @cons bs sp cs t ts hbs hsp rest ih =>
    have hboth : firstLarge? [t] = none ∧ firstLarge? ts = none := by
      cases t with
      | number n =>
        rw [firstLarge?] at hlarge ⊢
        split at hlarge
        · rename_i hfinite
          exact ⟨if_pos hfinite, hlarge⟩
        · cases hlarge
      | _ => exact ⟨rfl, hlarge⟩
    exact List.forall_mem_cons.mpr ⟨hsp.isLegible hboth.1, ih hboth.2⟩

namespace Expr

/-- What has been checked of a text that is read. -/
theorem of_ofChars_eq_ok {limit : Nat} {cs : List Char} {e : Expr} (h : ofChars limit cs = .ok e) :
    ∃ ts, Token.list? cs = some ts ∧ Grammar.parse? ts = some e ∧ Token.firstLarge? ts = none ∧
      Nesting.bound cs ≤ limit ∧ e.depth ≤ limit := by
  unfold ofChars at h
  split at h
  · cases h
  · split at h
    · cases h
    · rename_i hfits
      split at h
      · cases h
      · rename_i ts hts
        split at h
        · cases h
        · rename_i e' he
          split at h
          · cases h
          · rename_i hlarge
            split at h
            · cases h
            · rename_i hdepth
              cases h
              have hbound : Nesting.bound cs ≤ limit :=
                Nesting.fits_iff.mp (by simpa using hfits)
              exact ⟨ts, hts, he, hlarge, hbound, Nat.le_of_not_lt hdepth⟩

/-- **Reading is faithful.** If a text is read as a tree, it consists of tokens with blanks
between them, these tokens write the tree, and the tree is canonical. The tokens agree with those
of the tree in order if and only if in every call the arguments without names come first. -/
theorem parse_faithful {limit : Nat} {text : String} {e : Expr} (h : parse limit text = .ok e) :
    e.canonical = true ∧ ∃ ts, Token.list? text.toList = some ts ∧ Token.Spaced text.toList ts ∧
      Writes ts e ∧ (Agree ts e.tokens ↔ namesLast false [] ts = true) := by
  have hok : ofChars limit text.toList = .ok e := by
    unfold parse at h
    cases hread : ofChars limit text.toList with
    | error fault =>
      rw [hread] at h
      cases h
    | ok e' =>
      rw [hread] at h
      cases h
      rfl
  obtain ⟨ts, hts, hparse, hlarge, -⟩ := of_ofChars_eq_ok hok
  obtain ⟨hw, hshaped⟩ := Grammar.parse?_eq_some_iff.mp hparse
  have hspaced := Token.spaced_of_list? hts
  have hspelled : e.spelled = true := hw.forall_isLegible_iff.mp (hspaced.isLegible hlarge)
  have hcanonical : e.canonical = true := Bool.and_eq_true_iff.mpr ⟨hshaped, hspelled⟩
  -- the tokens of the tree are in order, and so are those that agree with them
  refine ⟨hcanonical, ts, hts, hspaced, hw, fun hagree => hagree.namesLast ?_, fun ho => ?_⟩
  · rw [← List.append_nil e.tokens, inOrder_tokens hshaped]
    rfl
  · rw [← List.append_nil ts] at ho
    exact (hw.echoes hcanonical _ _ _ ho).1

/-- Both trailing commas are dropped, and nothing else. -/
theorem parse_faithful_call :
    parse 9 "f(-x, [y, 'b',], key = lambda a: a,)" = .ok (.call (.name "f")
        [.signed .minus (.name "x"), .list [.name "y", .text "b"]]
        [("key", .lambda ["a"] (.name "a"))]) ∧
      ∃ ts, Token.list? "f(-x, [y, 'b',], key = lambda a: a,)".toList = some ts ∧
        Agree ts (Expr.call (.name "f") [.signed .minus (.name "x"), .list [.name "y", .text "b"]]
          [("key", .lambda ["a"] (.name "a"))]).tokens := by
  have hparse : parse 9 "f(-x, [y, 'b',], key = lambda a: a,)" = .ok (.call (.name "f")
      [.signed .minus (.name "x"), .list [.name "y", .text "b"]]
      [("key", .lambda ["a"] (.name "a"))]) := by cbv
  obtain ⟨-, ts, hts, -, -, hagree⟩ := parse_faithful hparse
  refine ⟨hparse, ts, hts, hagree.mpr ?_⟩
  have horder : (Token.list? "f(-x, [y, 'b',], key = lambda a: a,)".toList).map
      (namesLast false []) = some true := by decide +kernel
  rw [hts] at horder
  exact Option.some.inj horder

end Expr

end Reckoner
