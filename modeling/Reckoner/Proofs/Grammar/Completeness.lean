import Reckoner.Proofs.Grammar.Soundness

/-!
# Completeness of the grammar

Tokens that write a shaped tree are read as this tree, at its own level and at every
looser one, if the text behind them stops there. A chain is read operand by operand, so
the induction speaks of the left end of a chain as well: the reader of a level reaches
the loop of this level with the tree in hand (`Reads`), and the loop goes on or ends by
what follows. With soundness, the grammar accepts exactly the tokens that write a
shaped tree (`parse?_eq_some_iff`).
-/

namespace Reckoner

open Grammar

/-! ### Readers and loops -/

/-- The reader of a level. -/
def Level.reader (again : Entry → Reader Expr) : Level → Reader Expr
  | .primary => Grammar.primary again
  | .postfixed => Grammar.postfixed again
  | .power => Grammar.power again
  | .factor => Grammar.factor again
  | .term => Grammar.term again
  | .sum => Grammar.sum again
  | .comparison => Grammar.comparison again
  | .negation => Grammar.negation again
  | .conjunction => Grammar.conjunction again
  | .expression => Grammar.expression again
  | .statement => Grammar.statement again

/-- What the reader of a level does with the tree in hand. -/
def Level.loop (again : Entry → Reader Expr) : Level → List Token → Expr → Reader Expr
  | .postfixed => suffixes again
  | .term => chain Level.term.join? (Grammar.factor again)
  | .sum => chain Level.sum.join? (Grammar.term again)
  | .comparison => chain Level.comparison.join? (Grammar.sum again)
  | .conjunction => chain Level.conjunction.join? (Grammar.negation again)
  | .expression => chain Level.expression.join? (Grammar.conjunction again)
  | _ => fun _ e rest => some (e, rest)

/-- The level at which the text behind has to stop for the loop to be reached. -/
def Level.inner : Level → Level
  | .postfixed => .primary
  | .term => .factor
  | .sum => .term
  | .comparison => .sum
  | .conjunction => .negation
  | .expression => .conjunction
  | l => l

theorem Level.inner_le (l : Level) : l.inner ≤ l := by
  cases l <;> decide

namespace Level.IsChain

variable {l : Level} {again : Entry → Reader Expr}

theorem reader_eq (h : l.IsChain) :
    l.reader again = leftToRight l.join? (l.tighter.reader again) := by
  rcases h with rfl | rfl | rfl | rfl | rfl
  · rw [← productOperator?_eq]; rfl
  · rw [← sumOperator?_eq]; rfl
  · rw [← comparisonOperator?_eq]; rfl
  · rw [← andOperator?_eq]; rfl
  · rw [← orOperator?_eq]; rfl

theorem loop_eq (h : l.IsChain) : l.loop again = chain l.join? (l.tighter.reader again) := by
  rcases h with rfl | rfl | rfl | rfl | rfl <;> rfl

theorem inner_eq (h : l.IsChain) : l.inner = l.tighter := by
  rcases h with rfl | rfl | rfl | rfl | rfl <;> rfl

theorem ne_primary (h : l.IsChain) : l ≠ .primary := by
  rcases h with rfl | rfl | rfl | rfl | rfl <;> decide

end Level.IsChain

/-- A loop ends where the text stops at its level. -/
theorem Stops.loop_eq {again : Entry → Reader Expr} {l : Level} {ts : List Token}
    (h : Stops l ts) (rounds : List Token) (e : Expr) :
    l.loop again rounds e ts = some (e, ts) := by
  have hchain (hl : l.IsChain) : l.loop again rounds e ts = some (e, ts) := by
    rw [hl.loop_eq]
    unfold chain
    split
    · rename_i t ts
      split
      · rfl
      · rename_i f hf
        obtain ⟨j, rfl, -, rfl⟩ := Level.exists_of_join? hf
        exact absurd (Stops.cons_iff.mp h _ j.binding?_token) (Nat.lt_irrefl _)
    · rfl
  cases l with
  | postfixed =>
    show suffixes again rounds e ts = some (e, ts)
    unfold suffixes
    split
    · exact absurd (Stops.cons_iff.mp h .postfixed rfl) (by decide)
    · exact absurd (Stops.cons_iff.mp h .postfixed rfl) (by decide)
    · exact absurd (Stops.cons_iff.mp h .postfixed rfl) (by decide)
    · rfl
  | term | sum | comparison | conjunction | expression => exact hchain (by simp [Level.IsChain])
  | _ => rfl

/-- At the level, the tokens are read as `e` as far as the loop of the level. -/
def Reads (again : Entry → Reader Expr) (l : Level) (used : List Token) (e : Expr) : Prop :=
  ∀ rest, Stops (e.reach l.inner) rest →
    ∃ rounds, rest.length ≤ rounds.length ∧
      l.reader again (used ++ rest) = l.loop again rounds e rest

namespace Reads

variable {again : Entry → Reader Expr} {l : Level} {used rest : List Token} {e : Expr}

/-- Where the text stops at the level, the tokens are read as `e` and nothing more. -/
theorem eq_some (h : Reads again l used e) (hs : Stops (e.reach l) rest) :
    l.reader again (used ++ rest) = some (e, rest) := by
  obtain ⟨rounds, -, heq⟩ := h rest (hs.mono (Expr.reach_le rfl l.inner_le))
  rw [heq]
  cases ho : e.endsOpen with
  | false =>
    rw [Expr.reach_of_closed ho] at hs
    exact hs.loop_eq rounds e
  | true =>
    rw [Expr.reach_of_open ho] at hs
    by_cases hl : l ≤ .expression
    · exact (hs.mono hl).loop_eq rounds e
    · cases l <;> first | rfl | exact absurd (by decide) hl

/-- The loop goes on with the token behind the tree. -/
theorem exists_round {t : Token} (h : Reads again l used e)
    (hs : Stops (e.reach l.inner) (t :: rest)) :
    ∃ r rounds, rest.length ≤ rounds.length ∧
      l.reader again (used ++ t :: rest) = l.loop again (r :: rounds) e (t :: rest) := by
  obtain ⟨rounds, hrounds, heq⟩ := h (t :: rest) hs
  obtain ⟨r, rounds, rfl⟩ := List.exists_cons_of_length_pos
    (Nat.lt_of_lt_of_le (Nat.succ_pos _) hrounds)
  exact ⟨r, rounds, Nat.le_of_succ_le_succ hrounds, heq⟩

/-! ### Looser levels -/

/-- A reader without a loop finds at once what the tighter one finds. -/
theorem of_eq_some (hin : l.inner = l)
    (h : ∀ rest, Stops (e.reach l) rest → l.reader again (used ++ rest) = some (e, rest)) :
    Reads again l used e := by
  intro rest hs
  rw [hin] at hs
  refine ⟨rest, Nat.le_refl _, ?_⟩
  rw [h rest hs]
  cases l <;> first | rfl | cases hin

theorem chain_of_tighter (hl : l.IsChain) (h : Reads again l.tighter used e) :
    Reads again l used e := by
  intro rest hs
  rw [hl.inner_eq] at hs
  refine ⟨rest, Nat.le_refl _, ?_⟩
  rw [hl.reader_eq, hl.loop_eq, leftToRight, h.eq_some hs]

theorem postfixed_of_primary (h : Reads again .primary used e) :
    Reads again .postfixed used e := by
  intro rest hs
  have hp : primary again (used ++ rest) = some (e, rest) := h.eq_some hs
  refine ⟨rest, Nat.le_refl _, ?_⟩
  show postfixed again (used ++ rest) = suffixes again rest e rest
  rw [postfixed, hp]

theorem power_of_postfixed (h : Reads again .postfixed used e) : Reads again .power used e := by
  refine of_eq_some rfl fun rest hs => ?_
  have hp : postfixed again (used ++ rest) = some (e, rest) :=
    h.eq_some (hs.mono (Expr.reach_le rfl (by decide)))
  show power again (used ++ rest) = some (e, rest)
  rw [power, hp]
  split
  · rename_i heq
    cases heq
    -- a `**` would go on with the expression
    have := hs.closed (b := .power) rfl (by decide)
    rw [Expr.reach_of_closed this] at hs
    exact absurd (Stops.cons_iff.mp hs .power rfl) (by decide)
  · rfl

theorem factor_of_power (h : Reads again .power used e) : Reads again .factor used e := by
  refine of_eq_some rfl fun rest hs => ?_
  have hp : power again (used ++ rest) = some (e, rest) :=
    h.eq_some (hs.mono (Expr.reach_le rfl (by decide)))
  show factor again (used ++ rest) = some (e, rest)
  unfold factor
  -- no power begins with a sign
  split
  · rename_i heq
    rw [heq] at hp
    cases hp
  · rename_i heq
    rw [heq] at hp
    cases hp
  · exact hp

theorem negation_of_comparison (h : Reads again .comparison used e) :
    Reads again .negation used e := by
  refine of_eq_some rfl fun rest hs => ?_
  have hc : comparison again (used ++ rest) = some (e, rest) :=
    h.eq_some (hs.mono (Expr.reach_le rfl (by decide)))
  show negation again (used ++ rest) = some (e, rest)
  unfold negation
  -- no comparison begins with `not`
  split
  · rename_i heq
    rw [heq] at hc
    cases hc
  · exact hc

theorem of_tighter (hl : l ≠ .primary) (hle : l ≤ .expression)
    (h : Reads again l.tighter used e) : Reads again l used e := by
  cases l with
  | primary => exact absurd rfl hl
  | postfixed => exact postfixed_of_primary h
  | power => exact power_of_postfixed h
  | factor => exact factor_of_power h
  | negation => exact negation_of_comparison h
  | term | sum | comparison | conjunction | expression =>
    exact chain_of_tighter (by simp [Level.IsChain]) h
  | statement => exact absurd hle (by decide)

/-- What is read at a level is read at every looser one. -/
theorem mono {m : Level} (h : Reads again l used e) (hlm : l ≤ m) (hm : m ≤ .expression) :
    Reads again m used e := by
  by_cases heq : m = l
  · exact heq ▸ h
  · have hlt : l < m := Nat.lt_of_le_of_ne hlm fun hr => heq (by cases l <;> cases m <;> trivial)
    have hne : m ≠ .primary := by
      rintro rfl
      exact absurd hlt (Nat.not_lt_zero _)
    -- the next tighter level is `l` or still looser
    exact of_tighter hne hm
      (mono h ((Level.le_tighter_iff hne).mpr hlt) (Nat.le_trans m.tighter_le hm))
termination_by m.rank
decreasing_by cases m <;> first | exact absurd rfl hne | decide

end Reads

/-! ### Lists -/

section

variable {close : Symbol} {item : Reader α} {r : Token} {rounds ts rest : List Token} {a : α}

theorem Grammar.items_close :
    items close item rounds (.symbol close :: rest) = some ([], rest) := by
  unfold items
  exact if_pos rfl

theorem Grammar.items_last (hts : ts.head? ≠ some (.symbol close))
    (ha : item ts = some (a, .symbol close :: rest)) :
    items close item (r :: rounds) ts = some ([a], rest) := by
  unfold items
  dsimp only
  rw [if_neg hts]
  simp only [ha, if_true]

theorem Grammar.items_comma (hclose : close ≠ .comma) (hts : ts.head? ≠ some (.symbol close))
    (ha : item ts = some (a, .symbol .comma :: rest)) :
    items close item (r :: rounds) ts
      = (items close item rounds rest).map fun (as, r) => (a :: as, r) := by
  conv => lhs; unfold items
  dsimp only
  rw [if_neg hts]
  simp only [ha, if_neg hclose.symm, if_true]

end

theorem length_le_commaJoined (trailing : Bool) (tss : List (List Token)) (t : Token)
    (rest : List Token) : tss.length ≤ (commaJoined trailing tss ++ t :: rest).length := by
  induction tss with
  | nil => exact Nat.zero_le _
  | cons ts tss ih =>
    cases tss with
    | nil =>
      simp only [List.length_append, List.length_cons, List.length_nil]
      omega
    | cons us tss =>
      simp only [commaJoined, List.length_append, List.length_cons] at ih ⊢
      omega

/-- Items with commas between them are read one by one up to the closing bracket. -/
theorem Grammar.items_eq_some_of_rounds {P : Type} {tokens : P → List Token} {value : P → α}
    {close : Symbol} {item : Reader α} (hclose : close ≠ .comma)
    (hempty : ∀ ts, item (.symbol close :: ts) = none) {ps : List P}
    (hitem : ∀ p ∈ ps, ∀ s ts, s = close ∨ s = .comma →
      item (tokens p ++ .symbol s :: ts) = some (value p, .symbol s :: ts))
    (trailing : Bool) (rest : List Token) {rounds : List Token}
    (hrounds : ps.length ≤ rounds.length) :
    items close item rounds (commaJoined trailing (ps.map tokens) ++ .symbol close :: rest)
      = some (ps.map value, rest) := by
  induction ps generalizing rounds with
  | nil => exact items_close
  | cons p ps ih =>
    obtain ⟨r, rounds, rfl⟩ := List.exists_cons_of_length_pos
      (Nat.lt_of_lt_of_le (Nat.succ_pos _) hrounds)
    have hp (s : Symbol) (ts : List Token) := hitem p List.mem_cons_self s ts
    -- an item does not begin with the closing bracket
    have hhead {s : Symbol} {ts : List Token} (hs : s = close ∨ s = .comma) :
        (tokens p ++ .symbol s :: ts).head? ≠ some (.symbol close) := by
      intro heq
      obtain ⟨us, hus⟩ := List.head?_eq_some_iff.mp heq
      have := hp s ts hs
      rw [hus, hempty] at this
      cases this
    have ih := ih (fun q hq => hitem q (List.mem_cons_of_mem p hq)) (Nat.le_of_succ_le_succ hrounds)
    cases ps with
    | cons q qs =>
      simp only [List.map_cons, commaJoined, List.append_assoc, List.cons_append] at ih ⊢
      rw [items_comma hclose (hhead (.inr rfl)) (hp _ _ (.inr rfl)), ih, Option.map_some]
    | nil =>
      cases trailing with
      | false => exact items_last (hhead (.inl rfl)) (hp _ _ (.inl rfl))
      | true =>
        simp only [List.map_cons, List.map_nil, commaJoined, if_true, List.append_assoc,
          List.cons_append, List.nil_append]
        rw [items_comma hclose (hhead (.inr rfl)) (hp _ _ (.inr rfl)), items_close, Option.map_some]

theorem Grammar.items_eq_some {P : Type} {tokens : P → List Token} {value : P → α}
    {close : Symbol} {item : Reader α} (hclose : close ≠ .comma)
    (hempty : ∀ ts, item (.symbol close :: ts) = none) {ps : List P}
    (hitem : ∀ p ∈ ps, ∀ s ts, s = close ∨ s = .comma →
      item (tokens p ++ .symbol s :: ts) = some (value p, .symbol s :: ts))
    (trailing : Bool) (rest : List Token) :
    items close item (commaJoined trailing (ps.map tokens) ++ .symbol close :: rest)
      (commaJoined trailing (ps.map tokens) ++ .symbol close :: rest)
      = some (ps.map value, rest) :=
  items_eq_some_of_rounds hclose hempty hitem trailing rest
    (by simpa using length_le_commaJoined trailing (ps.map tokens) (.symbol close) rest)

theorem Grammar.parameters?_eq_some (params : List String) (rest : List Token) :
    parameters? (parameterTokens params ++ .symbol .colon :: rest) = some (params, rest) := by
  have hone (p : String) (ps : List String) :
      parameters (parameterTokens (p :: ps) ++ .symbol .colon :: rest) = some (p :: ps, rest) := by
    induction ps generalizing p with
    | nil => rfl
    | cons q qs ih =>
      have := ih q
      simp only [parameterTokens, List.map_cons, commaJoined, List.cons_append,
        List.nil_append] at this ⊢
      rw [parameters, this, Option.map_some]
  cases params with
  | nil => rfl
  | cons p ps =>
    rw [← hone p ps]
    cases ps <;> rfl

/-! ### Trees -/

/-- The reader of expressions, entered again, reads the tokens as `e`. -/
theorem Reads.again_eq_some {n : Nat} {used rest : List Token} {e : Expr}
    (h : Reads (read n) .expression used e) (hs : Stops .expression rest) :
    read (n + 1) .expression (used ++ rest) = some (e, rest) :=
  h.eq_some (by unfold Expr.reach; rwa [ite_self])

/-- An expression is not followed by an assignment sign if it is a name. -/
theorem Reads.ne_assign {n : Nat} {used rest : List Token} {e : Expr}
    (h : Reads (read n) .expression used e) (hs : Stops .expression rest)
    (hrest : rest.head? ≠ some (.symbol .assign)) (k : String) (ts : List Token) :
    used ++ rest ≠ .name k :: .symbol .assign :: ts := by
  intro heq
  have hleft := h.again_eq_some hs
  have hname : Reads (read n) .primary [.name k] (.name k) :=
    fun rest _ => ⟨rest, Nat.le_refl _, rfl⟩
  have hright := (hname.mono (by decide) (Nat.le_refl _)).again_eq_some
    (show Stops .expression (.symbol .assign :: ts) from .cons_of_none rfl)
  rw [heq, show Token.name k :: .symbol .assign :: ts = [.name k] ++ .symbol .assign :: ts from rfl,
    hright] at hleft
  cases hleft
  exact hrest rfl

/-- The reader of arguments reads a piece as its argument. -/
theorem Piece.argument_eq_some {n : Nat} {p : Piece} {s : Symbol} {ts : List Token}
    (h : Reads (read n) .expression p.body p.value) (hs : s = .closeParen ∨ s = .comma) :
    Grammar.argument (read (n + 1)) (p.tokens ++ .symbol s :: ts)
      = some (p.argument, .symbol s :: ts) := by
  have hstops : Stops .expression (.symbol s :: ts) :=
    .cons_of_none (by rcases hs with rfl | rfl <;> rfl)
  have hbody := h.again_eq_some hstops
  cases hl : p.label with
  | some k =>
    simp only [Piece.tokens, Piece.argument, hl, List.cons_append, Grammar.argument, hbody,
      Option.map_some]
  | none =>
    have hne := h.ne_assign hstops (by rcases hs with rfl | rfl <;> simp)
    simp only [Piece.tokens, Piece.argument, hl]
    unfold Grammar.argument
    split
    · rename_i k us heq
      exact absurd heq (hne k us)
    · rw [hbody, Option.map_some]

/-! ### One construct -/

namespace Reads

variable {n : Nat} {l : Level} {ts us : List Token} {e e' : Expr} {ps : List Piece}

theorem group (h : Reads (Grammar.read n) .expression ts e) :
    Reads (Grammar.read (n + 1)) .primary (.symbol .openParen :: (ts ++ [.symbol .closeParen]))
      (.group e) := by
  refine of_eq_some rfl fun rest _ => ?_
  show primary _ (.symbol .openParen :: (ts ++ [.symbol .closeParen] ++ rest)) = _
  rw [List.append_assoc, List.singleton_append, primary, h.again_eq_some (.cons_of_none rfl)]

theorem list (trailing : Bool) (h : ∀ p ∈ ps, Reads (Grammar.read n) .expression p.body p.value) :
    Reads (Grammar.read (n + 1)) .primary (.symbol .openBracket ::
      (commaJoined trailing (ps.map Piece.body) ++ [.symbol .closeBracket]))
      (.list (ps.map Piece.value)) := by
  refine of_eq_some rfl fun rest _ => ?_
  have hitem : ∀ p ∈ ps, ∀ s ts, s = .closeBracket ∨ s = .comma →
      Grammar.read (n + 1) .expression (p.body ++ .symbol s :: ts)
        = some (p.value, .symbol s :: ts) :=
    fun p hp s ts hs => (h p hp).again_eq_some (.cons_of_none (by rcases hs with rfl | rfl <;> rfl))
  show primary _ (.symbol .openBracket :: (_ ++ [.symbol .closeBracket] ++ rest)) = _
  rw [List.append_assoc, List.singleton_append, primary,
    items_eq_some (by decide) (fun _ => rfl) hitem trailing rest, Option.map_some]

theorem lambda (params : List String) (h : Reads (Grammar.read n) .expression ts e) :
    Reads (Grammar.read (n + 1)) .primary
      (.keyword .lambda :: (parameterTokens params ++ .symbol .colon :: ts))
      (.lambda params e) := by
  refine of_eq_some rfl fun rest hs => ?_
  -- what follows the lambda follows its body
  have hbody := h.again_eq_some hs
  show primary _ (.keyword .lambda :: (_ ++ .symbol .colon :: ts ++ rest)) = _
  rw [List.append_assoc, List.cons_append, primary, parameters?_eq_some]
  simp only [hbody, Option.map_some]

theorem call (trailing : Bool) (hf : Reads (Grammar.read (n + 1)) .postfixed ts e)
    (h : ∀ p ∈ ps, Reads (Grammar.read n) .expression p.body p.value)
    (hclosed : e.endsOpen = false) :
    Reads (Grammar.read (n + 1)) .postfixed (ts ++ .symbol .openParen ::
        (commaJoined trailing (ps.map Piece.tokens) ++ [.symbol .closeParen]))
      (.call e (positionals (ps.map Piece.argument)) (keywords (ps.map Piece.argument))) := by
  intro rest _
  have hstops : Stops (e.reach .primary) (.symbol .openParen ::
      (commaJoined trailing (ps.map Piece.tokens) ++ .symbol .closeParen :: rest)) :=
    Expr.reach_of_closed hclosed ▸ .of_primary
  obtain ⟨r, rounds, hrounds, heq⟩ := hf.exists_round hstops
  refine ⟨rounds, by simp at hrounds; omega, ?_⟩
  have hitem : ∀ p ∈ ps, ∀ s ts, s = .closeParen ∨ s = .comma →
      argument (Grammar.read (n + 1)) (p.tokens ++ .symbol s :: ts)
        = some (p.argument, .symbol s :: ts) :=
    fun p hp s ts hs => p.argument_eq_some (h p hp) hs
  rw [List.append_assoc, List.cons_append, List.append_assoc, List.singleton_append, heq]
  show suffixes _ (r :: rounds) e (.symbol .openParen :: _) = suffixes _ rounds _ rest
  rw [suffixes, items_eq_some (by decide) (fun _ => rfl) hitem trailing rest]

theorem subscript (hb : Reads (Grammar.read (n + 1)) .postfixed ts e)
    (h : Reads (Grammar.read n) .expression us e') (hclosed : e.endsOpen = false) :
    Reads (Grammar.read (n + 1)) .postfixed
      (ts ++ .symbol .openBracket :: (us ++ [.symbol .closeBracket])) (.subscript e e') := by
  intro rest _
  have hstops : Stops (e.reach .primary)
      (.symbol .openBracket :: (us ++ .symbol .closeBracket :: rest)) :=
    Expr.reach_of_closed hclosed ▸ .of_primary
  obtain ⟨r, rounds, hrounds, heq⟩ := hb.exists_round hstops
  refine ⟨rounds, by simp at hrounds; omega, ?_⟩
  rw [List.append_assoc, List.cons_append, List.append_assoc, List.singleton_append, heq]
  show suffixes _ (r :: rounds) e (.symbol .openBracket :: _) = suffixes _ rounds _ rest
  rw [suffixes, h.again_eq_some (.cons_of_none rfl)]

theorem property (p : String) {again : Entry → Reader Expr} (hb : Reads again .postfixed ts e)
    (hclosed : e.endsOpen = false) :
    Reads again .postfixed (ts ++ [.symbol .dot, .name p]) (.attribute e p) := by
  intro rest _
  have hstops : Stops (e.reach .primary) (.symbol .dot :: .name p :: rest) :=
    Expr.reach_of_closed hclosed ▸ .of_primary
  obtain ⟨r, rounds, hrounds, heq⟩ := hb.exists_round hstops
  refine ⟨rounds, by simp at hrounds; omega, ?_⟩
  rw [List.append_assoc]
  exact heq

theorem power (hb : Reads (Grammar.read (n + 1)) .postfixed ts e)
    (hx : Reads (Grammar.read n) .factor us e') (hclosed : e.endsOpen = false) :
    Reads (Grammar.read (n + 1)) .power (ts ++ .symbol .power :: us) (.binary .power e e') := by
  refine of_eq_some rfl fun rest hs => ?_
  have hbase : postfixed _ (ts ++ .symbol .power :: (us ++ rest))
      = some (e, .symbol .power :: (us ++ rest)) :=
    hb.eq_some (by rw [Expr.reach_of_closed hclosed, Stops.cons_iff]; rintro b ⟨⟩; decide)
  have hs' : Stops (e'.reach .factor) rest := by
    cases ho : e'.endsOpen with
    | true =>
      rw [Expr.reach_of_open (by simpa [Expr.endsOpen] using ho)] at hs
      exact Expr.reach_of_open ho ▸ hs
    | false =>
      rw [Expr.reach_of_closed (by simpa [Expr.endsOpen] using ho)] at hs
      exact Expr.reach_of_closed ho ▸ hs.factor_of_power
  have hexp : Grammar.read (n + 1) .factor (us ++ rest) = some (e', rest) := hx.eq_some hs'
  show Grammar.power _ (ts ++ .symbol .power :: us ++ rest) = _
  rw [List.append_assoc, List.cons_append, Grammar.power, hbase]
  simp only [hexp, Option.map_some]

theorem join {again : Entry → Reader Expr} {j : Join} (hl : j.level.IsChain)
    (hleft : Reads again j.level ts e) (hright : Reads again j.level.tighter us e')
    (hclosed : e.endsOpen = false) :
    Reads again j.level (ts ++ j.token :: us) (j.apply e e') := by
  intro rest hs
  rw [hl.inner_eq] at hs
  have hstops : Stops (e.reach j.level.inner) (j.token :: (us ++ rest)) := by
    rw [Expr.reach_of_closed hclosed, hl.inner_eq, Stops.cons_iff, j.binding?_token]
    rintro b ⟨⟩
    exact (Level.le_tighter_iff hl.ne_primary).mp (Nat.le_refl _)
  obtain ⟨r, rounds, hrounds, heq⟩ := hleft.exists_round hstops
  refine ⟨rounds, by simp at hrounds; omega, ?_⟩
  have hoperand := hright.eq_some
    (hs.mono (Expr.reach_le (j.endsOpen_apply e e').symm (Nat.le_refl _)))
  rw [List.append_assoc, List.cons_append, heq, hl.loop_eq, chain, Level.join?_token rfl]
  simp only [hoperand]

theorem signed (s : Sign) {again : Entry → Reader Expr} (h : Reads again .factor ts e) :
    Reads again .factor (s.token :: ts) (.signed s e) := by
  refine of_eq_some rfl fun rest hs => ?_
  have hoperand : factor again (ts ++ rest) = some (e, rest) := h.eq_some hs
  show factor again (s.token :: (ts ++ rest)) = _
  cases s <;> simp only [Sign.token, factor, hoperand, Option.map_some]

theorem negate (h : Reads (Grammar.read n) .negation ts e) :
    Reads (Grammar.read (n + 1)) .negation (.keyword .not :: ts) (.negate e) := by
  refine of_eq_some rfl fun rest hs => ?_
  have hoperand : Grammar.read (n + 1) .negation (ts ++ rest) = some (e, rest) := h.eq_some hs
  show negation _ (.keyword .not :: (ts ++ rest)) = _
  rw [negation, hoperand, Option.map_some]

end Reads

/-! ### Whole trees -/

theorem length_le_of_mem_commaJoined (trailing : Bool) {ts : List Token} {tss : List (List Token)}
    (h : ts ∈ tss) : ts.length ≤ (commaJoined trailing tss).length := by
  induction tss with
  | nil => cases h
  | cons us tss ih =>
    cases tss with
    | nil =>
      obtain rfl := List.mem_singleton.mp h
      cases trailing <;> simp [commaJoined]
    | cons vs tss =>
      simp only [commaJoined, List.length_append, List.length_cons]
      rcases List.mem_cons.mp h with rfl | h
      · omega
      · have := ih h
        omega

theorem Piece.body_length_le (p : Piece) : p.body.length ≤ p.tokens.length := by
  unfold tokens
  split
  · exact Nat.le_refl _
  · simp only [List.length_cons]
    omega

theorem Join.isChain_or_power (j : Join) : j.level.IsChain ∨ j = .arithmetic .power := by
  cases j with
  | arithmetic op => cases op <;> simp [Level.IsChain, level, Operator.level]
  | comparison op => simp [Level.IsChain, level]
  | connective op => cases op <;> simp [Level.IsChain, level, Connective.level]

/-- Tokens that write a shaped tree are read as this tree at its level and at every looser one,
with as many entries to spend as there are tokens. -/
theorem Writes.reads {used : List Token} {e : Expr} (h : Writes used e) :
    ∀ {n : Nat} {l : Level}, e.shaped = true → used.length ≤ n → e.level ≤ l → l ≤ .expression →
      Reads (Grammar.read n) l used e := by
  -- an entry is spent on each construct that encloses another
  have hspend {n k : Nat} (hn : k + 1 ≤ n) : ∃ m, k ≤ m ∧ n = m + 1 :=
    ⟨n - 1, by omega, by omega⟩
  induction h with
  | number n => exact fun _ _ hl hle => (Reads.of_eq_some rfl fun _ _ => rfl).mono hl hle
  | text body => exact fun _ _ hl hle => (Reads.of_eq_some rfl fun _ _ => rfl).mono hl hle
  | name id => exact fun _ _ hl hle => (Reads.of_eq_some rfl fun _ _ => rfl).mono hl hle
  | list trailing items ih =>
    intro n l hs hn hl hle
    obtain ⟨hroot, hchild⟩ := Expr.shaped_iff.mp hs
    simp only [Expr.rootShaped, Expr.children, List.all_eq_true, List.forall_mem_map,
      decide_eq_true_eq] at hroot hchild
    obtain ⟨m, hm, rfl⟩ := hspend hn
    refine (Reads.list trailing fun p hp => ?_).mono hl hle
    have hlen := length_le_of_mem_commaJoined trailing
      (List.mem_map_of_mem (f := Piece.body) hp)
    rw [List.length_append] at hm
    exact ih p hp (hchild p hp) (by omega) (hroot p hp) (Nat.le_refl _)
  | group inner ih =>
    intro n l hs hn hl hle
    obtain ⟨hroot, hchild⟩ := Expr.shaped_iff.mp hs
    simp only [Expr.rootShaped, Expr.children, List.forall_mem_singleton,
      decide_eq_true_eq] at hroot hchild
    obtain ⟨m, hm, rfl⟩ := hspend hn
    rw [List.length_append] at hm
    exact (ih hchild (by omega) hroot (Nat.le_refl _)).group.mono hl hle
  | lambda params body ih =>
    intro n l hs hn hl hle
    obtain ⟨hroot, hchild⟩ := Expr.shaped_iff.mp hs
    simp only [Expr.rootShaped, Expr.children, List.forall_mem_singleton,
      decide_eq_true_eq] at hroot hchild
    obtain ⟨m, hm, rfl⟩ := hspend hn
    rw [List.length_append, List.length_cons] at hm
    exact ((ih hchild (by omega) hroot (Nat.le_refl _)).lambda params).mono hl hle
  | call trailing callee arguments ihf iha =>
    intro n l hs hn hl hle
    obtain ⟨hroot, hchild⟩ := Expr.shaped_iff.mp hs
    obtain ⟨hbase, hlevels⟩ := Expr.rootShaped_call_iff.mp hroot
    simp only [Expr.isBase, Bool.and_eq_true, Bool.not_eq_true', decide_eq_true_eq] at hbase
    rw [Expr.children, List.forall_mem_cons] at hchild
    have hargs := (Piece.forall_argument_iff (P := fun e => e.shaped = true)).mp hchild.2
    rw [List.length_append, List.length_cons, List.length_append] at hn
    obtain ⟨m, hm, rfl⟩ := hspend hn
    refine (Reads.call trailing (ihf hchild.1 (by omega) hbase.1 (by decide)) (fun p hp => ?_)
      hbase.2).mono hl hle
    have hlen := length_le_of_mem_commaJoined trailing
      (List.mem_map_of_mem (f := Piece.tokens) hp)
    have := p.body_length_le
    exact iha p hp (hargs p hp) (by omega) (hlevels p hp) (Nat.le_refl _)
  | subscript base index ihb ihi =>
    intro n l hs hn hl hle
    obtain ⟨hroot, hchild⟩ := Expr.shaped_iff.mp hs
    simp only [Expr.rootShaped, Expr.isBase, Expr.children, Bool.and_eq_true, Bool.not_eq_true',
      decide_eq_true_eq, List.forall_mem_cons] at hroot hchild
    rw [List.length_append, List.length_cons, List.length_append] at hn
    obtain ⟨m, hm, rfl⟩ := hspend hn
    exact ((ihb hchild.1 (by omega) hroot.1.1 (by decide)).subscript
      (ihi hchild.2.1 (by omega) hroot.2 (Nat.le_refl _)) hroot.1.2).mono hl hle
  | property p base ih =>
    intro n l hs hn hl hle
    obtain ⟨hroot, hchild⟩ := Expr.shaped_iff.mp hs
    simp only [Expr.rootShaped, Expr.isBase, Expr.children, Bool.and_eq_true, Bool.not_eq_true',
      decide_eq_true_eq, List.forall_mem_singleton] at hroot hchild
    rw [List.length_append] at hn
    exact ((ih hchild (by omega) hroot.1 (by decide)).property p hroot.2).mono hl hle
  | join j left right ihl ihr =>
    intro n l hs hn hl hle
    obtain ⟨hroot, hchild⟩ := Expr.shaped_iff.mp hs
    rw [j.children_apply, List.forall_mem_cons, List.forall_mem_singleton] at hchild
    obtain ⟨hbase, hlevel⟩ := Join.rootShaped_apply_iff.mp hroot
    simp only [Expr.isBase, Bool.and_eq_true, Bool.not_eq_true', decide_eq_true_eq] at hbase
    rw [j.level_apply] at hl
    rw [List.length_append, List.length_cons] at hn
    rcases j.isChain_or_power with hj | rfl
    · rw [hj.leftLevel rfl] at hbase
      rw [hj.rightLevel rfl] at hlevel
      exact (Reads.join hj (ihl hchild.1 (by omega) hbase.1 hj.le_expression)
        (ihr hchild.2 (by omega) hlevel (Nat.le_trans j.level.tighter_le hj.le_expression))
        hbase.2).mono hl hle
    · obtain ⟨m, hm, rfl⟩ := hspend hn
      exact ((ihl hchild.1 (by omega) hbase.1 (by decide)).power
        (ihr hchild.2 (by omega) hlevel (by decide)) hbase.2).mono hl hle
  | signed s operand ih =>
    intro n l hs hn hl hle
    obtain ⟨hroot, hchild⟩ := Expr.shaped_iff.mp hs
    simp only [Expr.rootShaped, Expr.children, List.forall_mem_singleton,
      decide_eq_true_eq] at hroot hchild
    rw [List.length_cons] at hn
    exact ((ih hchild (by omega) hroot (by decide)).signed s).mono hl hle
  | negate operand ih =>
    intro n l hs hn hl hle
    obtain ⟨hroot, hchild⟩ := Expr.shaped_iff.mp hs
    simp only [Expr.rootShaped, Expr.children, List.forall_mem_singleton,
      decide_eq_true_eq] at hroot hchild
    obtain ⟨m, hm, rfl⟩ := hspend hn
    exact (ih hchild (by omega) hroot (by decide)).negate.mono hl hle
  | assign x value => exact fun _ _ hl hle => absurd (Nat.le_trans hl hle) (Nat.lt_irrefl 9)

/-- The only statements that are no expressions are assignments. -/
theorem Writes.assign_of_not_le {ts : List Token} {e : Expr} (h : Writes ts e)
    (hl : ¬ e.level ≤ .expression) :
    ∃ x us v, ts = .name x :: .symbol .assign :: us ∧ e = .assign x v ∧ Writes us v := by
  cases h with
  | assign x value => exact ⟨x, _, _, rfl, rfl, value⟩
  | join j => exact absurd (j.level_apply _ _ ▸ j.level_le_expression) hl
  | _ => exact absurd (Nat.le_of_ble_eq_true rfl) hl

namespace Grammar

/-- With entries enough, the grammar reads what the tokens write, if it is shaped. -/
theorem parseWithin_eq_some {n : Nat} {ts : List Token} {e : Expr} (hn : ts.length ≤ n)
    (hw : Writes ts e) (hs : e.shaped = true) : parseWithin n ts = some e := by
  by_cases hl : e.level ≤ .expression
  · have hread := hw.reads hs hn hl (Nat.le_refl _)
    have hne := hread.ne_assign Stops.nil (by simp)
    have heq : expression (read n) (ts ++ []) = some (e, []) := hread.eq_some .nil
    rw [List.append_nil] at heq hne
    have hstatement : statement (read n) ts = some (e, []) := by
      unfold statement
      split
      · rename_i k us
        exact absurd rfl (hne k us)
      · exact heq
    rw [parseWithin, hstatement]
  · obtain ⟨x, us, v, rfl, rfl, hv⟩ := hw.assign_of_not_le hl
    obtain ⟨hroot, hchild⟩ := Expr.shaped_iff.mp hs
    simp only [Expr.rootShaped, Expr.children, List.forall_mem_singleton,
      decide_eq_true_eq] at hroot hchild
    simp only [List.length_cons] at hn
    obtain ⟨n, rfl⟩ := Nat.exists_eq_add_one_of_ne_zero (n := n) (by omega)
    have heq := (hv.reads hchild (by omega) hroot (Nat.le_refl _)).again_eq_some (n := n) .nil
    rw [List.append_nil] at heq
    rw [parseWithin, statement, heq, Option.map_some]

/-- The grammar accepts the tokens that write a shaped tree, as this tree. -/
theorem parse?_eq_some_iff {ts : List Token} {e : Expr} :
    parse? ts = some e ↔ Writes ts e ∧ e.shaped = true :=
  ⟨writes_of_parseWithin, fun h => parseWithin_eq_some (Nat.le_refl _) h.1 h.2⟩

end Grammar

end Reckoner
