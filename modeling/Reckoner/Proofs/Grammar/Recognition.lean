import Mathlib.Data.List.TakeWhile
import Reckoner.Proofs.Grammar.Completeness
import Reckoner.Proofs.Grammar.Pieces

/-!
# The rules and their readers

Each rule of the recogniser agrees with the reader of the same name, by induction on the rules
that may be open (`enter_agrees`). So with the same allowance the recogniser and the reader find
the same of a whole text (`recognize_eq`); and where the recogniser does not give up, its answer
is that of the grammar without a limit (`recognize_eq_parse?`).
-/

namespace Reckoner.Grammar

variable {n : Nat} {cs rest : List Char} {t : Token} {ts us : List Token}

/-! ### Single pieces -/

section

variable {p q : Pattern}

/-- An alternative that reads a token first is passed over where it cannot begin. -/
theorem run_choice_skip (hts : Token.list? cs = some (t :: ts))
    (hp : p.nullable = false ∧ p.guarded = true ∧ p.starts t = false) :
    (Pattern.choice p q).run (enter n) cs = q.run (enter n) cs :=
  Pattern.run_choice_of_left_failed (run_eq_failed hp.1 hp.2.1 hts (by rintro _ ⟨⟩; exact hp.2.2))

/-- An alternative is all that matters where the later ones cannot begin. -/
theorem run_choice_keep (hts : Token.list? cs = some (t :: ts))
    (hq : q.nullable = false ∧ q.guarded = true ∧ q.starts t = false) :
    (Pattern.choice p q).run (enter n) cs = p.run (enter n) cs :=
  Pattern.run_choice_of_right_failed (run_eq_failed hq.1 hq.2.1 hts (by rintro _ ⟨⟩; exact hq.2.2))

end

/-- Where something is matched that is not empty, a token stands with which it can begin. -/
theorem any_starts_of_matched {p : Pattern} (hp : p.nullable = false)
    (hts : Token.list? cs = some ts) (hmatched : p.run (enter n) cs = .matched rest) :
    ts.head?.any p.starts = true := by
  cases hany : ts.head?.any p.starts with
  | true => rfl
  | false =>
    have hstarts : ∀ t ∈ ts.head?, p.starts t = false := by
      intro t ht
      rw [ht] at hany
      exact hany
    rcases p.run_of_not_starts hts (fun h => enter_of_not_begins hts h) hstarts with
      h | ⟨hn, -⟩ | ⟨-, h⟩
    · rw [hmatched] at h
      cases h
    · rw [hp] at hn
      cases hn
    · rw [hmatched] at h
      cases h

/-- What is no label is an argument by position. -/
theorem argument_eq_positional (again : Entry → Reader Expr)
    (hlabel : ¬∃ k us, ts = .name k :: .symbol .assign :: us) :
    argument again ts = (again .expression ts).map fun (e, rest) => (.positional e, rest) := by
  unfold argument
  split
  · exact absurd ⟨_, _, rfl⟩ hlabel
  · rfl

section

variable {again : Entry → Reader Expr} (hagain : ∀ k, Agrees n (.again k) (again k))

include hagain

theorem again_itemizes : Itemizes n (.again .expression) (again .expression) where
  accords _ _ hts := (hagain .expression hts).mono fun _ => .inl
  begins _ _ _ hts hmatched := any_starts_of_matched (p := .again .expression) rfl hts hmatched
  nullable := rfl

theorem argument_itemizes (hassign : EndsAtAssign (again .expression)) :
    Itemizes n .argument (argument again) where
  accords _ _ hts := by
    exact choice_labelled_accords hagain (hagain .expression) hassign (g := .positional)
      (fun _ _ => rfl) (fun ts hnot => argument_eq_positional again hnot) hts
  begins cs rest ts hts hmatched := by
    have hstarts := any_starts_of_matched (p := .argument) rfl hts hmatched
    cases ts with
    | nil => cases hstarts
    | cons t ts => cases t <;> first | rfl | exact hstarts
  nullable := rfl

/-- An expression in brackets. -/
theorem bracketed_accords {o close : Symbol} (hclose : close = .closeParen ∨ close = .closeBracket)
    (hts : Token.list? cs = some (.symbol o :: ts)) :
    Accords (fun _ => False) ((Pattern.bracketed o (.again .expression) close).run (enter n) cs)
      ((again .expression ts).bind fun (e, us) =>
        if us.head? = some (.symbol close) then some (e, us.tail) else none) := by
  obtain ⟨mid, hmid, hopen⟩ := Pattern.exists_run_symbol (e := enter n) hts
  rw [Pattern.bracketed, Pattern.run_sequence_of_matched hopen]
  refine (hagain .expression hmid).sequence (fun e us rest _ hus => symbol_accords close hus e)
    fun rest hstuck => ?_
  have hhalted : Halted n rest := .inl hstuck
  rw [hhalted.run_close hclose]
  exact .failed

omit hagain in
theorem primary_eq_none (h : ∀ t ∈ ts.head?, Pattern.primary.starts t = false) :
    primary again ts = none := by
  cases ts with
  | nil => rfl
  | cons t us =>
    have ht := h t rfl
    cases t with
    | number | text | name => cases ht
    | keyword k =>
      cases k with
      | lambda => cases ht
      | and | or | not => rfl
    | symbol s =>
      cases s with
      | openParen | openBracket => cases ht
      | _ => rfl

omit hagain in
theorem primary_lambda : primary again (.keyword .lambda :: ts) =
    (parameters? ts).bind fun (ps, us) =>
      (again .expression us).map fun (e, rest) => (.lambda ps e, rest) := by
  rw [primary]
  cases parameters? ts <;> rfl

omit hagain in
theorem primary_group : primary again (.symbol .openParen :: ts) =
    ((again .expression ts).bind fun (e, us) =>
      if us.head? = some (.symbol .closeParen) then some (e, us.tail) else none).map
        fun (e, rest) => (.group e, rest) := by
  rw [primary]
  rcases again .expression ts with _ | ⟨e, _ | ⟨u, us⟩⟩
  · rfl
  · rfl
  · cases u with
    | symbol s => cases s <;> rfl
    | _ => rfl

theorem primary_agrees : Agrees n .primary (primary again) := by
  intro cs ts hts
  by_cases hstarts : ∀ t ∈ ts.head?, Pattern.primary.starts t = false
  · rw [run_eq_failed rfl rfl hts hstarts, primary_eq_none hstarts]
    exact .failed
  · obtain ⟨t, us, rfl, ht⟩ := exists_cons_of_not hstarts
    cases t with
    | number m =>
      obtain ⟨rest, hrest, hrun⟩ :=
        Pattern.exists_run_terminal (e := enter n) (u := .number) hts rfl
      rw [Pattern.primary, Pattern.run, hrun]
      exact .read hrest
    | text body =>
      obtain ⟨rest, hrest, hrun⟩ :=
        Pattern.exists_run_terminal (e := enter n) (u := .text) hts rfl
      rw [Pattern.primary, run_choice_skip hts ⟨rfl, rfl, rfl⟩, Pattern.run, hrun]
      exact .read hrest
    | name id =>
      obtain ⟨rest, hrest, hrun⟩ :=
        Pattern.exists_run_terminal (e := enter n) (u := .name) hts rfl
      rw [Pattern.primary, run_choice_skip hts ⟨rfl, rfl, rfl⟩,
        run_choice_skip hts ⟨rfl, rfl, rfl⟩, run_choice_skip hts ⟨rfl, rfl, rfl⟩,
        run_choice_skip hts ⟨rfl, rfl, rfl⟩, run_choice_skip hts ⟨rfl, rfl, rfl⟩, hrun]
      exact .read hrest
    | keyword k =>
      cases k with
      | lambda =>
        obtain ⟨mid, hmid, hrun⟩ :=
          Pattern.exists_run_terminal (e := enter n) (u := .keyword .lambda) hts rfl
        rw [Pattern.primary, run_choice_skip hts ⟨rfl, rfl, rfl⟩,
          run_choice_skip hts ⟨rfl, rfl, rfl⟩, run_choice_keep hts ⟨rfl, rfl, rfl⟩,
          Pattern.lambda, Pattern.keyword, Pattern.run_sequence_of_matched hrun, primary_lambda]
        exact (parameters?_accords hmid).sequence
          (fun ps vs rest _ hvs => (hagain .expression hvs).map (Expr.lambda ps))
          fun _ => False.elim
      | and | or | not => cases ht
    | symbol s =>
      cases s with
      | openParen =>
        rw [Pattern.primary, run_choice_skip hts ⟨rfl, rfl, rfl⟩,
          run_choice_skip hts ⟨rfl, rfl, rfl⟩, run_choice_skip hts ⟨rfl, rfl, rfl⟩,
          run_choice_skip hts ⟨rfl, rfl, rfl⟩, run_choice_keep hts ⟨rfl, rfl, rfl⟩,
          primary_group]
        exact ((bracketed_accords hagain (.inl rfl) hts).map Expr.group).mono fun _ => False.elim
      | openBracket =>
        rw [Pattern.primary, run_choice_skip hts ⟨rfl, rfl, rfl⟩,
          run_choice_skip hts ⟨rfl, rfl, rfl⟩, run_choice_skip hts ⟨rfl, rfl, rfl⟩,
          run_choice_keep hts ⟨rfl, rfl, rfl⟩]
        exact ((enclosedItems_accords (again_itemizes hagain) (.inr rfl) hts).map
          Expr.list).mono fun _ => False.elim
      | _ => cases ht

/-- What is behind a base: an exponent or the end of the power. -/
theorem exponent_accords (base : Expr) (hts : Token.list? cs = some ts) :
    Accords (Stuck n) ((Pattern.optional .exponent).run (enter n) cs)
      (if ts.head? = some (.symbol .power) then
        (again .factor ts.tail).map fun (e, rest) => (.binary .power base e, rest)
      else some (base, ts)) := by
  split
  · rename_i hhead
    obtain ⟨us, rfl⟩ := List.head?_eq_some_iff.mp hhead
    obtain ⟨mid, hmid, hpower⟩ := Pattern.exists_run_symbol (e := enter n) hts
    have hrun : Pattern.exponent.run (enter n) cs = (Pattern.again .factor).run (enter n) mid :=
      Pattern.run_sequence_of_matched hpower
    have haccords := hagain .factor hmid
    rw [← hrun] at haccords
    rw [Pattern.run, List.tail_cons]
    generalize ho : Pattern.exponent.run (enter n) cs = o, again .factor us = x at haccords ⊢
    cases haccords with
    | exhausted => exact .exhausted
    | read hrest => exact .read hrest
    | blocked hstuck => exact .blocked hstuck
    | failed =>
      refine .blocked ⟨_, us, .power, hts, rfl, fun p hp => ?_⟩
      cases hp
      exact ho
  · rename_i hhead
    have hfailed : Pattern.exponent.run (enter n) cs = .failed :=
      Pattern.run_sequence_of_failed (Pattern.run_symbol_of_head?_ne hts hhead)
    rw [Pattern.run_optional_of_failed hfailed]
    exact .read hts

end

/-! ### Suffixes -/

/-- A call, a subscript or an attribute: what it makes of the base. -/
def suffixStep (again : Entry → Reader Expr) : Reader (Expr → Expr)
  | .symbol .openParen :: ts => (items .closeParen (argument again) ts ts).map
      fun (as, rest) => ((.call · (positionals as) (keywords as)), rest)
  | .symbol .openBracket :: ts =>
    match again .expression ts with
    | some (i, .symbol .closeBracket :: rest) => some ((.subscript · i), rest)
    | _ => none
  | .symbol .dot :: .name p :: rest => some ((.attribute · p), rest)
  | _ => none

theorem suffixStep_subscript (again : Entry → Reader Expr) :
    suffixStep again (.symbol .openBracket :: ts) =
      ((again .expression ts).bind fun (e, us) =>
        if us.head? = some (.symbol .closeBracket) then some (e, us.tail) else none).map
          fun (i, rest) => ((Expr.subscript · i), rest) := by
  rw [suffixStep]
  rcases again .expression ts with _ | ⟨e, _ | ⟨u, us⟩⟩
  · rfl
  · rfl
  · cases u with
    | symbol s => cases s <;> rfl
    | _ => rfl

theorem suffix_loops (again : Entry → Reader Expr) :
    Loops .suffix (suffixStep again) (suffixes again) where
  stops rounds base ts h := by
    unfold suffixes
    split <;> first | rfl | exact absurd (h _ rfl) nofun
  goes r rounds base t ts h := by
    cases t with
    | symbol s =>
      cases s with
      | openParen =>
        rw [suffixes, suffixStep]
        cases items .closeParen (argument again) ts ts <;> rfl
      | openBracket =>
        rw [suffixes, suffixStep]
        rcases again .expression ts with _ | ⟨e, _ | ⟨u, us⟩⟩
        · rfl
        · rfl
        · cases u with
          | symbol s => cases s <;> rfl
          | _ => rfl
      | dot =>
        cases ts with
        | nil => rfl
        | cons u us => cases u <;> rfl
      | _ => cases h
    | _ => cases h

/-! ### The readers of the levels -/

section

variable (again : Entry → Reader Expr)

theorem postfixed_eq_bind (ts : List Token) : postfixed again ts =
    (primary again ts).bind fun (base, rest) => suffixes again rest base rest := by
  rw [postfixed]
  cases primary again ts <;> rfl

theorem power_eq_bind (ts : List Token) : power again ts =
    (postfixed again ts).bind fun (base, us) =>
      if us.head? = some (.symbol .power) then
        (again .factor us.tail).map fun (e, rest) => (.binary .power base e, rest)
      else some (base, us) := by
  rw [power]
  rcases postfixed again ts with _ | ⟨base, _ | ⟨u, us⟩⟩
  · rfl
  · rfl
  · cases u with
    | symbol s => cases s <;> rfl
    | _ => rfl

theorem factor_eq_power (hsign : ∀ t ∈ ts.head?, Pattern.sign.starts t = false) :
    factor again ts = power again ts := by
  unfold factor
  split <;> first | rfl | exact absurd (hsign _ rfl) nofun

theorem negation_eq_comparison (hnot : ¬∃ us, ts = .keyword .not :: us) :
    negation again ts = comparison again ts := by
  unfold negation
  split
  · exact absurd ⟨_, rfl⟩ hnot
  · rfl

theorem statement_eq_expression (hlabel : ¬∃ k us, ts = .name k :: .symbol .assign :: us) :
    statement again ts = expression again ts := by
  unfold statement
  split
  · exact absurd ⟨_, _, rfl⟩ hlabel
  · rfl

end

/-! ### First tokens of operators -/

theorem productOperator_starts (t : Token) :
    Pattern.productOperator.starts t = (productOperator? t).isSome := by
  cases t with
  | symbol s => cases s <;> rfl
  | _ => rfl

theorem sign_starts (t : Token) : Pattern.sign.starts t = (sumOperator? t).isSome := by
  cases t with
  | symbol s => cases s <;> rfl
  | _ => rfl

theorem comparisonOperator_starts (t : Token) :
    Pattern.comparisonOperator.starts t = (comparisonOperator? t).isSome := by
  cases t with
  | symbol s => cases s <;> rfl
  | _ => rfl

theorem and_starts (t : Token) : (Pattern.keyword .and).starts t = (andOperator? t).isSome := by
  cases t with
  | keyword k => cases k <;> rfl
  | _ => rfl

theorem or_starts (t : Token) : (Pattern.keyword .or).starts t = (orOperator? t).isSome := by
  cases t with
  | keyword k => cases k <;> rfl
  | _ => rfl

theorem not_starts (hnot : ¬∃ us, ts = .keyword .not :: us) :
    ∀ t ∈ ts.head?, (Pattern.keyword .not).starts t = false := by
  intro t ht
  obtain ⟨us, rfl⟩ := List.head?_eq_some_iff.mp ht
  cases t with
  | keyword k => cases k <;> first | rfl | exact absurd ⟨us, rfl⟩ hnot
  | _ => rfl

section

variable {again : Entry → Reader Expr} (hagain : ∀ k, Agrees n (.again k) (again k))
  (hassign : EndsAtAssign (again .expression))

include hagain hassign

theorem suffix_agrees : Agrees n .suffix (suffixStep again) := by
  intro cs ts hts
  by_cases hstarts : ∀ t ∈ ts.head?, Pattern.suffix.starts t = false
  · rw [run_eq_failed rfl rfl hts hstarts]
    have hnone : suffixStep again ts = none := by
      unfold suffixStep
      split <;> first | rfl | exact absurd (hstarts _ rfl) nofun
    rw [hnone]
    exact .failed
  · obtain ⟨t, us, rfl, ht⟩ := exists_cons_of_not hstarts
    cases t with
    | symbol s =>
      cases s with
      | openParen =>
        rw [Pattern.suffix, run_choice_keep hts ⟨rfl, rfl, rfl⟩]
        exact ((enclosedItems_accords (argument_itemizes hagain hassign) (.inl rfl) hts).map
          fun as => (Expr.call · (positionals as) (keywords as))).mono fun _ => False.elim
      | openBracket =>
        rw [Pattern.suffix, run_choice_skip hts ⟨rfl, rfl, rfl⟩,
          run_choice_keep hts ⟨rfl, rfl, rfl⟩, suffixStep_subscript]
        exact ((bracketed_accords hagain (.inr rfl) hts).map
          fun i => (Expr.subscript · i)).mono fun _ => False.elim
      | dot =>
        obtain ⟨mid, hmid, hdot⟩ := Pattern.exists_run_symbol (e := enter n) hts
        rw [Pattern.suffix, run_choice_skip hts ⟨rfl, rfl, rfl⟩,
          run_choice_skip hts ⟨rfl, rfl, rfl⟩, Pattern.run_sequence_of_matched hdot]
        by_cases hname : ∃ p vs, us = .name p :: vs
        · obtain ⟨p, vs, rfl⟩ := hname
          obtain ⟨rest, hrest, hrun⟩ :=
            Pattern.exists_run_terminal (e := enter n) (u := .name) hmid rfl
          rw [hrun]
          exact .read hrest
        · have hnone : suffixStep again (.symbol .dot :: us) = none := by
            cases us with
            | nil => rfl
            | cons u us =>
              cases u with
              | name p => exact absurd ⟨p, us, rfl⟩ hname
              | _ => rfl
          rw [Pattern.run_name_eq_failed hmid hname, hnone]
          exact .failed
      | _ => cases ht
    | _ => cases ht

/-! ### Levels -/

theorem postfixed_agrees : Agrees n .postfixed (postfixed again) :=
  sequence_repeated_agrees (l := .postfixed) rfl (suffix_agrees hagain hassign)
    (suffix_loops again) (primary_agrees hagain) (postfixed_eq_bind again)

theorem power_agrees : Agrees n .power (power again) := by
  intro cs ts hts
  rw [power_eq_bind]
  refine (postfixed_agrees hagain hassign hts).sequence
    (fun base us rest _ hus => exponent_accords hagain base hus) fun rest hstuck => ?_
  rw [Pattern.run_optional_of_failed (hstuck.run_eq_failed (l := .power) rfl)]
  exact .blocked hstuck

theorem factor_accords {cs : List Char} {ts : List Token} (hts : Token.list? cs = some ts) :
    Accords (Stuck n) (Pattern.factor.run (enter n) cs) (factor again ts) := by
  by_cases hsign : ∀ t ∈ ts.head?, Pattern.sign.starts t = false
  · have hfailed : Pattern.sign.run (enter n) cs = .failed := run_eq_failed rfl rfl hts hsign
    rw [factor_eq_power again hsign, Pattern.factor,
      Pattern.run_sequence_of_matched (Pattern.run_repeated_of_failed hfailed)]
    exact power_agrees hagain hassign hts
  · obtain ⟨t, us, rfl, ht⟩ := exists_cons_of_not hsign
    obtain ⟨mid, hmid, hrun⟩ := exists_terminal_run hts
    have hstep : Pattern.sign.run (enter n) cs = .matched mid :=
      (Pattern.run_of_single hrun rfl).trans (if_pos ht)
    have hshorter := length_lt_of_steps (steps_of_run rfl hstep)
    have hnext : Pattern.factor.run (enter n) cs = Pattern.factor.run (enter n) mid :=
      run_sequence_repeated_of_matched rfl hstep
    rw [hnext]
    cases t with
    | symbol s =>
      cases s with
      | plus => exact (factor_accords hmid).map (Expr.signed .plus)
      | minus => exact (factor_accords hmid).map (Expr.signed .minus)
      | _ => cases ht
    | _ => cases ht
termination_by cs.length

theorem factor_agrees : Agrees n .factor (factor again) :=
  fun _ _ hts => factor_accords hagain hassign hts

theorem term_agrees : Agrees n .term (term again) :=
  chain_agrees (l := .term) rfl rfl rfl productOperator_starts
    (productOperator_operates fun _ => rfl) (factor_agrees hagain hassign)

theorem sum_agrees : Agrees n .sum (sum again) :=
  chain_agrees (l := .sum) rfl rfl rfl sign_starts (operates_of_single rfl sign_starts _)
    (term_agrees hagain hassign)

theorem comparison_agrees : Agrees n .comparison (comparison again) :=
  chain_agrees (l := .comparison) rfl rfl rfl comparisonOperator_starts
    (operates_of_single rfl comparisonOperator_starts _) (sum_agrees hagain hassign)

theorem negation_agrees : Agrees n .negation (negation again) := by
  intro cs ts hts
  by_cases hnot : ∃ us, ts = .keyword .not :: us
  · obtain ⟨us, rfl⟩ := hnot
    obtain ⟨mid, hmid, hrun⟩ :=
      Pattern.exists_run_terminal (e := enter n) (u := .keyword .not) hts rfl
    rw [Pattern.negation, run_choice_keep hts ⟨rfl, rfl, rfl⟩, Pattern.keyword,
      Pattern.run_sequence_of_matched hrun]
    exact (hagain .negation hmid).map Expr.negate
  · have hfailed : (Pattern.keyword .not).run (enter n) cs = .failed :=
      Pattern.run_terminal_of_not_accepts hts (not_starts hnot)
    rw [negation_eq_comparison again hnot, Pattern.negation,
      Pattern.run_choice_of_left_failed (Pattern.run_sequence_of_failed hfailed)]
    exact comparison_agrees hagain hassign hts

theorem conjunction_agrees : Agrees n .conjunction (conjunction again) :=
  chain_agrees (l := .conjunction) rfl rfl rfl and_starts (operates_of_single rfl and_starts _)
    (negation_agrees hagain hassign)

theorem expression_agrees : Agrees n .expression (expression again) :=
  chain_agrees (l := .expression) rfl rfl rfl or_starts (operates_of_single rfl or_starts _)
    (conjunction_agrees hagain hassign)

end

/-! ### The whole grammar -/

theorem expression_endsAtAssign (again : Entry → Reader Expr) :
    EndsAtAssign (expression again) :=
  fun k _ => .inr ⟨.name k, rfl⟩

theorem read_endsAtAssign : EndsAtAssign (read n .expression) := by
  cases n with
  | zero => exact fun _ _ => .inl rfl
  | succ n => exact expression_endsAtAssign (read n)

/-- **A rule that is entered** agrees with its reader. -/
theorem enter_agrees (k : Entry) : Agrees n (.again k) (read n k) := by
  induction n generalizing k with
  | zero => exact fun _ _ _ => .exhausted
  | succ n ih =>
    have hpattern : Agrees n k.pattern (read (n + 1) k) := by
      cases k with
      | expression => exact expression_agrees ih read_endsAtAssign
      | negation => exact negation_agrees ih read_endsAtAssign
      | factor => exact factor_agrees ih read_endsAtAssign
    exact fun _ _ hts => (hpattern hts).mono fun _ h => h.mono (Nat.le_succ n)

theorem statement_accords (hts : Token.list? cs = some ts) :
    Accords (Halted n) (Pattern.statement.run (enter n) cs) (statement (read n) ts) := by
  refine choice_labelled_accords enter_agrees (expression_agrees enter_agrees read_endsAtAssign)
    (expression_endsAtAssign _) (g := id) (fun _ _ => rfl) (fun ts hnot => ?_) hts
  rw [statement_eq_expression (read n) hnot]
  cases expression (read n) ts <;> rfl

theorem all_isBlank_eq (hts : Token.list? cs = some ts) :
    cs.all Token.isBlank = ts.isEmpty := by
  cases ts with
  | nil =>
    rw [List.isEmpty_nil, List.all_eq_true]
    exact List.dropWhile_eq_nil_iff.mp (Token.dropWhile_of_list?_nil hts)
  | cons t ts =>
    obtain ⟨rest, hread, -⟩ := Token.exists_read?_of_list? hts
    rw [List.isEmpty_cons, Bool.eq_false_iff]
    intro hall
    rw [List.dropWhile_eq_nil_iff.mpr (List.all_eq_true.mp hall)] at hread
    cases hread

/-- Where the recogniser finds a statement, the text consists of tokens. -/
theorem exists_list?_of_run (h : Pattern.statement.run (enter n) cs = .matched rest)
    (hblank : rest.all Token.isBlank = true) : ∃ ts, Token.list? cs = some ts := by
  have hrest : Token.list? rest = some [] :=
    Token.list?_blank (List.dropWhile_eq_nil_iff.mpr (List.all_eq_true.mp hblank))
  obtain ⟨ts, hts, -⟩ := exists_list?_of_steps (steps_of_run rfl h) hrest
  exact ⟨ts, hts⟩

/-- **The recogniser and the reader** find the same of a text, unless the recogniser gives up. -/
theorem recognize_eq (h : recognize n cs ≠ .exhausted) : recognize n cs =
    if ((Token.list? cs).bind (parseWithin n)).isSome then .matched [] else .failed := by
  cases hts : Token.list? cs with
  | none =>
    -- what is left of the text behind a statement is not blank
    rw [recognize] at h ⊢
    cases hrun : Pattern.statement.run (enter n) cs with
    | failed => rfl
    | exhausted =>
      rw [hrun] at h
      exact absurd rfl h
    | matched rest =>
      have hblank : ¬rest.all Token.isBlank = true := by
        intro hblank
        obtain ⟨ts, hts'⟩ := exists_list?_of_run hrun hblank
        rw [hts] at hts'
        cases hts'
      exact if_neg hblank
  | some ts =>
    have haccords := statement_accords (n := n) hts
    rw [Option.bind_some, parseWithin]
    rw [recognize] at h ⊢
    generalize Pattern.statement.run (enter n) cs = o, statement (read n) ts = x at haccords h ⊢
    cases haccords with
    | exhausted => exact absurd rfl h
    | failed => rfl
    | @read e rest us hus =>
      simp only [all_isBlank_eq hus]
      cases us <;> rfl
    | @blocked rest hhalted =>
      have htoken : ∃ t us, Token.list? rest = some (t :: us) := by
        rcases hhalted with hstuck | ⟨us, hus⟩
        · obtain ⟨t, us, hus, -⟩ := hstuck.exists_list?
          exact ⟨t, us, hus⟩
        · exact ⟨_, us, hus⟩
      obtain ⟨t, us, hus⟩ := htoken
      simp only [all_isBlank_eq hus]
      rfl

/-- What the recogniser settles does not depend on the allowance, nor does the tree. -/
theorem parseWithin_eq_parse? (h : recognize n cs ≠ .exhausted)
    (hts : Token.list? cs = some ts) : parseWithin n ts = parse? ts := by
  cases hparse : parse? ts with
  | some e =>
    obtain ⟨hwrites, hshaped⟩ := parse?_eq_some_iff.mp hparse
    have hmore : recognize (max n ts.length) cs = recognize n cs :=
      recognize_eq_of_le (Nat.le_max_left _ _) h
    have hne : recognize (max n ts.length) cs ≠ .exhausted := by rwa [hmore]
    rw [recognize_eq h, recognize_eq hne, hts, Option.bind_some, Option.bind_some,
      parseWithin_eq_some (Nat.le_max_right _ _) hwrites hshaped] at hmore
    cases hwithin : parseWithin n ts with
    | none =>
      rw [hwithin] at hmore
      cases hmore
    | some e' => exact (parse?_eq_some_iff.mpr (writes_of_parseWithin hwithin)).symm.trans hparse
  | none =>
    cases hwithin : parseWithin n ts with
    | none => rfl
    | some e =>
      rw [parse?_eq_some_iff.mpr (writes_of_parseWithin hwithin)] at hparse
      cases hparse

/-- A text is recognised if and only if it has a tree, unless the recogniser gives up. -/
theorem recognize_eq_parse? (h : recognize n cs ≠ .exhausted) : recognize n cs =
    if ((Token.list? cs).bind parse?).isSome then .matched [] else .failed := by
  rw [recognize_eq h]
  cases hts : Token.list? cs with
  | none => rfl
  | some ts => rw [Option.bind_some, Option.bind_some, parseWithin_eq_parse? h hts]

end Reckoner.Grammar
