import Reckoner.Proofs.Grammar.Fragments

/-!
# The rules and their builders

Each rule leaves the pairs of which its builder makes the tree that the reader of the same name
reads, by induction on the rules that may be open (`emit_builds`).
-/

namespace Reckoner.Grammar

variable {n : Nat} {cs rest : List Char} {t : Token} {ts us vs : List Token}

/-! ### Single pieces -/

/-- One pair, of which the builder of single pieces makes the tree. -/
def Piece (e : Expr) (ps : List Pair) : Prop := ∃ r, Leaves r .primary e ps

theorem number_yields {e : Entry → Emitter} {m : Numeral}
    (hts : Token.list? cs = some (.number m :: ts)) :
    Yields (Piece (.number m.value)) ts ((Scheme.terminal .number).run e cs) := by
  refine (Yields.terminal hts rfl).mono ?_
  rintro _ ⟨sp, hsp, rfl⟩
  cases hsp with
  | number hm =>
    refine ⟨.number, _, rfl, rfl, ?_⟩
    show (readNumber _).map Expr.number = _
    simp only [readNumber, Pair.large?, String.toList_ofList, readFloat_spelling hm, if_true]
    split <;> rfl

theorem text_yields {e : Entry → Emitter} {body : String}
    (hts : Token.list? cs = some (.text body :: ts)) :
    Yields (Piece (.text body)) ts ((Scheme.terminal .text).run e cs) := by
  refine (Yields.terminal hts rfl).mono ?_
  rintro _ ⟨sp, hsp, rfl⟩
  have hnone := Terminal.largeAmong?_pairs_eq_none (u := .text) nofun sp
  rw [Terminal.pairs, largeAmong?_cons, largeAmong?_nil, Option.or_none] at hnone
  refine ⟨.string, _, rfl, rfl, ?_⟩
  rw [hnone]
  cases hsp with
  | text hq hbody => simp [build, verdict]

/-- Something between brackets is read as far as the bracket that closes. -/
theorem eq_some_of_enclosed {x : Option (Expr × List Token)} {close : Symbol} {e : Expr}
    (h : (x.bind fun (e, us) =>
      if us.head? = some (.symbol close) then some (e, us.tail) else none) = some (e, us)) :
    x = some (e, .symbol close :: us) := by
  obtain ⟨⟨e', vs⟩, hx, hclose⟩ := Option.bind_eq_some_iff.mp h
  by_cases hhead : vs.head? = some (.symbol close)
  · obtain ⟨ws, rfl⟩ := List.head?_eq_some_iff.mp hhead
    simp only [hhead, if_true] at hclose
    cases hclose
    exact hx
  · simp only [hhead, if_false] at hclose
    cases hclose

theorem extends_of_cons {f : α → List Pair → Except Flaw α} {p : Pair} {x : Except Flaw β}
    {g : β → α → α} {b : β} (hf : ∀ a qs, f a (p :: qs) = x.bind fun b => f (g b a) qs)
    (hx : x = verdict p.large? b) : Extends f (g b) [p] := by
  intro a e qs hqs
  rw [Makes, List.singleton_append, hf, hx, largeAmong?_cons]
  exact verdict_bind hqs

section

variable {again : Entry → Reader Expr}
  (hagain : ∀ k, Builds n (.again k) (again k) (Leaves k.rule k.builder))

include hagain

/-- An expression between brackets, in a pair of the rule. -/
theorem enclosed_builds (r : Rule) (hr : r ≠ .number) {o close : Symbol}
    (ho : Rule.ofSymbol? o = none) (hclose : Rule.ofSymbol? close = none) {e : Expr}
    (hts : Token.list? cs = some (.symbol o :: ts))
    (h : again .expression ts = some (e, .symbol close :: us)) :
    Yields (fun ps => ∃ text p, ps = [⟨r, text, [p]⟩] ∧
      build .logical p = verdict (largeAmong? ps) e) us
      ((Scheme.rule r (.bracketed o (.again .expression) close)).run (emit n) cs) := by
  refine (Yields.bracketed hts ho hclose fun _ hrest => hagain .expression hrest h).rule ?_
  rintro text _ ⟨p, rfl, -, hp⟩
  refine ⟨text, p, rfl, hp.trans ?_⟩
  rw [largeAmong?_cons, Pair.large?_of_ne_number hr]
  simp

theorem group_builds {e : Expr} (hts : Token.list? cs = some (.symbol .openParen :: ts))
    (h : again .expression ts = some (e, .symbol .closeParen :: us)) :
    Yields (Piece (.group e)) us (Scheme.group.run (emit n) cs) := by
  refine (enclosed_builds hagain .group (by decide) rfl rfl hts h).mono ?_
  rintro _ ⟨text, p, rfl, hp⟩
  refine ⟨.group, _, rfl, rfl, ?_⟩
  show (build .logical p).map Expr.group = _
  rw [hp, verdict_map]
  simp

theorem list_builds {es : List Expr} {rounds : List Token}
    (hts : Token.list? cs = some (.symbol .openBracket :: ts))
    (h : items .closeBracket (again .expression) rounds ts = some (es, us)) :
    Yields (Piece (.list es)) us (Scheme.list.run (emit n) cs) := by
  refine (enclosedItems_builds (f := buildItems) rfl closeBracket_closes rfl (item_builds hagain)
    hts h).rule ?_
  intro text ps hps
  refine ⟨.list, Fills.leaves (by decide) (fun text => ?_) text⟩
  show (buildItems ps).map Expr.list = _
  rw [hps, verdict_map]

theorem lambda_builds {params : List String} {e : Expr}
    (hts : Token.list? cs = some (.keyword .lambda :: ts))
    (hparams : parameters? ts = some (params, vs)) (h : again .expression vs = some (e, us)) :
    Yields (Piece (.lambda params e)) us (Scheme.lambda.run (emit n) cs) := by
  have hbody (mid : List Char) (hmid : Token.list? mid = some ts) :
      Yields (Makes (buildLambda [] none) (.lambda params e)) us
        ((Scheme.sequence (.sequence (.optional (.rule .parameters (.commaSeparated
          (.terminal .name)))) (.symbol .colon)) (.again .expression)).run (emit n) mid) := by
    refine (parameters?_builds hmid hparams).sequence
      (fun rest hrest => hagain .expression hrest h) ?_
    rintro ps _ ⟨hlarge, hps⟩ ⟨⟨r, text, inner⟩, rfl, hr, hp⟩
    cases hr
    rw [Makes, hps, largeAmong?_append, hlarge, Option.none_or, largeAmong?_cons]
    show (build .logical ⟨_, text, inner⟩).bind (fun e => .ok (Expr.lambda params e)) = _
    exact hp ▸ verdict_bind rfl
  refine ((Yields.keyword hts).sequence hbody fun ps qs hps hqs => ?_).rule
    fun text ps hps => ⟨.lambda, Fills.leaves (by decide) hps text⟩
  subst hps
  intro text
  show buildLambda [] none qs = _
  rw [hqs]
  rfl

theorem primary_builds : Builds n .primary (primary again) Piece := by
  intro cs ts us e hts h
  have hstarts : ¬∀ t ∈ ts.head?, Pattern.primary.starts t = false := fun hnot => by
    rw [primary_eq_none hnot] at h
    cases h
  obtain ⟨t, vs, rfl, ht⟩ := exists_cons_of_not hstarts
  cases t with
  | number m =>
    cases h
    exact .choice_left (number_yields hts)
  | text body =>
    cases h
    exact .skip hts ⟨rfl, rfl⟩ (.choice_left (text_yields hts))
  | name id =>
    cases h
    refine .skip hts ⟨rfl, rfl⟩ (.skip hts ⟨rfl, rfl⟩ (.skip hts ⟨rfl, rfl⟩
      (.skip hts ⟨rfl, rfl⟩ (.skip hts ⟨rfl, rfl⟩ ((Yields.name hts).mono ?_)))))
    rintro _ rfl
    exact ⟨.identifier, _, rfl, rfl, rfl⟩
  | keyword k =>
    cases k with
    | lambda =>
      rw [primary_lambda] at h
      obtain ⟨⟨params, ws⟩, hparams, h⟩ := Option.bind_eq_some_iff.mp h
      obtain ⟨⟨body, us⟩, hbody, heq⟩ := Option.map_eq_some_iff.mp h
      cases heq
      exact .skip hts ⟨rfl, rfl⟩ (.skip hts ⟨rfl, rfl⟩
        (.choice_left (lambda_builds hagain hts hparams hbody)))
    | and | or | not => cases ht
  | symbol s =>
    cases s with
    | openParen =>
      rw [primary_group] at h
      obtain ⟨⟨inner, us⟩, hinner, heq⟩ := Option.map_eq_some_iff.mp h
      cases heq
      exact .skip hts ⟨rfl, rfl⟩ (.skip hts ⟨rfl, rfl⟩ (.skip hts ⟨rfl, rfl⟩
        (.skip hts ⟨rfl, rfl⟩ (.choice_left
          (group_builds hagain hts (eq_some_of_enclosed hinner))))))
    | openBracket =>
      obtain ⟨⟨es, us⟩, hes, heq⟩ := Option.map_eq_some_iff.mp h
      cases heq
      exact .skip hts ⟨rfl, rfl⟩ (.skip hts ⟨rfl, rfl⟩ (.skip hts ⟨rfl, rfl⟩
        (.choice_left (list_builds hagain hts hes))))
    | _ => cases ht

/-! ### Suffixes -/

theorem suffix_builds : Builds n .suffix (suffixStep again) (Extends buildSuffixes) := by
  intro cs ts us g hts h
  by_cases hcall : ∃ vs, ts = .symbol .openParen :: vs
  · obtain ⟨vs, rfl⟩ := hcall
    obtain ⟨⟨as, us⟩, has, heq⟩ := Option.map_eq_some_iff.mp h
    cases heq
    refine .choice_left ((enclosedItems_builds (f := buildArguments) rfl closeParen_closes rfl
      (argument_builds hagain) hts has).rule fun text ps hps => ?_)
    refine extends_of_cons (g := fun as => (Expr.call · (positionals as) (keywords as)))
      (fun _ _ => rfl) (hps.trans ?_)
    rw [Pair.large?_of_ne_number (by decide)]
  by_cases hsubscript : ∃ vs, ts = .symbol .openBracket :: vs
  · obtain ⟨vs, rfl⟩ := hsubscript
    rw [suffixStep_subscript] at h
    obtain ⟨⟨i, us⟩, hi, heq⟩ := Option.map_eq_some_iff.mp h
    cases heq
    refine .skip hts ⟨rfl, rfl⟩ (.choice_left ((enclosed_builds hagain .subscript (by decide) rfl
      rfl hts (eq_some_of_enclosed hi)).mono ?_))
    rintro _ ⟨text, p, rfl, hp⟩
    rw [largeAmong?_cons, largeAmong?_nil, Option.or_none] at hp
    exact extends_of_cons (g := fun i => (Expr.subscript · i)) (fun _ _ => rfl) hp
  by_cases hattribute : ∃ p vs, ts = .symbol .dot :: .name p :: vs
  · obtain ⟨p, vs, rfl⟩ := hattribute
    cases h
    refine .skip hts ⟨rfl, rfl⟩ (.skip hts ⟨rfl, rfl⟩
      (((Yields.silent hts rfl).nil_sequence fun _ hrest => .name hrest).rule ?_))
    rintro text _ rfl
    exact extends_of_cons (g := fun p => (Expr.attribute · p)) (x := .ok p) (fun _ _ => rfl) rfl
  · unfold suffixStep at h
    split at h
    · exact absurd ⟨_, rfl⟩ hcall
    · exact absurd ⟨_, rfl⟩ hsubscript
    · exact absurd ⟨_, _, rfl⟩ hattribute
    · cases h

/-! ### Levels -/

theorem postfixed_builds :
    Builds n .postfixed (postfixed again) (Leaves .postfixExpression .postfixed) := by
  intro cs ts us e hts h
  rw [postfixed_eq_bind] at h
  obtain ⟨⟨base, vs⟩, hbase, h⟩ := Option.bind_eq_some_iff.mp h
  refine Yields.leaves (by decide) ((primary_builds hagain hts hbase).sequence
    (fun rest hrest => repeated_builds (p := .suffix) rfl (suffix_loops again) (fun _ => rfl)
      (suffix_builds hagain) hrest (Nat.le_refl _) h) ?_)
  rintro _ qs ⟨r, p, rfl, -, hp⟩ hqs text
  show (build .primary p).bind _ = _
  rw [hp]
  exact verdict_bind hqs

theorem power_builds : Builds n .power (power again) (Leaves .power .power) := by
  intro cs ts us e hts h
  rw [power_eq_bind] at h
  obtain ⟨⟨base, vs⟩, hbase, h⟩ := Option.bind_eq_some_iff.mp h
  dsimp only at h
  refine Yields.leaves (by decide) ?_
  by_cases hpower : vs.head? = some (.symbol .power)
  · obtain ⟨ws, rfl⟩ := List.head?_eq_some_iff.mp hpower
    rw [if_pos hpower] at h
    obtain ⟨⟨exponent, us⟩, hexponent, heq⟩ := Option.map_eq_some_iff.mp h
    cases heq
    have hsign (rest : List Char) (hrest : Token.list? rest = some (.symbol .power :: ws)) :
        Yields (fun ps => ∃ text p, ps = [⟨.powerSign, text, []⟩, p] ∧
          build .factor p = verdict p.large? exponent) us
          (Scheme.exponent.optional.run (emit n) rest) := by
      refine ((Yields.symbol hrest).sequence
        (fun _ hlast => hagain .factor hlast hexponent) ?_).optional
      rintro _ _ rfl ⟨p, rfl, -, hp⟩
      exact ⟨_, p, rfl, hp⟩
    refine (postfixed_builds hagain hts hbase).sequence hsign ?_
    rintro _ _ ⟨b, rfl, -, hb⟩ ⟨word, p, rfl, hp⟩ text
    let raise := fun base => (build .factor p).map (Expr.binary .power base)
    have hraise : raise base = verdict p.large? (.binary .power base exponent) := by
      show (build .factor p).map (Expr.binary .power base) = _
      rw [hp, verdict_map]
    show (build .postfixed b).bind raise = _
    rw [hb, verdict_bind hraise]
    simp [Pair.large?]
  · rw [if_neg hpower] at h
    obtain ⟨rfl, rfl⟩ := Prod.mk.inj (Option.some_inj.mp h)
    have hend (rest : List Char) (hrest : Token.list? rest = some vs) :
        Yields (· = []) vs (Scheme.exponent.optional.run (emit n) rest) :=
      .optional_nil (Scheme.stops_symbol hrest hpower).sequence hrest
    refine ((postfixed_builds hagain hts hbase).sequence_nil hend).mono ?_
    rintro _ ⟨b, rfl, -, hb⟩ text
    show (build .postfixed b).bind (fun base => .ok base) = _
    rw [hb]
    exact verdict_bind rfl

end

theorem exists_sign (ht : Pattern.sign.starts t = true) : ∃ s : Sign, t = s.token := by
  cases t with
  | symbol s =>
    cases s with
    | plus => exact ⟨.plus, rfl⟩
    | minus => exact ⟨.minus, rfl⟩
    | _ => cases ht
  | _ => cases ht

/-- A sign in front of a power leaves a pair with its spelling. -/
theorem sign_yields {e : Entry → Emitter} (s : Sign) (hts : Token.list? cs = some (s.token :: ts)) :
    Yields (fun ps => ∃ inner, ps = [⟨.unaryOperator, s.symbol, inner⟩] ∧ largeAmong? inner = none)
      ts ((Scheme.rule .unaryOperator .sign).run e cs) := by
  obtain ⟨rest, hread, hrest⟩ := Token.exists_read?_of_list? hts
  obtain ⟨sp, hsp, hspells⟩ := Token.read?_sound hread
  have htext : stretch cs rest = s.symbol := by
    rw [stretch_eq hsp]
    cases s <;> cases hspells <;> rfl
  have hrun : Scheme.sign.run e cs =
      .matched rest [⟨if s = .plus then .plusSign else .minusSign, s.symbol, []⟩] := by
    cases s <;> simp [Scheme.sign, Scheme.symbol, Scheme.run, Terminal.emit, hread, htext,
      Terminal.accepts, Sign.token, Terminal.pairs, Rule.ofSymbol?]
  rw [Scheme.run, hrun]
  dsimp only
  rw [htext]
  exact .matched hrest ⟨_, rfl, by cases s <;> rfl⟩

section

variable {again : Entry → Reader Expr}
  (hagain : ∀ k, Builds n (.again k) (again k) (Leaves k.rule k.builder))

include hagain

/-- Signs and a power leave pairs that put the signs in front of the power, from the last to the
first. -/
theorem signs_build {cs : List Char} {ts us : List Token} {e : Expr}
    (hts : Token.list? cs = some ts) (h : factor again ts = some (e, us)) :
    Yields (fun ps => ∀ signs : List Sign,
      Makes (buildFactor signs none) (signs.foldr .signed e) ps) us
      ((Scheme.sequence (.repeated (.rule .unaryOperator .sign)) .power).run (emit n) cs) := by
  by_cases hsign : ∀ t ∈ ts.head?, Pattern.sign.starts t = false
  · rw [factor_eq_power again hsign] at h
    have hstops : (Scheme.rule .unaryOperator .sign).Stops n cs :=
      Scheme.stops_of_not_starts rfl hts hsign
    refine (Yields.repeated_nil hstops hts).nil_sequence fun rest hrest =>
      (power_builds hagain hrest h).mono ?_
    rintro _ ⟨⟨r, text, inner⟩, rfl, hr, hp⟩ signs
    cases hr
    rw [Makes, largeAmong?_cons]
    show (build .power ⟨_, text, inner⟩).bind (fun e => .ok (signs.foldr Expr.signed e)) = _
    rw [hp]
    exact verdict_bind rfl
  · obtain ⟨t, vs, rfl, ht⟩ := exists_cons_of_not hsign
    obtain ⟨s, rfl⟩ := exists_sign ht
    have hfactor : ∃ e', factor again vs = some (e', us) ∧ e = .signed s e' := by
      cases s <;> obtain ⟨⟨e', us⟩, he, heq⟩ := Option.map_eq_some_iff.mp h <;> cases heq <;>
        exact ⟨e', he, rfl⟩
    obtain ⟨e', he', rfl⟩ := hfactor
    refine .sequence_repeated_cons rfl hts (sign_yields s hts)
      (fun rest hrest _ _ => signs_build hrest he') ?_
    rintro _ qs ⟨inner, rfl, hlarge⟩ hqs signs
    show ((Sign.ofSymbol s.symbol).mapError Flaw.unknown).bind
      (fun s => buildFactor (signs ++ [s]) none qs) = _
    rw [Sign.ofSymbol_symbol]
    refine (hqs (signs ++ [s])).trans ?_
    rw [List.foldr_append, largeAmong?_append, largeAmong?_cons,
      Pair.large?_of_ne_number (by decide), hlarge]
    rfl
termination_by cs.length

theorem factor_builds : Builds n .factor (factor again) (Leaves .factor .factor) :=
  fun _ _ _ _ hts h => ((signs_build hagain hts h).mono fun _ hps _ => hps []).leaves (by decide)

end

/-! ### Operators -/

/-- Whether the scheme is one of some terminals. -/
def Scheme.single : Scheme → Bool
  | .terminal _ => true
  | .choice p q => p.single && q.single
  | _ => false

theorem Scheme.nullable_of_single {p : Scheme} (hp : p.single = true) :
    p.pattern.nullable = false := by
  induction p with
  | terminal => rfl
  | choice p q ihp ihq =>
    obtain ⟨hp, hq⟩ := Bool.and_eq_true_iff.mp hp
    rw [pattern, Pattern.nullable, ihp hp, ihq hq, Bool.or_false]
  | _ => cases hp

theorem single_yields {p : Scheme} (hp : p.single = true) (hts : Token.list? cs = some (t :: ts))
    (ht : p.pattern.starts t = true) :
    Yields (fun ps => ∃ (u : Terminal) (sp : List Char), u.accepts t = true ∧ Token.Spells sp t ∧
      ps = u.pairs sp) ts (p.run (emit n) cs) := by
  induction p with
  | terminal u =>
    exact (Yields.terminal hts ht).mono fun ps ⟨sp, hsp, hps⟩ => ⟨u, sp, ht, hsp, hps⟩
  | choice p q ihp ihq =>
    obtain ⟨hp, hq⟩ := Bool.and_eq_true_iff.mp hp
    cases hstarts : p.pattern.starts t with
    | true => exact .choice_left (ihp hp hstarts)
    | false =>
      rw [Scheme.pattern, Pattern.starts, hstarts, Bool.false_or] at ht
      exact .choice_right (Scheme.stops_cons (Scheme.nullable_of_single hp) hts hstarts)
        (ihq hq ht)
  | _ => cases hp

/-- The operators that the reader of the chain finds. -/
def Chain.operator? : Chain → Token → Option (Expr → Expr → Expr)
  | .disjunction => orOperator?
  | .conjunction => andOperator?
  | .comparison => comparisonOperator?
  | .sum => sumOperator?
  | .term => productOperator?

/-- The builder makes of the spelling of each operator what the reader makes of the token. -/
theorem Chain.join_of_operator? {c : Chain} {join : Expr → Expr → Expr}
    (h : c.operator? t = some join) :
    (∃ s r, t = .symbol s ∧ Rule.ofSymbol? s = some r ∧ c.join (.ofList s.spelling) = .ok join) ∨
      ∃ k, t = .keyword k ∧ c.join k.spelling = .ok join := by
  cases t with
  | symbol s => cases c <;> cases s <;> cases h <;> exact .inl ⟨_, _, rfl, rfl, rfl⟩
  | keyword k => cases c <;> cases k <;> cases h <;> exact .inr ⟨_, rfl, rfl⟩
  | number | text | name => cases c <;> cases h

theorem Terminal.eq_of_accepts_symbol {u : Terminal} {s : Symbol}
    (hu : u.accepts (.symbol s) = true) : u = .symbol s := by
  cases u with
  | symbol s' => rw [of_decide_eq_true hu]
  | _ => cases hu

theorem Terminal.eq_of_accepts_keyword {u : Terminal} {k : Keyword}
    (hu : u.accepts (.keyword k) = true) : u = .keyword k := by
  cases u with
  | keyword k' => rw [of_decide_eq_true hu]
  | _ => cases hu

/-- The pairs of an operator of the chain. -/
theorem Chain.joins {c : Chain} {join : Expr → Expr → Expr} (ht : c.operator? t = some join)
    {u : Terminal} {sp : List Char} (hu : u.accepts t = true) (hsp : Token.Spells sp t) :
    Joins c join (u.pairs sp) := by
  obtain ⟨s, r, rfl, hr, hword⟩ | ⟨k, rfl, hword⟩ := join_of_operator? ht
  · obtain rfl := Terminal.eq_of_accepts_symbol hu
    cases hsp
    exact ⟨⟨r, _, []⟩, by rw [Terminal.pairs, hr]; rfl,
      Terminal.largeAmong?_pairs_eq_none (u := .symbol s) (by simp) _, hword⟩
  · obtain rfl := Terminal.eq_of_accepts_keyword hu
    cases hsp
    rw [← String.ofList_toList (s := k.spelling)] at hword
    exact ⟨_, rfl, Terminal.largeAmong?_pairs_eq_none (u := .keyword k) (by simp) _, hword⟩

theorem Chain.finds_of_single (c : Chain) {operator : Scheme} (operand : Reader Expr)
    (hoperator : operator.single = true)
    (hstarts : ∀ t, operator.pattern.starts t = (c.operator? t).isSome) :
    Finds n c operator c.operator? operand := by
  intro cs t ts us join e hts ht _
  refine (single_yields hoperator hts (by rw [hstarts, ht]; rfl)).mono ?_
  rintro _ ⟨u, sp, hu, hsp, rfl⟩
  exact joins ht hu hsp

/-- A slash stands before an operand, and no operand begins with a slash. -/
theorem productOperator_finds {operand : Reader Expr}
    (hslash : ∀ ts, operand (.symbol .slash :: ts) = none) :
    Finds n .term .productOperator productOperator? operand := by
  intro cs t ts us join e hts ht hoperand
  have hjoins {u : Terminal} (hu : u.accepts t = true) :
      Yields (Joins .term join) ts ((Scheme.terminal u).run (emit n) cs) :=
    (Yields.terminal hts hu).mono fun ps ⟨sp, hsp, hps⟩ =>
      hps ▸ Chain.joins (c := .term) ht hu hsp
  cases t with
  | symbol s =>
    cases s with
    | star => exact .choice_left (hjoins rfl)
    | slash =>
      refine .choice_right (Scheme.stops_cons rfl hts rfl) (.choice_left
        ((hjoins rfl).sequence_nil fun rest hrest => ?_))
      have hhead : rest.head? ≠ some '/' := by
        intro hhead
        obtain ⟨vs, rfl⟩ := exists_slash hrest hhead
        rw [hslash] at hoperand
        cases hoperand
      rw [Scheme.run, if_neg hhead]
      exact .matched hrest rfl
    | percent =>
      exact .choice_right (Scheme.stops_cons rfl hts rfl) (.choice_right
        (Scheme.stops_cons rfl hts rfl) (hjoins rfl))
    | _ => cases ht
  | _ => cases ht

/-! ### The looser levels -/

section

variable {again : Entry → Reader Expr}
  (hagain : ∀ k, Builds n (.again k) (again k) (Leaves k.rule k.builder))

include hagain

theorem term_builds : Builds n .term (term again) (Leaves .term (.chain .term)) :=
  chain_builds (by decide) rfl productOperator_starts (productOperator_finds fun _ => rfl)
    (factor_builds hagain)

theorem sum_builds : Builds n .sum (sum again) (Leaves .arithmeticExpression (.chain .sum)) :=
  chain_builds (by decide) rfl sign_starts (Chain.finds_of_single .sum _ rfl sign_starts)
    (term_builds hagain)

theorem comparison_builds : Builds n .comparison (comparison again)
    (Leaves .comparisonExpression (.chain .comparison)) :=
  chain_builds (by decide) rfl comparisonOperator_starts
    (Chain.finds_of_single .comparison _ rfl comparisonOperator_starts) (sum_builds hagain)

theorem negation_builds :
    Builds n .negation (negation again) (Leaves .notExpression .negation) := by
  intro cs ts us e hts h
  refine Yields.leaves (by decide) ?_
  by_cases hnot : ∃ vs, ts = .keyword .not :: vs
  · obtain ⟨vs, rfl⟩ := hnot
    obtain ⟨⟨operand, us⟩, hoperand, heq⟩ := Option.map_eq_some_iff.mp h
    cases heq
    refine .choice_left ((Yields.keyword hts).sequence
      (fun _ hrest => hagain .negation hrest hoperand) ?_)
    rintro _ _ rfl ⟨p, rfl, -, hp⟩ text
    show (build Entry.negation.builder p).map Expr.negate = _
    rw [hp, verdict_map]
    simp [Rule.ofKeyword, Pair.large?]
  · rw [negation_eq_comparison again hnot] at h
    have hstops : (Scheme.keyword .not).Stops n cs :=
      Scheme.stops_of_not_starts rfl hts (not_starts hnot)
    refine .choice_right hstops.sequence ((comparison_builds hagain hts h).mono ?_)
    rintro _ ⟨⟨r, inside, inner⟩, rfl, hr, hp⟩ text
    cases hr
    show build (.chain .comparison) ⟨_, inside, inner⟩ = _
    rw [hp]
    simp

theorem conjunction_builds : Builds n .conjunction (conjunction again)
    (Leaves .andExpression (.chain .conjunction)) :=
  chain_builds (by decide) rfl and_starts (Chain.finds_of_single .conjunction _ rfl and_starts)
    (negation_builds hagain)

theorem disjunction_builds : Builds n .disjunction (expression again)
    (Leaves .orExpression (.chain .disjunction)) :=
  chain_builds (by decide) rfl or_starts (Chain.finds_of_single .disjunction _ rfl or_starts)
    (conjunction_builds hagain)

theorem expression_builds :
    Builds n .expression (expression again) (Leaves .logicalExpression .logical) := by
  intro cs ts us e hts h
  refine Yields.leaves (by decide) ((disjunction_builds hagain hts h).mono ?_)
  rintro _ ⟨p, rfl, -, hp⟩ text
  show build (.chain .disjunction) p = _
  rw [hp]
  simp

end

/-! ### The whole grammar -/

/-- **A rule that is entered** leaves a pair of which the builder makes what its reader reads. -/
theorem emit_builds (k : Entry) : Builds n (.again k) (read n k) (Leaves k.rule k.builder) := by
  induction n generalizing k with
  | zero => nofun
  | succ n ih =>
    cases k with
    | expression => exact expression_builds ih
    | negation => exact negation_builds ih
    | factor => exact factor_builds ih

/-- The pairs of a whole text, of which the builder of statements makes the tree. -/
def Whole (e : Expr) (ps : List Pair) : Prop :=
  ∀ text qs, buildStatement ⟨.wholeText, text, ps ++ qs⟩ = verdict (largeAmong? ps) e

theorem statement_builds : Builds n .statement (statement (read n)) Whole := by
  intro cs ts us e hts h
  by_cases hlabel : ∃ k vs, ts = .name k :: .symbol .assign :: vs
  · obtain ⟨k, vs, rfl⟩ := hlabel
    obtain ⟨⟨value, us⟩, hvalue, heq⟩ := Option.map_eq_some_iff.mp h
    cases heq
    refine .choice_left ((labelled_builds emit_builds (by decide) hts hvalue).mono ?_)
    rintro _ ⟨inside, sign, p, rfl, hp⟩ text qs
    show (build .logical p).map (Expr.assign k) = _
    rw [hp, verdict_map]
  · rw [statement_eq_expression (read n) hlabel] at h
    refine .choice_right (labelled_stops hts hlabel)
      ((expression_builds emit_builds hts h).mono ?_)
    rintro _ ⟨⟨r, inside, inner⟩, rfl, hr, hp⟩ text qs
    cases hr
    show build .logical ⟨_, inside, inner⟩ = _
    rw [hp]
    simp

end Reckoner.Grammar
