import Reckoner.Proofs.Grammar.Construction

/-!
# The pairs of items, names and labels

What stands between brackets, in front of a colon and behind an assignment sign, leaves the pairs
that the builders of lists, calls, lambdas and assignments expect.
-/

namespace Reckoner.Grammar

variable {n : Nat} {cs rest : List Char} {t : Token} {ts us vs : List Token}

/-- The rule whose pair an entry leaves. -/
def Entry.rule : Entry → Rule
  | .expression => .logicalExpression
  | .negation => .notExpression
  | .factor => .factor

/-- The builder of the pair that an entry leaves. -/
def Entry.builder : Entry → Builder
  | .expression => .logical
  | .negation => .negation
  | .factor => .factor

/-! ### Brackets and items -/

/-- A sign that leaves no pair. -/
theorem Yields.silent {e : Entry → Emitter} {s : Symbol}
    (hts : Token.list? cs = some (.symbol s :: ts)) (hs : Rule.ofSymbol? s = none) :
    Yields (· = []) ts ((Scheme.symbol s).run e cs) :=
  (Yields.symbol hts).mono fun ps hps => by
    rw [hps, hs]
    rfl

/-- Something between brackets leaves its own pairs. -/
theorem Yields.bracketed {e : Entry → Emitter} {P : List Pair → Prop} {inner : Scheme}
    {o close : Symbol} (hts : Token.list? cs = some (.symbol o :: ts))
    (ho : Rule.ofSymbol? o = none) (hclose : Rule.ofSymbol? close = none)
    (hinner : ∀ rest, Token.list? rest = some ts →
      Yields P (.symbol close :: us) (inner.run e rest)) :
    Yields P us ((Scheme.bracketed o inner close).run e cs) :=
  (Yields.silent hts ho).nil_sequence fun rest hrest =>
    (hinner rest hrest).sequence_nil fun _ hus => .silent hus hclose

/-- The pairs put one more item in front of those that the builder makes. -/
def Adds (f : List Pair → Except Flaw (List α)) (a : α) (ps : List Pair) : Prop :=
  ∀ as qs, Makes f as qs → Makes f (a :: as) (ps ++ qs)

theorem adds_of_cons {f : List Pair → Except Flaw (List α)} {p : Pair} {x : Except Flaw Expr}
    {g : Expr → α} {e : Expr} (hf : ∀ qs, f (p :: qs) = x.bind fun e => (f qs).map (g e :: ·))
    (hx : x = verdict p.large? e) : Adds f (g e) [p] := by
  intro as qs hqs
  rw [Makes, List.singleton_append, hf, hx, largeAmong?_cons]
  exact verdict_bind (by rw [hqs, verdict_map])

/-- The rest of the items, from behind one of them to the bracket. -/
def Scheme.furtherItems (item : Scheme) : Scheme :=
  sequence (repeated (sequence (symbol .comma) item)) (optional (symbol .comma))

/-- No item begins with the bracket that closes, and the bracket leaves no pair. -/
structure Closes (item : Scheme) (close : Symbol) : Prop where
  silent : Rule.ofSymbol? close = none
  ne_comma : close ≠ .comma
  nullable : item.pattern.nullable = false
  starts : item.pattern.starts (.symbol close) = false

section

variable {item : Scheme} {r : Reader α} {f : List Pair → Except Flaw (List α)} {close : Symbol}
  {rounds : List Token} {a : α} {as : List α}

theorem Closes.stops_comma (h : Closes item close)
    (hts : Token.list? cs = some (.symbol close :: us)) : (Scheme.symbol .comma).Stops n cs := by
  refine Scheme.stops_symbol hts fun hhead => ?_
  cases hhead
  exact h.ne_comma rfl

/-- Behind the last item stands the bracket, or a comma and the bracket. -/
theorem Closes.lastItem {P : List Pair → Prop} (h : Closes item close) (hnil : P [])
    (hts : Token.list? cs = some ts)
    (hend : ts = .symbol close :: us ∨ ts = .symbol .comma :: .symbol close :: us) :
    Yields P (.symbol close :: us) (item.furtherItems.run (emit n) cs) := by
  rcases hend with rfl | rfl
  · have hstops : (Scheme.sequence (.symbol .comma) item).Stops n cs :=
      (h.stops_comma hts).sequence
    exact (Yields.repeated_nil hstops hts).nil_sequence fun rest hrest =>
      (Yields.optional_nil (h.stops_comma hrest) hrest).of_nil hnil
  · have hstops : (Scheme.sequence (.symbol .comma) item).Stops n cs :=
      .sequence_right (Yields.silent hts rfl) fun _ hrest =>
        Scheme.stops_cons h.nullable hrest h.starts
    exact (Yields.repeated_nil hstops hts).nil_sequence fun rest hrest =>
      (Yields.silent hrest rfl).optional.of_nil hnil

/-- Items that are read are none at all, or an item with the further ones. -/
theorem exists_of_items (h : items close r rounds ts = some (as, us)) :
    (ts = .symbol close :: us ∧ as = []) ∨
      ∃ t rounds' a vs, rounds = t :: rounds' ∧ r ts = some (a, vs) ∧
        behindItem close r rounds' a vs = some (as, us) := by
  by_cases hhead : ts.head? = some (.symbol close)
  · obtain ⟨vs, rfl⟩ := List.head?_eq_some_iff.mp hhead
    unfold items at h
    rw [if_pos hhead] at h
    cases h
    exact .inl ⟨rfl, rfl⟩
  · cases rounds with
    | nil =>
      unfold items at h
      rw [if_neg hhead] at h
      cases h
    | cons t rounds =>
      rw [items_cons hhead] at h
      obtain ⟨⟨a, vs⟩, ha, hbehind⟩ := Option.bind_eq_some_iff.mp h
      exact .inr ⟨t, rounds, a, vs, rfl, ha, hbehind⟩

/-- Behind an item is the end, or a comma and one more item. -/
theorem exists_of_behindItem (h : behindItem close r rounds a ts = some (as, us)) :
    (as = [a] ∧ (ts = .symbol close :: us ∨ ts = .symbol .comma :: .symbol close :: us)) ∨
      ∃ t rounds' b bs vs ws, rounds = t :: rounds' ∧ ts = .symbol .comma :: vs ∧
        r vs = some (b, ws) ∧ behindItem close r rounds' b ws = some (bs, us) ∧ as = a :: bs := by
  unfold behindItem at h
  split at h
  · rename_i s vs
    split at h
    · rename_i hs
      cases h
      exact .inl ⟨rfl, .inl (by rw [hs])⟩
    · split at h
      · rename_i hs
        obtain ⟨⟨bs, us'⟩, hbs, heq⟩ := Option.map_eq_some_iff.mp h
        cases heq
        obtain ⟨rfl, rfl⟩ | ⟨t, rounds, b, ws, rfl, hb, hbehind⟩ := exists_of_items hbs
        · exact .inl ⟨rfl, .inr (by rw [hs])⟩
        · exact .inr ⟨t, rounds, b, bs, vs, ws, rfl, by rw [hs], hb, hbehind, rfl⟩
      · cases h
  · cases h

theorem furtherItems_builds (hclose : Closes item close) (hnil : f [] = .ok [])
    (hitem : Builds n item r (Adds f)) (hts : Token.list? cs = some ts)
    (h : behindItem close r rounds a ts = some (as, us)) :
    Yields (fun ps => ∃ bs, as = a :: bs ∧ Makes f bs ps) (.symbol close :: us)
      (item.furtherItems.run (emit n) cs) := by
  induction rounds generalizing cs ts a as with
  | nil =>
    obtain ⟨rfl, hend⟩ | ⟨_, _, _, _, _, _, hrounds, -⟩ := exists_of_behindItem h
    · exact hclose.lastItem ⟨[], rfl, hnil⟩ hts hend
    · cases hrounds
  | cons round rounds ih =>
    obtain ⟨rfl, hend⟩ | ⟨_, _, b, bs, vs, ws, hrounds, rfl, hb, hbehind, rfl⟩ :=
      exists_of_behindItem h
    · exact hclose.lastItem ⟨[], rfl, hnil⟩ hts hend
    · cases hrounds
      have hstep : Yields (Adds f b) ws
          ((Scheme.sequence (.symbol .comma) item).run (emit n) cs) :=
        (Yields.silent hts rfl).nil_sequence fun _ hrest => hitem hrest hb
      refine .sequence_repeated_cons rfl hts hstep (fun rest hrest _ _ => ih hrest hbehind) ?_
      rintro ps qs hps ⟨cs, rfl, hqs⟩
      exact ⟨_, rfl, hps _ _ hqs⟩

/-- Items between brackets. -/
theorem enclosedItems_builds {o : Symbol} (ho : Rule.ofSymbol? o = none)
    (hclose : Closes item close) (hnil : f [] = .ok []) (hitem : Builds n item r (Adds f))
    (hts : Token.list? cs = some (.symbol o :: ts))
    (h : items close r rounds ts = some (as, us)) :
    Yields (Makes f as) us ((Scheme.enclosedItems o item close).run (emit n) cs) := by
  refine .bracketed hts ho hclose.silent fun rest hrest => ?_
  obtain ⟨rfl, rfl⟩ | ⟨t, rounds', a, vs, rfl, ha, hbehind⟩ := exists_of_items h
  · have hstops : item.Stops n rest := Scheme.stops_cons hclose.nullable hrest hclose.starts
    exact (Yields.optional_nil hstops.sequence.sequence hrest).of_nil hnil
  · refine Yields.optional ?_
    rw [Scheme.commaSeparated, Scheme.run_sequence_assoc]
    refine (hitem hrest ha).sequence
      (fun _ hvs => furtherItems_builds hclose hnil hitem hvs hbehind) ?_
    rintro ps qs hps ⟨bs, rfl, hqs⟩
    exact hps _ _ hqs

end

/-! ### Names -/

theorem eq_of_colon {names params : List String}
    (h : (if ts.head? = some (.symbol .colon) then some (names, ts.tail) else none) =
      some (params, us)) : ts = .symbol .colon :: us ∧ params = names := by
  split at h
  · rename_i hhead
    obtain ⟨vs, rfl⟩ := List.head?_eq_some_iff.mp hhead
    cases h
    exact ⟨rfl, rfl⟩
  · cases h

/-- The further names of a lambda, up to the colon. -/
theorem names_builds {cs : List Char} {ts : List Token} {p : String} {params : List String}
    (hts : Token.list? cs = some ts) (h : parameters (.name p :: ts) = some (params, us)) :
    Yields (fun ps => largeAmong? ps = none ∧ params = p :: ps.map Pair.text)
      (.symbol .colon :: us)
      ((Scheme.repeated (.sequence (.symbol .comma) (.terminal .name))).run (emit n) cs) := by
  by_cases hnext : ∃ q vs, ts = .symbol .comma :: .name q :: vs
  · obtain ⟨q, vs, rfl⟩ := hnext
    obtain ⟨⟨params, us⟩, hparams, heq⟩ := Option.map_eq_some_iff.mp h
    cases heq
    have hstep : Yields (· = [⟨.identifier, q, []⟩]) vs
        ((Scheme.sequence (.symbol .comma) (.terminal .name)).run (emit n) cs) :=
      (Yields.silent hts rfl).nil_sequence fun _ hrest => .name hrest
    refine .repeated_cons rfl hts hstep (fun rest hrest _ _ => names_builds hrest hparams) ?_
    rintro _ qs rfl ⟨hlarge, hqs⟩
    exact ⟨hlarge, congrArg (p :: ·) hqs⟩
  · rw [parameters_of_last p hnext] at h
    obtain ⟨rfl, rfl⟩ := eq_of_colon h
    have hstops : (Scheme.symbol .comma).Stops n cs := Scheme.stops_cons rfl hts rfl
    exact (Yields.repeated_nil hstops.sequence hts).of_nil ⟨rfl, rfl⟩
termination_by cs.length

/-- The names of a lambda and the colon leave one pair, or none if there are no names. -/
theorem parameters?_builds {params : List String} (hts : Token.list? cs = some ts)
    (h : parameters? ts = some (params, us)) :
    Yields (fun ps => largeAmong? ps = none ∧
        ∀ qs, buildLambda [] none (ps ++ qs) = buildLambda params none qs) us
      ((Scheme.sequence (.optional (.rule .parameters (.commaSeparated (.terminal .name))))
        (.symbol .colon)).run (emit n) cs) := by
  by_cases hname : ∃ p vs, ts = .name p :: vs
  · obtain ⟨p, vs, rfl⟩ := hname
    have hnames : Yields (fun ps => largeAmong? ps = none ∧ params = ps.map Pair.text)
        (.symbol .colon :: us) ((Scheme.commaSeparated (.terminal .name)).run (emit n) cs) := by
      refine (Yields.name hts).sequence (fun _ hrest => names_builds hrest h) ?_
      rintro _ qs rfl ⟨hlarge, hqs⟩
      exact ⟨hlarge, hqs⟩
    refine Yields.sequence_nil (hnames.rule fun text ps hps => ?_).optional fun _ hrest =>
      .silent hrest rfl
    obtain ⟨hlarge, rfl⟩ := hps
    refine ⟨?_, fun _ => rfl⟩
    rw [largeAmong?_cons, Pair.large?_of_ne_number (r := .parameters) nofun, hlarge]
    rfl
  · rw [parameters?_of_no_name hname] at h
    obtain ⟨rfl, rfl⟩ := eq_of_colon h
    have hstops : (Scheme.rule .parameters (.commaSeparated (.terminal .name))).Stops n cs :=
      Scheme.stops_cons rfl hts rfl
    exact ((Yields.optional_nil hstops hts).sequence_nil fun _ hrest =>
      .silent hrest rfl).of_nil ⟨rfl, fun _ => rfl⟩

/-! ### Labels -/

/-- One pair of the rule, with a name, an assignment sign and the pair of a value inside. -/
def Labels (r : Rule) (k : String) (e : Expr) (ps : List Pair) : Prop :=
  ∃ text sign value, ps = [⟨r, text, [⟨.identifier, k, []⟩, sign, value]⟩] ∧
    build .logical value = verdict (largeAmong? ps) e

theorem closeParen_closes : Closes .argument .closeParen := ⟨rfl, nofun, rfl, rfl⟩

theorem closeBracket_closes : Closes (.again .expression) .closeBracket := ⟨rfl, nofun, rfl, rfl⟩

section

variable {again : Entry → Reader Expr}
  (hagain : ∀ k, Builds n (.again k) (again k) (Leaves k.rule k.builder))

include hagain

theorem labelled_builds {r : Rule} (hr : r ≠ .number) {k : String} {e : Expr}
    (hts : Token.list? cs = some (.name k :: .symbol .assign :: ts))
    (h : again .expression ts = some (e, us)) :
    Yields (Labels r k e) us ((Scheme.labelled r).run (emit n) cs) := by
  have hvalue (mid : List Char) (hmid : Token.list? mid = some (.symbol .assign :: ts)) :
      Yields (fun ps => ∃ sign value, ps = [sign, value] ∧
        build .logical value = verdict (largeAmong? ps) e) us
      ((Scheme.sequence (.symbol .assign) (.again .expression)).run (emit n) mid) := by
    refine (Yields.symbol hmid).sequence (fun rest hrest => hagain .expression hrest h) ?_
    rintro _ _ rfl ⟨value, rfl, -, hvalue⟩
    exact ⟨_, value, rfl, hvalue.trans (by simp [Rule.ofSymbol?, Pair.large?])⟩
  refine ((Yields.name hts).sequence (R := fun ps => ∃ sign value,
    ps = [⟨.identifier, k, []⟩, sign, value] ∧
      build .logical value = verdict (largeAmong? ps) e) hvalue ?_).rule ?_
  · rintro _ _ rfl ⟨sign, value, rfl, hvalue⟩
    exact ⟨sign, value, rfl, hvalue⟩
  · rintro text _ ⟨sign, value, rfl, hvalue⟩
    refine ⟨text, sign, value, rfl, ?_⟩
    rw [largeAmong?_cons, Pair.large?_of_ne_number hr, largeAmong?_nil, Option.or_none, hvalue]

omit hagain in
/-- Where no name with an assignment sign behind it stands, nothing is labelled. -/
theorem labelled_stops {r : Rule} (hts : Token.list? cs = some ts)
    (hlabel : ¬∃ k us, ts = .name k :: .symbol .assign :: us) : (Scheme.labelled r).Stops n cs :=
  Scheme.stops_of_outcome (.inl (run_labelled_eq_failed hts hlabel))

theorem argument_builds : Builds n .argument (argument again) (Adds buildArguments) := by
  intro cs ts us a hts h
  by_cases hlabel : ∃ k vs, ts = .name k :: .symbol .assign :: vs
  · obtain ⟨k, vs, rfl⟩ := hlabel
    obtain ⟨⟨e, us⟩, he, heq⟩ := Option.map_eq_some_iff.mp h
    cases heq
    refine Yields.choice_left ((labelled_builds hagain (by decide) hts he).mono ?_)
    rintro _ ⟨text, sign, value, rfl, hvalue⟩
    rw [largeAmong?_cons, largeAmong?_nil, Option.or_none] at hvalue
    exact adds_of_cons (fun _ => rfl) hvalue
  · rw [argument_eq_positional again hlabel] at h
    obtain ⟨⟨e, us⟩, he, heq⟩ := Option.map_eq_some_iff.mp h
    cases heq
    refine .choice_right (labelled_stops hts hlabel) ((hagain .expression hts he).mono ?_)
    rintro _ ⟨⟨r, text, inner⟩, rfl, hr, hp⟩
    cases hr
    exact adds_of_cons (fun _ => rfl) hp

theorem item_builds : Builds n (.again .expression) (again .expression) (Adds buildItems) := by
  intro cs ts us e hts h
  refine (hagain .expression hts h).mono ?_
  rintro _ ⟨p, rfl, -, hp⟩
  exact adds_of_cons (f := buildItems) (g := id) (fun _ => rfl) hp

end

end Reckoner.Grammar
