import Reckoner.Proofs.Grammar.Magnitudes
import Reckoner.Proofs.Grammar.Recognition

/-!
# What the builder makes of a match

Where a reader of tokens reads a tree, the rule of the same name leaves pairs of which the builder
makes this tree, unless a number among them is too large (`verdict`). So no builder meets a pair
that it does not expect. The proof goes along the readers: each rule leaves the pairs of its parts
(`Yields`), and the loops of the builders take the pairs of one step after the other.
-/

namespace Reckoner.Grammar

variable {n : Nat} {cs rest : List Char} {t : Token} {ts us vs : List Token}

/-! ### Where a scheme stops -/

/-- The scheme does not match here. -/
def Scheme.Stops (n : Nat) (p : Scheme) (cs : List Char) : Prop :=
  p.run (emit n) cs = .failed ∨ p.run (emit n) cs = .exhausted

namespace Scheme

variable {p q : Scheme}

theorem outcome_run_emit (n : Nat) (p : Scheme) (cs : List Char) :
    (p.run (emit n) cs).outcome = p.pattern.run (enter n) cs :=
  outcome_run (outcome_emit n) p cs

theorem stops_of_outcome (h : p.pattern.run (enter n) cs = .failed ∨
    p.pattern.run (enter n) cs = .exhausted) : p.Stops n cs := by
  rw [← outcome_run_emit] at h
  unfold Stops
  cases hrun : p.run (emit n) cs with
  | matched => rw [hrun] at h; rcases h with h | h <;> cases h
  | failed => exact .inl rfl
  | exhausted => exact .inr rfl

/-- A scheme that reads a token does not match where none stands with which it begins. -/
theorem stops_of_not_starts (hn : p.pattern.nullable = false) (hts : Token.list? cs = some ts)
    (hstarts : ∀ t ∈ ts.head?, p.pattern.starts t = false) : p.Stops n cs := by
  refine stops_of_outcome ?_
  rcases p.pattern.run_of_not_starts hts (fun h => enter_of_not_begins hts h) hstarts with
    h | ⟨hnull, -⟩ | ⟨-, h⟩
  · exact .inl h
  · rw [hn] at hnull
    cases hnull
  · exact .inr h

theorem stops_cons (hn : p.pattern.nullable = false) (hts : Token.list? cs = some (t :: ts))
    (ht : p.pattern.starts t = false) : p.Stops n cs :=
  stops_of_not_starts hn hts (by rintro _ ⟨⟩; exact ht)

theorem stops_symbol {s : Symbol} (hts : Token.list? cs = some ts)
    (hs : ts.head? ≠ some (.symbol s)) : (symbol s).Stops n cs :=
  stops_of_outcome (.inl (Pattern.run_symbol_of_head?_ne hts hs))

theorem Stops.sequence (h : p.Stops n cs) : (Scheme.sequence p q).Stops n cs := by
  rcases h with h | h
  · exact .inl (by rw [run, h])
  · exact .inr (by rw [run, h])

theorem run_sequence_assoc {e : Entry → Emitter} {r : Scheme} :
    (sequence (sequence p q) r).run e cs = (sequence p (sequence q r)).run e cs := by
  rw [run, run, run]
  cases p.run e cs with
  | matched mid ps =>
    dsimp only
    rw [run]
    cases q.run e mid with
    | matched rest qs => exact (Emission.behind_behind ps qs _).symm
    | failed | exhausted => rfl
  | failed | exhausted => rfl

/-- Behind a match that reads a token there are fewer characters and fewer tokens. -/
theorem lt_of_matched {ps : List Pair} (hn : p.pattern.nullable = false)
    (hts : Token.list? cs = some ts) (hrun : p.run (emit n) cs = .matched rest ps)
    (hus : Token.list? rest = some us) : rest.length < cs.length ∧ us.length < ts.length := by
  have hmatched : p.pattern.run (enter n) cs = .matched rest := by
    rw [← outcome_run_emit, hrun, Emission.outcome]
  have hsteps := steps_of_run hn hmatched
  obtain ⟨ts', hts', hlt⟩ := exists_list?_of_steps hsteps hus
  obtain rfl := Option.some_inj.mp (hts.symm.trans hts')
  exact ⟨length_lt_of_steps hsteps, hlt⟩

theorem run_sequence_repeated_of_matched {e : Entry → Emitter} {ps : List Pair}
    (h : p.run e cs = .matched rest ps) (hshorter : rest.length < cs.length) :
    (p.repeated.sequence q).run e cs = ((p.repeated.sequence q).run e rest).behind ps := by
  have hloop : p.repeated.run e cs = (p.repeated.run e rest).behind ps := by
    rw [run, run, emitWhile, h]
    exact if_pos hshorter
  rw [run, run, hloop]
  cases p.repeated.run e rest with
  | matched mid qs =>
    exact (Emission.behind_behind ps qs _).symm
  | failed | exhausted => rfl

end Scheme

/-! ### The pairs of a match -/

/-- The scheme matches as far as the tokens are read and leaves good pairs, or it gives up. -/
inductive Yields (good : List Pair → Prop) (us : List Token) : Emission → Prop
  | exhausted : Yields good us .exhausted
  | matched {rest : List Char} {ps : List Pair} (hus : Token.list? rest = some us)
      (hps : good ps) : Yields good us (.matched rest ps)

namespace Yields

variable {P Q R : List Pair → Prop} {o : Emission} {e : Entry → Emitter} {p q : Scheme}

theorem mono (h : Yields P us o) (hle : ∀ ps, P ps → Q ps) : Yields Q us o := by
  cases h with
  | exhausted => exact .exhausted
  | matched hus hps => exact .matched hus (hle _ hps)

theorem of_nil (h : Yields (· = []) us o) (hnil : P []) : Yields P us o :=
  h.mono fun ps hps => by
    rw [hps]
    exact hnil

theorem behind {ps : List Pair} (h : Yields P us o) (hle : ∀ qs, P qs → Q (ps ++ qs)) :
    Yields Q us (o.behind ps) := by
  cases h with
  | exhausted => exact .exhausted
  | matched hus hps => exact .matched hus (hle _ hps)

theorem sequence (hp : Yields P us (p.run e cs))
    (hq : ∀ rest, Token.list? rest = some us → Yields Q vs (q.run e rest))
    (hle : ∀ ps qs, P ps → Q qs → R (ps ++ qs)) : Yields R vs ((p.sequence q).run e cs) := by
  rw [Scheme.run]
  generalize p.run e cs = o at hp
  cases hp with
  | exhausted => exact .exhausted
  | matched hus hps => exact (hq _ hus).behind fun qs => hle _ qs hps

/-- What leaves no pairs is passed over. -/
theorem nil_sequence (hp : Yields (· = []) us (p.run e cs))
    (hq : ∀ rest, Token.list? rest = some us → Yields Q vs (q.run e rest)) :
    Yields Q vs ((p.sequence q).run e cs) :=
  hp.sequence hq fun ps qs hps hqs => by
    rw [hps]
    exact hqs

theorem sequence_nil (hp : Yields P us (p.run e cs))
    (hq : ∀ rest, Token.list? rest = some us → Yields (· = []) vs (q.run e rest)) :
    Yields P vs ((p.sequence q).run e cs) :=
  hp.sequence hq fun ps qs hps hqs => by
    rw [hqs, List.append_nil]
    exact hps

theorem rule {r : Rule} (hp : Yields P us (p.run e cs))
    (hle : ∀ text ps, P ps → Q [⟨r, text, ps⟩]) : Yields Q us ((Scheme.rule r p).run e cs) := by
  rw [Scheme.run]
  generalize p.run e cs = o at hp
  cases hp with
  | exhausted => exact .exhausted
  | matched hus hps => exact .matched hus (hle _ _ hps)

theorem choice_left (hp : Yields P us (p.run e cs)) : Yields P us ((p.choice q).run e cs) := by
  rw [Scheme.run]
  generalize p.run e cs = o at hp
  cases hp with
  | exhausted => exact .exhausted
  | matched hus hps => exact .matched hus hps

theorem choice_right (hp : p.Stops n cs) (hq : Yields P us (q.run (emit n) cs)) :
    Yields P us ((p.choice q).run (emit n) cs) := by
  rw [Scheme.run]
  rcases hp with hp | hp
  · rw [hp]
    exact hq
  · rw [hp]
    exact .exhausted

/-- An alternative is passed over where it cannot begin. -/
theorem skip (hts : Token.list? cs = some (t :: ts))
    (hp : p.pattern.nullable = false ∧ p.pattern.starts t = false)
    (hq : Yields P us (q.run (emit n) cs)) : Yields P us ((p.choice q).run (emit n) cs) :=
  .choice_right (Scheme.stops_cons hp.1 hts hp.2) hq

theorem optional (hp : Yields P us (p.run e cs)) : Yields P us (p.optional.run e cs) := by
  rw [Scheme.run]
  generalize p.run e cs = o at hp
  cases hp with
  | exhausted => exact .exhausted
  | matched hus hps => exact .matched hus hps

theorem optional_nil (hp : p.Stops n cs) (hts : Token.list? cs = some ts) :
    Yields (· = []) ts (p.optional.run (emit n) cs) := by
  rw [Scheme.run]
  rcases hp with hp | hp
  · rw [hp]
    exact .matched hts rfl
  · rw [hp]
    exact .exhausted

theorem repeated_nil (hp : p.Stops n cs) (hts : Token.list? cs = some ts) :
    Yields (· = []) ts (p.repeated.run (emit n) cs) := by
  rw [Scheme.run, emitWhile]
  rcases hp with hp | hp
  · rw [hp]
    exact .matched hts rfl
  · rw [hp]
    exact .exhausted

/-- One more match of a repetition; fewer characters and tokens are left behind it. -/
theorem repeated_cons (hn : p.pattern.nullable = false) (hts : Token.list? cs = some ts)
    (hp : Yields P us (p.run (emit n) cs))
    (hrest : ∀ rest, Token.list? rest = some us → rest.length < cs.length →
      us.length < ts.length → Yields Q vs (p.repeated.run (emit n) rest))
    (hle : ∀ ps qs, P ps → Q qs → R (ps ++ qs)) : Yields R vs (p.repeated.run (emit n) cs) := by
  rw [Scheme.run, emitWhile]
  generalize hrun : p.run (emit n) cs = o at hp
  cases hp with
  | exhausted => exact .exhausted
  | @matched rest ps hus hps =>
    obtain ⟨hshorter, hlt⟩ := Scheme.lt_of_matched hn hts hrun hus
    simp only [if_pos hshorter]
    exact (hrest rest hus hshorter hlt).behind fun qs => hle ps qs hps

theorem sequence_repeated_cons (hn : p.pattern.nullable = false) (hts : Token.list? cs = some ts)
    (hp : Yields P us (p.run (emit n) cs))
    (hrest : ∀ rest, Token.list? rest = some us → rest.length < cs.length →
      us.length < ts.length → Yields Q vs ((p.repeated.sequence q).run (emit n) rest))
    (hle : ∀ ps qs, P ps → Q qs → R (ps ++ qs)) :
    Yields R vs ((p.repeated.sequence q).run (emit n) cs) := by
  generalize hrun : p.run (emit n) cs = o at hp
  cases hp with
  | exhausted =>
    rw [Scheme.run, Scheme.run, emitWhile, hrun]
    exact .exhausted
  | @matched rest ps hus hps =>
    obtain ⟨hshorter, hlt⟩ := Scheme.lt_of_matched hn hts hrun hus
    rw [Scheme.run_sequence_repeated_of_matched hrun hshorter]
    exact (hrest rest hus hshorter hlt).behind fun qs => hle ps qs hps

end Yields

theorem Scheme.Stops.sequence_right {P : List Pair → Prop} {p q : Scheme}
    (hp : Yields P us (p.run (emit n) cs))
    (hq : ∀ rest, Token.list? rest = some us → q.Stops n rest) :
    (Scheme.sequence p q).Stops n cs := by
  unfold Stops
  rw [run]
  generalize p.run (emit n) cs = o at hp
  cases hp with
  | exhausted => exact .inr rfl
  | matched hus hps =>
    rcases hq _ hus with h | h
    · exact .inl (by simp only [h, Emission.behind])
    · exact .inr (by simp only [h, Emission.behind])

/-! ### Tokens -/

namespace Yields

variable {e : Entry → Emitter}

theorem terminal {u : Terminal} (hts : Token.list? cs = some (t :: ts))
    (hu : u.accepts t = true) :
    Yields (fun ps => ∃ sp, Token.Spells sp t ∧ ps = u.pairs sp) ts
      ((Scheme.terminal u).run e cs) := by
  obtain ⟨rest, hread, hrest⟩ := Token.exists_read?_of_list? hts
  obtain ⟨sp, hsp, hspells⟩ := Token.read?_sound hread
  rw [Scheme.run, Terminal.emit, hread]
  simp only [hu, if_true]
  exact .matched hrest ⟨sp, hspells, by rw [stretch_eq hsp, String.toList_ofList]⟩

theorem symbol {s : Symbol} (hts : Token.list? cs = some (.symbol s :: ts)) :
    Yields (· = (Rule.ofSymbol? s).toList.map (⟨·, .ofList s.spelling, []⟩)) ts
      ((Scheme.symbol s).run e cs) :=
  (terminal (u := .symbol s) hts (decide_eq_true rfl)).mono fun ps ⟨sp, hsp, hps⟩ => by
    cases hsp
    exact hps

theorem keyword {k : Keyword} (hts : Token.list? cs = some (.keyword k :: ts)) :
    Yields (· = [⟨.ofKeyword k, k.spelling, []⟩]) ts ((Scheme.keyword k).run e cs) :=
  (terminal (u := .keyword k) hts (decide_eq_true rfl)).mono fun ps ⟨sp, hsp, hps⟩ => by
    cases hsp
    rw [hps, Terminal.pairs, String.ofList_toList]

theorem name {id : String} (hts : Token.list? cs = some (.name id :: ts)) :
    Yields (· = [⟨.identifier, id, []⟩]) ts ((Scheme.terminal .name).run e cs) :=
  (terminal hts rfl).mono fun ps ⟨sp, hsp, hps⟩ => by
    cases hsp
    rw [hps, Terminal.pairs, String.ofList_toList]

end Yields

/-! ### What is built -/

/-- The tree, unless there is a large number. -/
def verdict (large : Option String) (a : α) : Except Flaw α :=
  match large with
  | none => .ok a
  | some text => .error (.large text)

theorem verdict_bind {x y : Option String} {a : α} {b : β} {k : α → Except Flaw β}
    (h : k a = verdict y b) : (verdict x a).bind k = verdict (x.or y) b := by
  cases x with
  | none => exact h
  | some text => rfl

theorem verdict_map {x : Option String} {a : α} (f : α → β) :
    (verdict x a).map f = verdict x (f a) := by
  cases x <;> rfl

/-- The builder makes the tree of some pairs, as far as their numbers allow. -/
def Makes (f : List Pair → Except Flaw α) (a : α) (ps : List Pair) : Prop :=
  f ps = verdict (largeAmong? ps) a

/-- One pair of the rule, of which the builder makes the tree. -/
def Leaves (r : Rule) (b : Builder) (e : Expr) (ps : List Pair) : Prop :=
  ∃ p, ps = [p] ∧ p.rule = r ∧ build b p = verdict p.large? e

/-- In a pair of the rule they are the pairs of which the builder makes the tree. -/
def Fills (r : Rule) (b : Builder) (e : Expr) (ps : List Pair) : Prop :=
  ∀ text, build b ⟨r, text, ps⟩ = verdict (largeAmong? ps) e

theorem Fills.leaves {r : Rule} (hr : r ≠ .number) {b : Builder} {e : Expr} {ps : List Pair}
    (h : Fills r b e ps) (text : String) : Leaves r b e [⟨r, text, ps⟩] :=
  ⟨_, rfl, rfl, by rw [h, Pair.large?_of_ne_number hr]⟩

/-- What fills a pair is left in one. -/
theorem Yields.leaves {e : Entry → Emitter} {p : Scheme} {r : Rule} {b : Builder} {x : Expr}
    (hr : r ≠ .number) (h : Yields (Fills r b x) us (p.run e cs)) :
    Yields (Leaves r b x) us ((Scheme.rule r p).run e cs) :=
  h.rule fun text _ hps => hps.leaves hr text

/-- The pairs bring the builder of a list from one tree to another. -/
def Extends (f : α → List Pair → Except Flaw α) (g : α → α) (ps : List Pair) : Prop :=
  ∀ a b qs, Makes (f (g a)) b qs → Makes (f a) b (ps ++ qs)

/-- Wherever the reader reads, the scheme leaves good pairs. -/
def Builds (n : Nat) (p : Scheme) (r : Reader α) (good : α → List Pair → Prop) : Prop :=
  ∀ ⦃cs : List Char⦄ ⦃ts us : List Token⦄ ⦃a : α⦄, Token.list? cs = some ts →
    r ts = some (a, us) → Yields (good a) us (p.run (emit n) cs)

/-! ### Repetition -/

/-- A repetition leaves the pairs that bring the builder as far as the loop of the reader goes. -/
theorem repeated_builds {p : Scheme} (hn : p.pattern.nullable = false)
    {step : Reader (α → α)} {loop : List Token → α → Reader α}
    (hloop : Loops p.pattern step loop) {f : α → List Pair → Except Flaw α}
    (hnil : ∀ a, f a [] = .ok a) (hstep : Builds n p step (Extends f))
    {cs : List Char} {ts rounds us : List Token} {a b : α} (hts : Token.list? cs = some ts)
    (hrounds : ts.length ≤ rounds.length) (h : loop rounds a ts = some (b, us)) :
    Yields (Makes (f a) b) us (p.repeated.run (emit n) cs) := by
  by_cases hhead : ∀ t ∈ ts.head?, p.pattern.starts t = false
  · rw [hloop.stops rounds a ts hhead] at h
    cases h
    exact (Yields.repeated_nil (Scheme.stops_of_not_starts hn hts hhead) hts).of_nil (hnil a)
  · obtain ⟨t, vs, rfl, ht⟩ := exists_cons_of_not hhead
    obtain ⟨r, rounds, rfl⟩ := List.exists_cons_of_length_pos
      (Nat.lt_of_lt_of_le (Nat.succ_pos _) hrounds)
    rw [hloop.goes r rounds a t vs ht] at h
    cases hread : step (t :: vs) with
    | none =>
      rw [hread] at h
      cases h
    | some next =>
      obtain ⟨g, ws⟩ := next
      simp only [hread] at h
      refine .repeated_cons hn hts (hstep hts hread) (fun rest hws hshorter hlt => ?_)
        fun ps qs hps hqs => hps a b qs hqs
      exact repeated_builds hn hloop hnil hstep hws (by simp at hrounds hlt; omega) h
termination_by cs.length

/-! ### Chains -/

/-- One pair, whose text the chain finds in its table. -/
def Joins (c : Chain) (join : Expr → Expr → Expr) (ps : List Pair) : Prop :=
  ∃ p, ps = [p] ∧ largeAmong? ps = none ∧ c.join p.text = .ok join

/-- Where the reader has an operator and an operand, the operator leaves a pair of the table. -/
def Finds (n : Nat) (c : Chain) (operator : Scheme) (join? : Token → Option (Expr → Expr → Expr))
    (operand : Reader Expr) : Prop :=
  ∀ ⦃cs : List Char⦄ ⦃t : Token⦄ ⦃ts us : List Token⦄ ⦃join : Expr → Expr → Expr⦄ ⦃e : Expr⦄,
    Token.list? cs = some (t :: ts) → join? t = some join → operand ts = some (e, us) →
      Yields (Joins c join) ts (operator.run (emit n) cs)

section

variable {c : Chain} {r r' : Rule} {operator q : Scheme}
  {join? : Token → Option (Expr → Expr → Expr)} {operand : Reader Expr}

theorem joinStep_builds (hoperator : Finds n c operator join? operand)
    (hoperand : Builds n q operand (Leaves r' c.operand)) :
    Builds n (.sequence operator q) (joinStep join? operand) (Extends (buildChain c)) := by
  intro cs ts us g hts h
  cases ts with
  | nil => cases h
  | cons t ts =>
    rw [joinStep] at h
    cases hjoin : join? t with
    | none =>
      rw [hjoin] at h
      cases h
    | some join =>
      simp only [hjoin] at h
      obtain ⟨⟨right, vs⟩, hright, heq⟩ := Option.map_eq_some_iff.mp h
      cases heq
      refine (hoperator hts hjoin hright).sequence (fun rest hrest => hoperand hrest hright) ?_
      rintro _ _ ⟨operator, rfl, hlarge, hword⟩ ⟨p, rfl, -, hp⟩ left e qs hqs
      have hrest : (build c.operand p).bind (fun right => buildChain c (join left right) qs) =
          verdict (p.large?.or (largeAmong? qs)) e := by
        rw [hp]
        exact verdict_bind hqs
      show (c.join operator.text).bind _ = _
      rw [hword]
      refine hrest.trans ?_
      rw [List.append_assoc, largeAmong?_append, hlarge]
      simp

/-- A level whose operators join from the left. -/
theorem chain_builds (hr : r ≠ .number) (hn : operator.pattern.nullable = false)
    (hstarts : ∀ t, operator.pattern.starts t = (join? t).isSome)
    (hoperator : Finds n c operator join? operand)
    (hoperand : Builds n q operand (Leaves r' c.operand)) :
    Builds n (.chain r q operator) (leftToRight join? operand) (Leaves r (.chain c)) := by
  intro cs ts us e hts h
  have hn' : (operator.sequence q).pattern.nullable = false := by
    rw [Scheme.pattern, Pattern.nullable, hn, Bool.false_and]
  have hstarts' (t : Token) : (operator.sequence q).pattern.starts t = (join? t).isSome := by
    rw [Scheme.pattern, Pattern.starts, hn, Bool.false_and, Bool.or_false, hstarts]
  rw [leftToRight_eq_bind] at h
  obtain ⟨⟨left, vs⟩, hleft, h⟩ := Option.bind_eq_some_iff.mp h
  have hinner : Yields (Fills r (.chain c) e) us
      ((q.sequence (operator.sequence q).repeated).run (emit n) cs) := by
    refine (hoperand hts hleft).sequence (fun rest hrest => repeated_builds hn'
      (chain_loops hstarts') (fun _ => rfl) (joinStep_builds hoperator hoperand) hrest
      (Nat.le_refl _) h) ?_
    rintro _ qs ⟨p, rfl, -, hp⟩ hqs text
    show (build c.operand p).bind _ = _
    rw [hp]
    exact verdict_bind hqs
  exact hinner.leaves hr

end

end Reckoner.Grammar
