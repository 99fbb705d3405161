import Reckoner.Proofs.Grammar.Phrase

/-!
# Soundness of the grammar

Whatever the grammar reads at a level is a phrase of that level. Each reader is sound if
the readers it enters again are, and `read` is sound at every entry by induction on the
entries it may still open (`read_sound`).
-/

namespace Reckoner.Grammar

/-- The reader finds only phrases of the level. -/
def Sound (l : Level) (r : Reader Expr) : Prop :=
  ∀ {ts e rest}, r ts = some (e, rest) → Phrase l ts e rest

/-- The level at which the grammar enters itself again. -/
def Entry.level : Entry → Level
  | .expression => .expression
  | .negation => .negation
  | .factor => .factor

/-! ### Lists -/

/-- Items up to a closing bracket come from pieces of the text with commas between them. -/
theorem items_sound {P : Type} {tokens : P → List Token} {value : P → α} {Good : P → Prop}
    {close : Symbol} {item : Reader α}
    (hitem : ∀ {ts a rest}, item ts = some (a, rest) →
      ∃ p, ts = tokens p ++ rest ∧ a = value p ∧ Good p)
    {rounds ts rest : List Token} {as : List α}
    (h : items close item rounds ts = some (as, rest)) :
    ∃ trailing, ∃ ps : List P, ts = commaJoined trailing (ps.map tokens) ++ .symbol close :: rest ∧
      as = ps.map value ∧ ∀ p ∈ ps, Good p := by
  fun_induction items close item rounds ts generalizing as with
  | case1 rounds ts hc =>
    cases h
    obtain ⟨ts, rfl⟩ := List.head?_eq_some_iff.mp hc
    exact ⟨false, [], rfl, rfl, by simp⟩
  | case2 ts _ _ _ a after hi =>
    cases h
    obtain ⟨p, rfl, rfl, hp⟩ := hitem hi
    exact ⟨false, [p], rfl, rfl, by simpa using hp⟩
  | case3 ts _ _ _ a after hi _ ih =>
    obtain ⟨p, rfl, rfl, hp⟩ := hitem hi
    obtain ⟨⟨bs, _⟩, hb, heq⟩ := Option.map_eq_some_iff.mp h
    cases heq
    obtain ⟨trailing, ps, rfl, rfl, hps⟩ := ih hb
    -- a comma behind the last item is read like one before a further item
    cases ps with
    | nil => exact ⟨true, [p], by simp [commaJoined], rfl, by simpa using hp⟩
    | cons q qs =>
      exact ⟨trailing, p :: q :: qs, by simp [commaJoined], rfl, List.forall_mem_cons.mpr ⟨hp, hps⟩⟩
  | case4 => cases h
  | case5 => cases h

theorem parameters_sound {ts rest : List Token} {params : List String}
    (h : parameters ts = some (params, rest)) :
    ts = parameterTokens params ++ .symbol .colon :: rest := by
  fun_induction parameters ts generalizing params with
  | case1 p ts =>
    cases h
    rfl
  | case2 p ts ih =>
    obtain ⟨⟨ps, end'⟩, hp, heq⟩ := Option.map_eq_some_iff.mp h
    cases heq
    rw [ih hp]
    cases ps with
    | nil =>
      unfold parameters at hp
      split at hp <;> simp at hp
    | cons q qs => rfl
  | case3 => cases h

theorem parameters?_sound {ts rest : List Token} {params : List String}
    (h : parameters? ts = some (params, rest)) :
    ts = parameterTokens params ++ .symbol .colon :: rest := by
  unfold parameters? at h
  split at h
  · cases h
    rfl
  · exact parameters_sound h

section

variable {again : Entry → Reader Expr} (hagain : ∀ k : Entry, Sound k.level (again k))

include hagain

theorem argument_sound {ts rest : List Token} {a : Argument}
    (h : argument again ts = some (a, rest)) :
    ∃ p : Piece, ts = p.tokens ++ rest ∧ a = p.argument ∧
      Writes p.body p.value ∧ p.value.shaped = true ∧ p.value.level ≤ .expression := by
  unfold argument at h
  split at h
  · rename_i k ts
    obtain ⟨⟨e, end'⟩, he, heq⟩ := Option.map_eq_some_iff.mp h
    cases heq
    have hp : Phrase .expression _ _ _ := hagain .expression he
    obtain ⟨used, rfl, hw⟩ := hp.writes
    exact ⟨⟨some k, used, e⟩, rfl, rfl, hw, hp.shaped, hp.level_le⟩
  · obtain ⟨⟨e, end'⟩, he, heq⟩ := Option.map_eq_some_iff.mp h
    cases heq
    have hp : Phrase .expression _ _ _ := hagain .expression he
    obtain ⟨used, rfl, hw⟩ := hp.writes
    exact ⟨⟨none, used, e⟩, rfl, rfl, hw, hp.shaped, hp.level_le⟩

theorem element_sound {ts rest : List Token} {e : Expr}
    (h : again .expression ts = some (e, rest)) :
    ∃ p : Piece, ts = p.body ++ rest ∧ e = p.value ∧
      Writes p.body p.value ∧ p.value.shaped = true ∧ p.value.level ≤ .expression := by
  have hp : Phrase .expression _ _ _ := hagain .expression h
  obtain ⟨used, rfl, hw⟩ := hp.writes
  exact ⟨⟨none, used, e⟩, rfl, rfl, hw, hp.shaped, hp.level_le⟩

/-! ### Single pieces -/

theorem primary_sound : Sound .primary (primary again) := by
  intro ts e rest h
  unfold primary at h
  split at h
  · cases h
    exact ⟨⟨_, rfl, .number _⟩, rfl, Nat.le_refl _, .of_primary⟩
  · cases h
    exact ⟨⟨_, rfl, .text _⟩, rfl, Nat.le_refl _, .of_primary⟩
  · cases h
    exact ⟨⟨_, rfl, .name _⟩, rfl, Nat.le_refl _, .of_primary⟩
  · split at h
    · cases h
    · rename_i ts params after hp
      obtain ⟨⟨b, _⟩, hb, heq⟩ := Option.map_eq_some_iff.mp h
      cases heq
      have hbody : Phrase .expression _ _ _ := hagain .expression hb
      obtain ⟨used, rfl, hw⟩ := hbody.writes
      refine ⟨⟨_, ?_, .lambda params hw⟩, ?_, Nat.le_refl _, ?_⟩
      · simp [parameters?_sound hp]
      · exact Expr.shaped_iff.mpr ⟨by simpa [Expr.rootShaped] using hbody.level_le,
          by simpa [Expr.children] using hbody.shaped⟩
      · -- a lambda stops where its body does, at every level
        have hs := hbody.stops
        rwa [show b.reach .expression = .expression from ite_self _] at hs
  · split at h
    · rename_i ts e' rest' he
      cases h
      have hinner : Phrase .expression _ _ _ := hagain .expression he
      obtain ⟨used, rfl, hw⟩ := hinner.writes
      refine ⟨⟨_, ?_, .group hw⟩, ?_, Nat.le_refl _, .of_primary⟩
      · simp
      · exact Expr.shaped_iff.mpr ⟨by simpa [Expr.rootShaped] using hinner.level_le,
          by simpa [Expr.children] using hinner.shaped⟩
    · cases h
  · obtain ⟨⟨es, _⟩, hes, heq⟩ := Option.map_eq_some_iff.mp h
    cases heq
    obtain ⟨trailing, ps, rfl, rfl, hps⟩ := items_sound (element_sound hagain) hes
    refine ⟨⟨_, ?_, .list trailing fun p hp => (hps p hp).1⟩, ?_, Nat.le_refl _, .of_primary⟩
    · simp
    · rw [Expr.shaped_iff, Expr.rootShaped, Expr.children, List.all_eq_true]
      simp only [List.forall_mem_map, decide_eq_true_eq]
      exact ⟨fun p hp => (hps p hp).2.2, fun p hp => (hps p hp).2.1⟩
  · cases h

/-- A base with what was read behind it is a phrase again. -/
theorem suffixes_sound {rounds before ts rest : List Token} {base e : Expr}
    (hw : Writes before base) (hshaped : base.shaped = true) (hlevel : base.level ≤ .postfixed)
    (hstops : Stops (base.reach .primary) ts) (hrounds : ts.length ≤ rounds.length)
    (h : suffixes again rounds base ts = some (e, rest)) :
    Phrase .postfixed (before ++ ts) e rest := by
  fun_induction suffixes again rounds base ts generalizing before with
  | case1 => cases h
  | case2 _ rounds base ts as after has ih =>
    obtain ⟨trailing, ps, rfl, rfl, hps⟩ := items_sound (argument_sound hagain) has
    have hbase : base.isBase .postfixed = true := by
      simp [Expr.isBase, hlevel, hstops.closed rfl (by decide)]
    have hcall := Writes.call trailing hw fun p hp => (hps p hp).1
    have hroot := Expr.rootShaped_call_iff.mpr ⟨hbase, fun p hp => (hps p hp).2.2⟩
    have hargs := (Piece.forall_argument_iff (P := fun e => e.shaped = true)).mpr
      fun p hp => (hps p hp).2.1
    have := ih hcall (Expr.shaped_iff.mpr ⟨hroot, List.forall_mem_cons.mpr ⟨hshaped, hargs⟩⟩)
      (Nat.le_refl _) .of_primary (by simp at hrounds; omega) h
    simpa using this
  | case3 _ rounds base ts i after hi ih =>
    have hindex : Phrase .expression _ _ _ := hagain .expression hi
    obtain ⟨used, rfl, hu⟩ := hindex.writes
    have hroot : (Expr.subscript base i).rootShaped = true := by
      simpa [Expr.rootShaped, Expr.isBase, hlevel, hstops.closed rfl (by decide)]
        using hindex.level_le
    have := ih (.subscript hw hu)
      (Expr.shaped_iff.mpr ⟨hroot, by simpa [Expr.children] using ⟨hshaped, hindex.shaped⟩⟩)
      (Nat.le_refl _) .of_primary (by simp at hrounds; omega) h
    simpa using this
  | case4 => cases h
  | case5 _ rounds base p after ih =>
    have hroot : (Expr.attribute base p).rootShaped = true := by
      simp [Expr.rootShaped, Expr.isBase, hlevel, hstops.closed rfl (by decide)]
    have := ih (.property p hw)
      (Expr.shaped_iff.mpr ⟨hroot, by simpa [Expr.children] using hshaped⟩)
      (Nat.le_refl _) .of_primary (by simp at hrounds; omega) h
    simpa using this
  | case6 => cases h
  | case7 rounds _ _ hcall hsub hattr =>
    cases h
    refine ⟨⟨before, rfl, hw⟩, hshaped, hlevel, ?_⟩
    cases ho : e.endsOpen with
    | true => rwa [Expr.reach_of_open ho, ← Expr.reach_of_open (l := .primary) ho]
    | false =>
      rw [Expr.reach_of_closed ho]
      -- there are rounds left as long as there are tokens
      have hr {t : Token} {us : List Token} (ht : rest = t :: us) : ∃ r rs, rounds = r :: rs := by
        subst ht
        exact List.exists_cons_of_length_pos (Nat.lt_of_lt_of_le (Nat.succ_pos _) hrounds)
      refine .postfixed_of_ne (fun us hus => ?_) (fun us hus => ?_) (fun us hus => ?_)
      · obtain ⟨r, rs, hrs⟩ := hr hus
        exact hcall r rs us hrs hus
      · obtain ⟨r, rs, hrs⟩ := hr hus
        exact hsub r rs us hrs hus
      · obtain ⟨r, rs, hrs⟩ := hr hus
        exact hattr r rs us hrs hus

theorem postfixed_sound : Sound .postfixed (postfixed again) := by
  intro ts e rest h
  unfold postfixed at h
  split at h
  · cases h
  · rename_i base after hb
    have hp := primary_sound hagain hb
    obtain ⟨used, rfl, hw⟩ := hp.writes
    exact suffixes_sound hagain hw hp.shaped (Nat.le_trans hp.level_le (by decide)) hp.stops
      (Nat.le_refl _) h

/-! ### The levels -/

theorem power_sound : Sound .power (power again) := by
  intro ts e rest h
  unfold power at h
  split at h
  · rename_i base after hb
    obtain ⟨⟨x, _⟩, hx, heq⟩ := Option.map_eq_some_iff.mp h
    cases heq
    have hbase := postfixed_sound hagain hb
    have hexp : Phrase .factor _ _ _ := hagain .factor hx
    obtain ⟨used, rfl, hw⟩ := hbase.writes
    obtain ⟨used', rfl, hw'⟩ := hexp.writes
    have hroot : (Expr.binary .power base x).rootShaped = true := by
      simpa [Expr.rootShaped, Expr.isBase] using
        ⟨⟨hbase.level_le, hbase.stops.closed rfl (by decide)⟩, hexp.level_le⟩
    refine ⟨⟨_, ?_, .join (.arithmetic .power) hw hw'⟩,
      Expr.shaped_iff.mpr ⟨hroot, ?_⟩, Nat.le_refl _, ?_⟩
    · simp [Join.token, Operator.token]
    · simpa [Join.apply, Expr.children] using ⟨hbase.shaped, hexp.shaped⟩
    · exact hexp.stops.mono (Expr.reach_le rfl (by decide))
  · rename_i hpow
    have hbase := postfixed_sound hagain h
    refine hbase.weaken (by decide) fun ho => ?_
    have hs := hbase.stops
    rw [Expr.reach_of_closed ho] at hs
    exact hs.power_of_ne fun us hus => hpow e us (hus ▸ h)

omit hagain in
/-- A sign in front of a factor makes a factor. -/
theorem signed_phrase {s : Sign} {ts rest : List Token} {e : Expr} (h : Phrase .factor ts e rest) :
    Phrase .factor (s.token :: ts) (.signed s e) rest := by
  obtain ⟨used, rfl, hw⟩ := h.writes
  refine ⟨⟨_, rfl, .signed s hw⟩, Expr.shaped_iff.mpr ⟨?_, ?_⟩, Nat.le_refl _, ?_⟩
  · simpa [Expr.rootShaped] using h.level_le
  · simpa [Expr.children] using h.shaped
  · exact h.stops.mono (Expr.reach_le rfl (Nat.le_refl _))

theorem factor_sound : Sound .factor (factor again) := by
  intro ts e rest h
  fun_induction factor again ts generalizing e with
  | case1 ts ih =>
    obtain ⟨⟨e, _⟩, he, heq⟩ := Option.map_eq_some_iff.mp h
    cases heq
    exact signed_phrase (s := .plus) (ih he)
  | case2 ts ih =>
    obtain ⟨⟨e, _⟩, he, heq⟩ := Option.map_eq_some_iff.mp h
    cases heq
    exact signed_phrase (s := .minus) (ih he)
  | case3 ts =>
    have hp := power_sound hagain h
    refine hp.weaken (by decide) fun ho => ?_
    have hs := hp.stops
    rw [Expr.reach_of_closed ho] at hs
    exact hs.factor_of_power

omit hagain in
/-- A left operand with the chain read behind it is a phrase again. -/
theorem chain_sound {l : Level} (hl : l.IsChain) {operand : Reader Expr}
    (hop : Sound l.tighter operand) {rounds before ts rest : List Token} {left e : Expr}
    (hw : Writes before left) (hshaped : left.shaped = true) (hlevel : left.level ≤ l)
    (hstops : Stops (left.reach l.tighter) ts) (hrounds : ts.length ≤ rounds.length)
    (h : chain l.join? operand rounds left ts = some (e, rest)) :
    Phrase l (before ++ ts) e rest := by
  fun_induction chain l.join? operand rounds left ts generalizing before with
  | case1 r rounds left t ts hj =>
    cases h
    refine ⟨⟨before, rfl, hw⟩, hshaped, hlevel, ?_⟩
    cases ho : e.endsOpen with
    | true => rwa [Expr.reach_of_open ho, ← Expr.reach_of_open (l := l.tighter) ho]
    | false =>
      rw [Expr.reach_of_closed ho, Stops.cons_iff] at *
      exact fun b hb => hl.lt_of_join?_eq_none hj hb (hstops b hb)
  | case2 => cases h
  | case3 r rounds left t ts f hj right after hr ih =>
    obtain ⟨j, rfl, rfl, hjl⟩ := Level.exists_of_join? hj
    have hright := hop hr
    obtain ⟨used, rfl, hu⟩ := hright.writes
    have hbase : left.isBase j.leftLevel = true := by
      have := hstops.closed j.binding?_token j.level_le_expression
      simpa [Expr.isBase, hl.leftLevel hjl, this] using hlevel
    have hroot : (j.apply left right).rootShaped = true :=
      Join.rootShaped_apply_iff.mpr ⟨hbase, hl.rightLevel hjl ▸ hright.level_le⟩
    have := ih (.join j hw hu)
      (Expr.shaped_iff.mpr ⟨hroot, by simpa using ⟨hshaped, hright.shaped⟩⟩)
      (by rw [j.level_apply, hjl]; exact Nat.le_refl _)
      (hright.stops.mono (Expr.reach_le (j.endsOpen_apply left right) (Nat.le_refl _)))
      (by simp at hrounds; omega) h
    simpa using this
  | case4 rounds left ts hnil =>
    cases h
    have : rest = [] := by
      cases rest with
      | nil => rfl
      | cons t ts =>
        obtain ⟨r, rs, rfl⟩ := List.exists_cons_of_length_pos
          (Nat.lt_of_lt_of_le (Nat.succ_pos _) hrounds)
        exact (hnil r rs t ts rfl rfl).elim
    subst this
    exact ⟨⟨before, by simp, hw⟩, hshaped, hlevel, .nil⟩

omit hagain in
theorem leftToRight_sound {l : Level} (hl : l.IsChain) {operand : Reader Expr}
    (hop : Sound l.tighter operand) : Sound l (leftToRight l.join? operand) := by
  intro ts e rest h
  unfold leftToRight at h
  split at h
  · cases h
  · rename_i left after hleft
    have hp := hop hleft
    obtain ⟨used, rfl, hw⟩ := hp.writes
    exact chain_sound hl hop hw hp.shaped (Nat.le_trans hp.level_le l.tighter_le) hp.stops
      (Nat.le_refl _) h

theorem term_sound : Sound .term (term again) := by
  unfold term
  rw [productOperator?_eq]
  exact leftToRight_sound (by simp [Level.IsChain]) (factor_sound hagain)

theorem sum_sound : Sound .sum (sum again) := by
  unfold sum
  rw [sumOperator?_eq]
  exact leftToRight_sound (by simp [Level.IsChain]) (term_sound hagain)

theorem comparison_sound : Sound .comparison (comparison again) := by
  unfold comparison
  rw [comparisonOperator?_eq]
  exact leftToRight_sound (by simp [Level.IsChain]) (sum_sound hagain)

theorem negation_sound : Sound .negation (negation again) := by
  intro ts e rest h
  unfold negation at h
  split at h
  · obtain ⟨⟨e, _⟩, he, heq⟩ := Option.map_eq_some_iff.mp h
    cases heq
    have hp : Phrase .negation _ _ _ := hagain .negation he
    obtain ⟨used, rfl, hw⟩ := hp.writes
    refine ⟨⟨_, rfl, .negate hw⟩, Expr.shaped_iff.mpr ⟨?_, ?_⟩, Nat.le_refl _, ?_⟩
    · simpa [Expr.rootShaped] using hp.level_le
    · simpa [Expr.children] using hp.shaped
    · exact hp.stops.mono (Expr.reach_le rfl (Nat.le_refl _))
  · have hp := comparison_sound hagain h
    refine hp.weaken (by decide) fun ho => ?_
    have hs := hp.stops
    rw [Expr.reach_of_closed ho] at hs
    exact hs.negation_of_comparison

theorem conjunction_sound : Sound .conjunction (conjunction again) := by
  unfold conjunction
  rw [andOperator?_eq]
  exact leftToRight_sound (by simp [Level.IsChain]) (negation_sound hagain)

theorem expression_sound : Sound .expression (expression again) := by
  unfold expression
  rw [orOperator?_eq]
  exact leftToRight_sound (by simp [Level.IsChain]) (conjunction_sound hagain)

end

/-! ### The whole grammar -/

theorem read_sound (n : Nat) (k : Entry) : Sound k.level (read n k) := by
  induction n generalizing k with
  | zero => intro ts e rest h; cases h
  | succ n ih =>
    cases k with
    | expression => exact expression_sound ih
    | negation => exact negation_sound ih
    | factor => exact factor_sound ih

/-- What the grammar reads as a statement is written by the tokens and has its shape. -/
theorem writes_of_parseWithin {n : Nat} {ts : List Token} {e : Expr}
    (h : parseWithin n ts = some e) : Writes ts e ∧ e.shaped = true := by
  unfold parseWithin at h
  split at h
  · rename_i e' hs
    cases h
    unfold statement at hs
    split at hs
    · obtain ⟨⟨v, _⟩, hv, heq⟩ := Option.map_eq_some_iff.mp hs
      cases heq
      have hp : Phrase .expression _ _ _ := read_sound n .expression hv
      obtain ⟨used, rfl, hw⟩ := hp.writes
      rw [List.append_nil]
      exact ⟨.assign _ hw, Expr.shaped_iff.mpr ⟨by simpa [Expr.rootShaped] using hp.level_le,
        by simpa [Expr.children] using hp.shaped⟩⟩
    · have hp := expression_sound (read_sound n) hs
      obtain ⟨used, rfl, hw⟩ := hp.writes
      rw [List.append_nil]
      exact ⟨hw, hp.shaped⟩
  · cases h

end Reckoner.Grammar
