import Reckoner.Proofs.Grammar.Backtracking
import Reckoner.Proofs.Grammar.Phrase

/-!
# How the recogniser and the reader agree

The reader of tokens looks one token ahead and never goes back; the recogniser tries and goes
back. On a text that consists of tokens both find the same (`Accords`): a rule fails where its
reader does, and matches as far as its reader reads. Only behind an operator without an operand
the recogniser stops in front of the operator, where the reader fails; there it is stuck, as no
rule goes on with this operator and none ends with it (`Stuck`).
-/

namespace Reckoner

/-! ### The next token -/

namespace Token

theorem exists_read?_of_list? {cs : List Char} {t : Token} {ts : List Token}
    (h : list? cs = some (t :: ts)) :
    ∃ rest, read? (cs.dropWhile isBlank) = some (t, rest) ∧ list? rest = some ts := by
  unfold list? at h
  split at h
  · cases h
  · rename_i c cs' hd
    split at h
    · cases h
    · rename_i u after hr
      obtain ⟨us, hus, heq⟩ := Option.map_eq_some_iff.mp h
      cases heq
      exact ⟨after, by rw [hd, hr], hus⟩

theorem dropWhile_of_list?_nil {cs : List Char} (h : list? cs = some []) :
    cs.dropWhile isBlank = [] := by
  unfold list? at h
  split at h
  · assumption
  · split at h
    · cases h
    · obtain ⟨us, -, heq⟩ := Option.map_eq_some_iff.mp h
      cases heq

end Token

namespace Grammar

variable {n : Nat} {cs rest : List Char} {t : Token} {ts us : List Token}

theorem terminal_run_nil (h : Token.list? cs = some []) (u : Terminal) : u.run cs = .failed := by
  rw [Terminal.run, Token.dropWhile_of_list?_nil h]
  rfl

/-- At a token a terminal matches or fails. -/
theorem exists_terminal_run (h : Token.list? cs = some (t :: ts)) :
    ∃ rest, Token.list? rest = some ts ∧
      ∀ u : Terminal, u.run cs = if u.accepts t then .matched rest else .failed := by
  obtain ⟨rest, hread, hrest⟩ := Token.exists_read?_of_list? h
  refine ⟨rest, hrest, fun u => ?_⟩
  rw [Terminal.run, hread]

/-! ### First tokens -/

theorem exists_cons_of_not {f : Token → Bool} (h : ¬∀ t ∈ ts.head?, f t = false) :
    ∃ t us, ts = t :: us ∧ f t = true := by
  cases ts with
  | nil => exact absurd nofun h
  | cons t us => exact ⟨t, us, rfl, by simpa using h⟩

namespace Pattern

/-- Whether a match can begin with the token. -/
def starts : Pattern → Token → Bool
  | .terminal u, t => u.accepts t
  | .notBefore _, _ => false
  | .sequence p q, t => p.starts t || (p.nullable && q.starts t)
  | .choice p q, t => p.starts t || q.starts t
  | .optional p, t | .repeated p, t => p.starts t
  | .again _, t => t.begins

/-- Whether a token is read before any rule is entered again. -/
def guarded : Pattern → Bool
  | .terminal _ | .notBefore _ => true
  | .sequence p q => p.guarded && (!p.nullable || q.guarded)
  | .choice p q => p.guarded && q.guarded
  | .optional p | .repeated p => p.guarded
  | .again _ => false

end Pattern

/-- Where no match can begin, an expression fails unless it matches nothing or enters a rule. -/
theorem Pattern.run_of_not_starts {e : Entry → Recognizer} (h : Token.list? cs = some ts)
    (he : (∀ t ∈ ts.head?, t.begins = false) → ∀ k, e k cs = .failed ∨ e k cs = .exhausted)
    (p : Pattern) (hts : ∀ t ∈ ts.head?, p.starts t = false) :
    p.run e cs = .failed ∨ (p.nullable = true ∧ p.run e cs = .matched cs) ∨
      (p.guarded = false ∧ p.run e cs = .exhausted) := by
  induction p with
  | terminal u =>
    refine .inl ?_
    cases ts with
    | nil => exact terminal_run_nil h u
    | cons t ts =>
      obtain ⟨rest, -, hrun⟩ := exists_terminal_run h
      have hnot : u.accepts t = false := hts t rfl
      rw [run, hrun, hnot, if_neg Bool.false_ne_true]
  | notBefore c =>
    rw [run_notBefore]
    split
    · exact .inl rfl
    · exact .inr (.inl ⟨rfl, rfl⟩)
  | sequence p q ihp ihq =>
    simp only [starts, Bool.or_eq_false_iff, Bool.and_eq_false_iff] at hts
    rw [run_sequence, nullable, guarded]
    rcases ihp fun t ht => (hts t ht).1 with hp | ⟨hn, hp⟩ | ⟨hg, hp⟩
    · rw [hp]
      exact .inl rfl
    · rw [hp, hn]
      refine (ihq fun t ht => (hts t ht).2.resolve_left (by simp [hn])).imp_right (.imp ?_ ?_)
      · exact fun hq => hq
      · exact fun ⟨hg, hq⟩ => ⟨by simp [hg], hq⟩
    · rw [hp, hg]
      exact .inr (.inr ⟨rfl, rfl⟩)
  | choice p q ihp ihq =>
    simp only [starts, Bool.or_eq_false_iff] at hts
    rw [run_choice, nullable, guarded]
    rcases ihp fun t ht => (hts t ht).1 with hp | ⟨hn, hp⟩ | ⟨hg, hp⟩
    · rw [hp]
      refine (ihq fun t ht => (hts t ht).2).imp_right (.imp ?_ ?_)
      · exact fun ⟨hn, hq⟩ => ⟨by simp [hn], hq⟩
      · exact fun ⟨hg, hq⟩ => ⟨by simp [hg], hq⟩
    · rw [hp, hn]
      exact .inr (.inl ⟨rfl, rfl⟩)
    · rw [hp, hg]
      exact .inr (.inr ⟨rfl, rfl⟩)
  | optional p ihp =>
    rw [run_optional]
    rcases ihp hts with hp | ⟨-, hp⟩ | ⟨hg, hp⟩
    · rw [hp]
      exact .inr (.inl ⟨rfl, rfl⟩)
    · rw [hp]
      exact .inr (.inl ⟨rfl, rfl⟩)
    · rw [hp]
      exact .inr (.inr ⟨hg, rfl⟩)
  | repeated p ihp =>
    rw [run_repeated]
    rcases ihp hts with hp | ⟨-, hp⟩ | ⟨hg, hp⟩
    · exact .inr (.inl ⟨rfl, repeatWhile_of_failed hp⟩)
    · exact .inr (.inl ⟨rfl, repeatWhile_of_not_lt hp (Nat.lt_irrefl _)⟩)
    · exact .inr (.inr ⟨hg, repeatWhile_of_exhausted hp⟩)
  | again k =>
    rcases he hts k with hk | hk
    · exact .inl hk
    · exact .inr (.inr ⟨rfl, hk⟩)

theorem Entry.starts_pattern {k : Entry} (h : t.begins = false) : k.pattern.starts t = false := by
  cases t with
  | number | text | name => cases h
  | keyword w => cases w <;> first | (cases k <;> rfl) | cases h
  | symbol s => cases s <;> first | (cases k <;> rfl) | cases h

/-- A rule that is entered fails, or gives up, where no expression begins. -/
theorem enter_of_not_begins (h : Token.list? cs = some ts)
    (hts : ∀ t ∈ ts.head?, t.begins = false) (k : Entry) :
    enter n k cs = .failed ∨ enter n k cs = .exhausted := by
  induction n generalizing k with
  | zero => exact .inr rfl
  | succ n ih =>
    rcases k.pattern.run_of_not_starts h (fun _ => ih) fun t ht => k.starts_pattern (hts t ht) with
      hp | ⟨hn, -⟩ | ⟨hg, -⟩
    · exact .inl hp
    · rw [k.nullable_pattern] at hn
      cases hn
    · cases k <;> cases hg

/-- An expression that reads a token before it enters a rule fails where no match can begin. -/
theorem run_eq_failed {p : Pattern} (hn : p.nullable = false) (hg : p.guarded = true)
    (h : Token.list? cs = some ts) (hts : ∀ t ∈ ts.head?, p.starts t = false) :
    p.run (enter n) cs = .failed := by
  rcases p.run_of_not_starts h (fun h' => enter_of_not_begins h h') hts with hp | ⟨hn', -⟩ | ⟨hg', -⟩
  · exact hp
  · rw [hn] at hn'
    cases hn'
  · rw [hg] at hg'
    cases hg'

/-! ### Stuck places -/

/-- What can go on with an expression of the level. -/
def continuation? : Level → Option Pattern
  | .postfixed => some .suffix
  | .power => some .exponent
  | .term => some (.sequence .productOperator .factor)
  | .sum => some (.sequence .sign .term)
  | .comparison => some (.sequence .comparisonOperator .sum)
  | .conjunction => some (.sequence (.keyword .and) .negation)
  | .expression => some (.sequence (.keyword .or) .conjunction)
  | _ => none

/-- What goes on with a level begins with a token that does. -/
theorem of_continuation? {l : Level} {p : Pattern} (hp : continuation? l = some p) :
    p.nullable = false ∧ p.guarded = true ∧ ∀ t, p.starts t = true → t.binding? = some l := by
  cases l <;> cases hp <;> refine ⟨rfl, rfl, fun t ht => ?_⟩ <;>
  · cases t with
    | symbol s => cases s <;> first | rfl | cases ht
    | keyword k => cases k <;> first | rfl | cases ht
    | _ => cases ht

/-- A token that goes on with an expression stands next, but nothing it could go on with. -/
def Stuck (n : Nat) (cs : List Char) : Prop :=
  ∃ t ts l, Token.list? cs = some (t :: ts) ∧ t.binding? = some l ∧
    ∀ p ∈ continuation? l, p.run (enter n) cs = .failed

namespace Stuck

theorem mono {m : Nat} (h : Stuck n cs) (hle : n ≤ m) : Stuck m cs := by
  obtain ⟨t, ts, l, hts, hl, hfailed⟩ := h
  refine ⟨t, ts, l, hts, hl, fun p hp => ?_⟩
  have hrefines := Pattern.run_refines (enter_refines hle) p cs
  rw [hfailed p hp] at hrefines
  exact hrefines.eq nofun

theorem exists_list? (h : Stuck n cs) :
    ∃ t ts, Token.list? cs = some (t :: ts) ∧ t.binding?.isSome = true := by
  obtain ⟨t, ts, l, hts, hl, -⟩ := h
  exact ⟨t, ts, hts, by rw [hl]; rfl⟩

/-- No continuation of any level matches at a stuck place. -/
theorem run_eq_failed (h : Stuck n cs) {l : Level} {p : Pattern} (hp : continuation? l = some p) :
    p.run (enter n) cs = .failed := by
  obtain ⟨t, ts, m, hts, hm, hfailed⟩ := h
  by_cases heq : l = m
  · exact hfailed p (heq ▸ hp)
  · obtain ⟨hn, hg, hstarts⟩ := of_continuation? hp
    refine Grammar.run_eq_failed hn hg hts fun u hu => ?_
    cases hu
    rw [Bool.eq_false_iff]
    exact fun ht => heq (Option.some_inj.mp ((hstarts t ht).symm.trans hm))

end Stuck

/-! ### The same outcome -/

/-- The recogniser ends like the reader, unless it gives up: it fails where the reader finds nothing
and matches as far as the reader reads; but it may also match as far as a place that is blocked. -/
inductive Accords (Blocked : List Char → Prop) : Outcome → Option (α × List Token) → Prop
  | exhausted {x : Option (α × List Token)} : Accords Blocked .exhausted x
  | failed : Accords Blocked .failed none
  | read {a : α} {rest : List Char} {us : List Token} (h : Token.list? rest = some us) :
      Accords Blocked (.matched rest) (some (a, us))
  | blocked {rest : List Char} (h : Blocked rest) : Accords Blocked (.matched rest) none

namespace Accords

variable {P Q : List Char → Prop} {o : Outcome} {x : Option (α × List Token)}

theorem mono (h : Accords P o x) (hle : ∀ cs, P cs → Q cs) : Accords Q o x := by
  cases h with
  | exhausted => exact .exhausted
  | failed => exact .failed
  | read h => exact .read h
  | blocked h => exact .blocked (hle _ h)

theorem map (h : Accords P o x) (f : α → β) : Accords P o (x.map fun (a, us) => (f a, us)) := by
  cases h with
  | exhausted => exact .exhausted
  | failed => exact .failed
  | read h => exact .read h
  | blocked h => exact .blocked h

/-- What is read behind a match accords, if it does where the reader goes on and nothing is read
where the match is blocked. -/
theorem sequence {e : Entry → Recognizer} {p q : Pattern}
    {f : α × List Token → Option (β × List Token)} (h : Accords P (p.run e cs) x)
    (hread : ∀ a us rest, x = some (a, us) → Token.list? rest = some us →
      Accords Q (q.run e rest) (f (a, us)))
    (hblocked : ∀ rest, P rest → Accords Q (q.run e rest) (none : Option (β × List Token))) :
    Accords Q ((p.sequence q).run e cs) (x.bind f) := by
  rw [Pattern.run_sequence]
  generalize p.run e cs = o at h ⊢
  cases h with
  | exhausted => exact .exhausted
  | failed => exact .failed
  | read h => exact hread _ _ _ rfl h
  | blocked h => exact hblocked _ h

end Accords

/-- The expression and the reader agree on all texts of tokens. -/
def Agrees (n : Nat) (p : Pattern) (r : Reader α) : Prop :=
  ∀ ⦃cs : List Char⦄ ⦃ts : List Token⦄, Token.list? cs = some ts →
    Accords (Stuck n) (p.run (enter n) cs) (r ts)

/-! ### Repetition -/

/-- A loop of the reader: it ends where the expression cannot begin, and else makes a step. -/
structure Loops (p : Pattern) (step : Reader (α → α)) (loop : List Token → α → Reader α) :
    Prop where
  stops : ∀ rounds a ts, (∀ t ∈ ts.head?, p.starts t = false) → loop rounds a ts = some (a, ts)
  goes : ∀ r rounds a t ts, p.starts t = true → loop (r :: rounds) a (t :: ts) =
    match step (t :: ts) with
    | none => none
    | some (g, rest) => loop rounds (g a) rest

/-- A repetition accords with a loop if the expression goes on with a level and each step accords. -/
theorem repeated_accords {p : Pattern} {l : Level} (hp : continuation? l = some p)
    {step : Reader (α → α)} (hstep : Agrees n p step) {loop : List Token → α → Reader α} (hloop : Loops p step loop)
    {cs : List Char} {ts rounds : List Token} (a : α) (hts : Token.list? cs = some ts)
    (hrounds : ts.length ≤ rounds.length) :
    Accords (Stuck n) ((Pattern.repeated p).run (enter n) cs) (loop rounds a ts) := by
  obtain ⟨hn, hg, hstarts⟩ := of_continuation? hp
  by_cases hhead : ∀ t ∈ ts.head?, p.starts t = false
  · rw [hloop.stops rounds a ts hhead, Pattern.run_repeated_of_failed (run_eq_failed hn hg hts hhead)]
    exact .read hts
  · obtain ⟨t, us, rfl, ht⟩ := exists_cons_of_not hhead
    obtain ⟨r, rounds, rfl⟩ := List.exists_cons_of_length_pos
      (Nat.lt_of_lt_of_le (Nat.succ_pos _) hrounds)
    rw [hloop.goes r rounds a t us ht]
    have haccords := hstep hts
    generalize ho : p.run (enter n) cs = o, step (t :: us) = x at haccords ⊢
    cases haccords with
    | exhausted =>
      rw [Pattern.run_repeated_of_exhausted ho]
      exact .exhausted
    | failed =>
      rw [Pattern.run_repeated_of_failed ho]
      refine .blocked ⟨t, us, l, hts, hstarts t ht, fun q hq => ?_⟩
      cases hp.symm.trans hq
      exact ho
    | @read g rest vs hvs =>
      -- fewer tokens are left, so there are rounds enough
      have hsteps := steps_of_run hn ho
      obtain ⟨ts', hts', hlt⟩ := exists_list?_of_steps hsteps hvs
      obtain rfl := Option.some_inj.mp (hts.symm.trans hts')
      have hshorter := length_lt_of_steps hsteps
      rw [run_repeated_of_matched hn ho]
      exact repeated_accords hp hstep hloop (g a) hvs (by simp at hrounds hlt; omega)
    | @blocked rest hstuck =>
      rw [run_repeated_of_matched hn ho, Pattern.run_repeated_of_failed (hstuck.run_eq_failed hp)]
      exact .blocked hstuck
termination_by cs.length

/-- Where an expression that goes on with a level is repeated behind a match, the loop is entered
with what was read. -/
theorem sequence_repeated_agrees {p q : Pattern} {l : Level} (hp : continuation? l = some p)
    {step : Reader (α → α)} (hstep : Agrees n p step) {loop : List Token → α → Reader α} (hloop : Loops p step loop)
    {operand : Reader α} (hoperand : Agrees n q operand) {r : Reader α}
    (hr : ∀ ts, r ts = (operand ts).bind fun (a, rest) => loop rest a rest) :
    Agrees n (.sequence q (.repeated p)) r := by
  intro cs ts hts
  rw [hr]
  refine (hoperand hts).sequence (fun a us rest _ hus => ?_) fun rest hstuck => ?_
  · exact repeated_accords hp hstep hloop a hus (Nat.le_refl _)
  · rw [Pattern.run_repeated_of_failed (hstuck.run_eq_failed hp)]
    exact .blocked hstuck

/-! ### Chains -/

/-- One more operand of a chain. -/
def joinStep (join? : Token → Option (Expr → Expr → Expr)) (operand : Reader Expr) :
    Reader (Expr → Expr)
  | t :: ts =>
    match join? t with
    | none => none
    | some join => (operand ts).map fun (right, rest) => ((join · right), rest)
  | [] => none

/-- The expression finds the operators of the table. Where it does not, no operand follows. -/
def Operates (n : Nat) (operator : Pattern) (join? : Token → Option (Expr → Expr → Expr))
    (operand : Reader Expr) : Prop :=
  ∀ ⦃cs : List Char⦄ ⦃t : Token⦄ ⦃ts : List Token⦄, Token.list? cs = some (t :: ts) →
    ∃ rest, Token.list? rest = some ts ∧
      (operator.run (enter n) cs = (if (join? t).isSome then .matched rest else .failed) ∨
        operator.run (enter n) cs = .failed ∧ operand ts = none)

section

variable {operator q : Pattern} {join? : Token → Option (Expr → Expr → Expr)}
  {operand : Reader Expr}

theorem chain_loops {p : Pattern} (hstarts : ∀ t, p.starts t = (join? t).isSome) :
    Loops p (joinStep join? operand) (chain join? operand) where
  stops rounds a ts h := by
    unfold chain
    split
    · rename_i t ts
      have hnone : join? t = none := by
        have := h t rfl
        rwa [hstarts, Option.isSome_eq_false_iff, Option.isNone_iff_eq_none] at this
      rw [hnone]
    · rfl
  goes r rounds a t ts h := by
    rw [hstarts] at h
    obtain ⟨join, hjoin⟩ := Option.isSome_iff_exists.mp h
    rw [chain, joinStep, hjoin]
    cases operand ts <;> rfl

theorem leftToRight_eq_bind (ts : List Token) : leftToRight join? operand ts =
    (operand ts).bind fun (left, rest) => chain join? operand rest left rest := by
  rw [leftToRight]
  cases operand ts <;> rfl

theorem joinStep_agrees (hn : operator.nullable = false) (hg : operator.guarded = true)
    (hoperator : Operates n operator join? operand) (hq : Agrees n q operand) :
    Agrees n (.sequence operator q) (joinStep join? operand) := by
  intro cs ts hts
  cases ts with
  | nil =>
    rw [Pattern.run_sequence_of_failed (run_eq_failed hn hg hts nofun)]
    exact .failed
  | cons t ts =>
    obtain ⟨rest, hrest, hrun | ⟨hrun, hnone⟩⟩ := hoperator hts
    · rw [Pattern.run_sequence, hrun, joinStep]
      cases join? t with
      | none => exact .failed
      | some join => exact (hq hrest).map fun right left => join left right
    · rw [Pattern.run_sequence, hrun, joinStep, hnone]
      cases join? t <;> exact .failed

theorem chain_agrees {l : Level} (hl : continuation? l = some (.sequence operator q))
    (hn : operator.nullable = false) (hg : operator.guarded = true)
    (hstarts : ∀ t, operator.starts t = (join? t).isSome)
    (hoperator : Operates n operator join? operand) (hq : Agrees n q operand) :
    Agrees n (.chain q operator) (leftToRight join? operand) := by
  have hstarts' (t : Token) : (Pattern.sequence operator q).starts t = (join? t).isSome := by
    rw [Pattern.starts, hn, Bool.false_and, Bool.or_false, hstarts]
  exact sequence_repeated_agrees hl (joinStep_agrees hn hg hoperator hq) (chain_loops hstarts') hq
    leftToRight_eq_bind

end

/-- Whether the expression is one of some terminals. -/
def Pattern.single : Pattern → Bool
  | .terminal _ => true
  | .choice p q => p.single && q.single
  | _ => false

theorem Pattern.run_of_single {e : Entry → Recognizer}
    (hrun : ∀ u : Terminal, u.run cs = if u.accepts t then .matched rest else .failed)
    {p : Pattern} (hp : p.single = true) :
    p.run e cs = if p.starts t then .matched rest else .failed := by
  induction p with
  | terminal u => exact hrun u
  | choice p q ihp ihq =>
    obtain ⟨hp, hq⟩ := Bool.and_eq_true_iff.mp hp
    rw [run_choice, starts, ihp hp, ihq hq]
    cases p.starts t <;> rfl
  | notBefore | sequence | optional | repeated | again => cases hp

theorem operates_of_single {p : Pattern} {join? : Token → Option (Expr → Expr → Expr)}
    (hp : p.single = true) (hstarts : ∀ t, p.starts t = (join? t).isSome) (operand : Reader Expr) :
    Operates n p join? operand := by
  intro cs t ts hts
  obtain ⟨rest, hrest, hrun⟩ := exists_terminal_run hts
  exact ⟨rest, hrest, .inl (by rw [Pattern.run_of_single hrun hp, hstarts])⟩

/-- A text that goes on with a slash goes on with the sign. -/
theorem exists_slash (hts : Token.list? cs = some ts) (hhead : cs.head? = some '/') :
    ∃ us, ts = .symbol .slash :: us := by
  obtain ⟨ds, rfl⟩ := List.head?_eq_some_iff.mp hhead
  have hread : Token.read? (('/' :: ds).dropWhile Token.isBlank) = some (.symbol .slash, ds) := by
    cases ds <;> rfl
  obtain ⟨us, -, rfl⟩ := Option.map_eq_some_iff.mp ((Token.list?_cons hread).symm.trans hts)
  exact ⟨us, rfl⟩

/-- A slash before another one is no operator, and no operand begins with a slash. -/
theorem productOperator_operates {operand : Reader Expr}
    (hslash : ∀ ts, operand (.symbol .slash :: ts) = none) :
    Operates n .productOperator productOperator? operand := by
  intro cs t ts hts
  obtain ⟨rest, hrest, hrun⟩ := exists_terminal_run hts
  refine ⟨rest, hrest, ?_⟩
  by_cases hbar : t = .symbol .slash ∧ rest.head? = some '/'
  · obtain ⟨rfl, hhead⟩ := hbar
    refine .inr ⟨?_, ?_⟩
    · simp [Pattern.productOperator, Pattern.symbol, Pattern.run, hrun, Terminal.accepts, hhead]
    · obtain ⟨ds, rfl⟩ := List.head?_eq_some_iff.mp hhead
      have hread : Token.read? (('/' :: ds).dropWhile Token.isBlank)
          = some (.symbol .slash, ds) := by
        cases ds <;> rfl
      obtain ⟨us, -, rfl⟩ := Option.map_eq_some_iff.mp ((Token.list?_cons hread).symm.trans hrest)
      exact hslash us
  · refine .inl ?_
    cases t with
    | symbol s =>
      cases s <;> simp_all [Pattern.productOperator, Pattern.symbol, Pattern.run,
        Terminal.accepts, productOperator?]
    | _ =>
      simp [Pattern.productOperator, Pattern.symbol, Pattern.run, hrun, Terminal.accepts,
        productOperator?]

end Grammar

end Reckoner
