import Reckoner.Grammar
import Reckoner.Token.Stream
import Mathlib.Logic.Relation

/-!
# The grammar as a backtracking recogniser

The rules of the grammar as parsing expressions over the characters of a text. A choice takes
the first alternative that matches, an option and a repetition take what they can, and what
fails leaves the text as it was. So the recogniser goes as far into a text as its rules match,
whether or not the text consists of tokens, and a rule may be entered in an alternative that
fails later.

The grammar enters itself again at three rules. The recogniser counts how many of them are open
inside one another and gives up when they are more than it is allowed (`exhausted`); more
allowance changes nothing else (`recognize_eq_of_le`).
-/

namespace Reckoner.Grammar

/-! ### Parsing expressions -/

/-- The tokens that a rule asks for. -/
inductive Terminal where
  | number
  | text
  | name
  | keyword (k : Keyword)
  | symbol (s : Symbol)
  deriving DecidableEq

/-- Whether the token is one that is asked for. -/
def Terminal.accepts : Terminal → Token → Bool
  | .number, .number _ | .text, .text _ | .name, .name _ => true
  | .keyword k, .keyword l => k = l
  | .symbol s, .symbol t => s = t
  | _, _ => false

/-- A parsing expression. -/
inductive Pattern where
  | terminal (t : Terminal)
  | notBefore (c : Char)
  | sequence (p q : Pattern)
  | choice (p q : Pattern)
  | optional (p : Pattern)
  | repeated (p : Pattern)
  | again (k : Entry)

/-- How a rule ends: with the text behind what it matches, without a match, or given up. -/
inductive Outcome where
  | matched (rest : List Char)
  | failed
  | exhausted
  deriving DecidableEq

/-- A rule at work on a text. -/
abbrev Recognizer := List Char → Outcome

/-- The token behind the blanks, if it is one that is asked for. -/
def Terminal.run (t : Terminal) : Recognizer := fun cs =>
  match Token.read? (cs.dropWhile Token.isBlank) with
  | some (u, rest) => if t.accepts u then .matched rest else .failed
  | none => .failed

/-- Goes on as long as there is a match that uses up characters. -/
def repeatWhile (r : Recognizer) (cs : List Char) : Outcome :=
  match r cs with
  | .matched rest => if rest.length < cs.length then repeatWhile r rest else .matched rest
  | .failed => .matched cs
  | .exhausted => .exhausted
termination_by cs.length

section

variable {r : Recognizer} {cs rest : List Char}

theorem repeatWhile_of_matched (h : r cs = .matched rest) (hshorter : rest.length < cs.length) :
    repeatWhile r cs = repeatWhile r rest := by
  rw [repeatWhile, h]
  exact if_pos hshorter

theorem repeatWhile_of_not_lt (h : r cs = .matched rest) (hshorter : ¬rest.length < cs.length) :
    repeatWhile r cs = .matched rest := by
  rw [repeatWhile, h]
  exact if_neg hshorter

theorem repeatWhile_of_failed (h : r cs = .failed) : repeatWhile r cs = .matched cs := by
  rw [repeatWhile, h]

theorem repeatWhile_of_exhausted (h : r cs = .exhausted) : repeatWhile r cs = .exhausted := by
  rw [repeatWhile, h]

end

theorem repeatWhile_ne_failed (r : Recognizer) (cs : List Char) : repeatWhile r cs ≠ .failed := by
  fun_induction repeatWhile r cs with
  | case1 _ _ _ _ ih => exact ih
  | case2 | case3 | case4 => nofun

namespace Pattern

/-- A parsing expression at work, given what the rules do when they are entered again. -/
def run (enter : Entry → Recognizer) : Pattern → Recognizer
  | .terminal t, cs => t.run cs
  | .notBefore c, cs => if cs.head? = some c then .failed else .matched cs
  | .sequence p q, cs =>
    match p.run enter cs with
    | .matched rest => q.run enter rest
    | o => o
  | .choice p q, cs =>
    match p.run enter cs with
    | .failed => q.run enter cs
    | o => o
  | .optional p, cs =>
    match p.run enter cs with
    | .failed => .matched cs
    | o => o
  | .repeated p, cs => repeatWhile (p.run enter) cs
  | .again k, cs => enter k cs

/-! ### Equations -/

section

variable {e : Entry → Recognizer} {p q : Pattern} {cs rest : List Char}

theorem run_notBefore {c : Char} :
    (notBefore c).run e cs = if cs.head? = some c then .failed else .matched cs := rfl

theorem run_sequence : (sequence p q).run e cs =
    match p.run e cs with
    | .matched rest => q.run e rest
    | o => o := rfl

theorem run_choice : (choice p q).run e cs =
    match p.run e cs with
    | .failed => q.run e cs
    | o => o := rfl

theorem run_optional : (optional p).run e cs =
    match p.run e cs with
    | .failed => .matched cs
    | o => o := rfl

theorem run_repeated : (repeated p).run e cs = repeatWhile (p.run e) cs := rfl

theorem run_choice_of_right_failed (h : q.run e cs = .failed) :
    (choice p q).run e cs = p.run e cs := by
  rw [run_choice, h]
  cases p.run e cs <;> rfl

theorem run_choice_of_left_failed (h : p.run e cs = .failed) :
    (choice p q).run e cs = q.run e cs := by
  rw [run_choice, h]

theorem run_sequence_of_matched (h : p.run e cs = .matched rest) :
    (sequence p q).run e cs = q.run e rest := by
  rw [run_sequence, h]

theorem run_sequence_of_failed (h : p.run e cs = .failed) :
    (sequence p q).run e cs = .failed := by
  rw [run_sequence, h]

theorem run_sequence_assoc {r : Pattern} :
    (sequence (sequence p q) r).run e cs = (sequence p (sequence q r)).run e cs := by
  rw [run_sequence, run_sequence, run_sequence]
  cases p.run e cs <;> rfl

theorem run_optional_of_failed (h : p.run e cs = .failed) :
    (optional p).run e cs = .matched cs := by
  rw [run_optional, h]

theorem run_optional_of_ne_failed (h : p.run e cs ≠ .failed) :
    (optional p).run e cs = p.run e cs := by
  rw [run_optional]
  cases hp : p.run e cs with
  | failed => exact absurd hp h
  | matched | exhausted => rfl

theorem run_sequence_optional_of_failed (h : p.run e cs = .failed) :
    (sequence (optional p) q).run e cs = q.run e cs :=
  run_sequence_of_matched (run_optional_of_failed h)

theorem run_sequence_optional_of_ne_failed (h : p.run e cs ≠ .failed) :
    (sequence (optional p) q).run e cs = (sequence p q).run e cs := by
  rw [run_sequence, run_optional_of_ne_failed h, ← run_sequence]

theorem run_optional_ne_failed : (optional p).run e cs ≠ .failed := by
  rw [run_optional]
  cases p.run e cs <;> nofun

theorem run_repeated_of_failed (h : p.run e cs = .failed) :
    (repeated p).run e cs = .matched cs := by
  rw [run_repeated, repeatWhile_of_failed h]

theorem run_repeated_of_exhausted (h : p.run e cs = .exhausted) :
    (repeated p).run e cs = .exhausted := by
  rw [run_repeated, repeatWhile_of_exhausted h]

theorem run_repeated_ne_failed : (repeated p).run e cs ≠ .failed := by
  rw [run_repeated]
  exact repeatWhile_ne_failed _ _

end

/-! ### The rules -/

/-- A sign. -/
def symbol (s : Symbol) : Pattern := terminal (.symbol s)

/-- A keyword. -/
def keyword (k : Keyword) : Pattern := terminal (.keyword k)

/-- Something between brackets. -/
def bracketed (o : Symbol) (inner : Pattern) (close : Symbol) : Pattern :=
  sequence (symbol o) (sequence inner (symbol close))

/-- One item or more with commas between them. -/
def commaSeparated (item : Pattern) : Pattern :=
  sequence item (repeated (sequence (symbol .comma) item))

/-- Items between brackets; a comma may follow the last. -/
def enclosedItems (o : Symbol) (item : Pattern) (close : Symbol) : Pattern :=
  bracketed o (optional (sequence (commaSeparated item) (optional (symbol .comma)))) close

/-- A name with a value behind an assignment sign, be it an assignment or a named argument. -/
def labelled : Pattern :=
  sequence (terminal .name) (sequence (symbol .assign) (again .expression))

/-- A lambda. -/
def lambda : Pattern :=
  sequence (keyword .lambda)
    (sequence (sequence (optional (commaSeparated (terminal .name))) (symbol .colon))
      (again .expression))

/-- A bracketed expression. -/
def group : Pattern := bracketed .openParen (again .expression) .closeParen

/-- A list. -/
def list : Pattern := enclosedItems .openBracket (again .expression) .closeBracket

/-- A number, text, lambda, list, bracketed expression or name. -/
def primary : Pattern :=
  choice (terminal .number) (choice (terminal .text) (choice lambda (choice list
    (choice group (terminal .name)))))

/-- An argument of a call. -/
def argument : Pattern := choice labelled (again .expression)

/-- A call, a subscript or an attribute behind a base. -/
def suffix : Pattern :=
  choice (enclosedItems .openParen argument .closeParen)
    (choice (bracketed .openBracket (again .expression) .closeBracket)
      (sequence (symbol .dot) (terminal .name)))

/-- A single piece with its calls, subscripts and attributes. -/
def postfixed : Pattern := sequence primary (repeated suffix)

/-- The exponent behind a base. -/
def exponent : Pattern := sequence (symbol .power) (again .factor)

/-- A postfixed piece, raised to a factor if `**` follows. -/
def power : Pattern := sequence postfixed (optional exponent)

/-- A plus or a minus, in front of a power or between terms. -/
def sign : Pattern := choice (symbol .plus) (symbol .minus)

/-- Signs in front of a power. -/
def factor : Pattern := sequence (repeated sign) power

/-- Operands with operators between them. -/
def chain (operand operator : Pattern) : Pattern :=
  sequence operand (repeated (sequence operator operand))

/-- The operators between factors; a slash does not stand before another one. -/
def productOperator : Pattern :=
  choice (symbol .star) (choice (sequence (symbol .slash) (notBefore '/')) (symbol .percent))

/-- Factors joined by `*`, `/` and `%`. -/
def term : Pattern := chain factor productOperator

/-- Terms joined by `+` and `-`. -/
def sum : Pattern := chain term sign

/-- The comparison signs, the longer ones first. -/
def comparisonOperator : Pattern :=
  choice (symbol .equal) (choice (symbol .notEqual) (choice (symbol .lessOrEqual)
    (choice (symbol .greaterOrEqual) (choice (symbol .less) (symbol .greater)))))

/-- Sums joined by comparison signs. -/
def comparison : Pattern := chain sum comparisonOperator

/-- A comparison, or `not` in front of a negation. -/
def negation : Pattern := choice (sequence (keyword .not) (again .negation)) comparison

/-- Negations joined by `and`. -/
def conjunction : Pattern := chain negation (keyword .and)

/-- Conjunctions joined by `or`. -/
def expression : Pattern := chain conjunction (keyword .or)

/-- An assignment or an expression. -/
def statement : Pattern := choice labelled expression

end Pattern

/-- The rule that is entered. -/
def Entry.pattern : Entry → Pattern
  | .expression => .expression
  | .negation => .negation
  | .factor => .factor

/-- A rule that is entered again, with at most that many rules open at once, this one included. -/
def enter : Nat → Entry → Recognizer
  | 0, _ => fun _ => .exhausted
  | n + 1, k => k.pattern.run (enter n)

/-- Whether a whole text is a statement: nothing but blanks may be left. -/
def recognize (allowance : Nat) : Recognizer := fun cs =>
  match Pattern.statement.run (enter allowance) cs with
  | .matched rest => if rest.all Token.isBlank then .matched [] else .failed
  | o => o

/-! ### More allowance -/

/-- The same outcome, unless the first one is given up. -/
def Outcome.Refines (o o' : Outcome) : Prop := o = .exhausted ∨ o = o'

theorem Outcome.Refines.refl (o : Outcome) : o.Refines o := .inr rfl

theorem Outcome.Refines.eq {o o' : Outcome} (h : o.Refines o') (ho : o ≠ .exhausted) : o' = o :=
  (h.resolve_left ho).symm

theorem repeatWhile_refines {r r' : Recognizer} (h : ∀ cs, (r cs).Refines (r' cs))
    (cs : List Char) : (repeatWhile r cs).Refines (repeatWhile r' cs) := by
  fun_induction repeatWhile r cs with
  | case1 cs rest hr hshorter ih =>
    have hr' := (h cs).eq (by rw [hr]; nofun)
    rwa [repeatWhile_of_matched (hr'.trans hr) hshorter]
  | case2 cs rest hr hshorter =>
    have hr' := (h cs).eq (by rw [hr]; nofun)
    rw [repeatWhile_of_not_lt (hr'.trans hr) hshorter]
    exact .refl _
  | case3 cs hr =>
    have hr' := (h cs).eq (by rw [hr]; nofun)
    rw [repeatWhile_of_failed (hr'.trans hr)]
    exact .refl _
  | case4 => exact .inl rfl

theorem Pattern.run_refines {e e' : Entry → Recognizer}
    (h : ∀ k cs, (e k cs).Refines (e' k cs)) (p : Pattern) (cs : List Char) :
    (p.run e cs).Refines (p.run e' cs) := by
  induction p generalizing cs with
  | terminal | notBefore => exact .refl _
  | sequence p q ihp ihq =>
    rw [run_sequence, run_sequence]
    rcases ihp cs with hp | hp
    · rw [hp]
      exact .inl rfl
    · rw [← hp]
      cases p.run e cs with
      | matched rest => exact ihq rest
      | failed | exhausted => exact .refl _
  | choice p q ihp ihq =>
    rw [run_choice, run_choice]
    rcases ihp cs with hp | hp
    · rw [hp]
      exact .inl rfl
    · rw [← hp]
      cases p.run e cs with
      | failed => exact ihq cs
      | matched | exhausted => exact .refl _
  | optional p ihp =>
    rw [run_optional, run_optional]
    rcases ihp cs with hp | hp
    · rw [hp]
      exact .inl rfl
    · rw [← hp]
      exact .refl _
  | repeated p ihp => exact repeatWhile_refines ihp cs
  | again k => exact h k cs

theorem enter_refines {n m : Nat} (h : n ≤ m) (k : Entry) (cs : List Char) :
    (enter n k cs).Refines (enter m k cs) := by
  induction n generalizing m k cs with
  | zero => exact .inl rfl
  | succ n ih =>
    obtain ⟨m, rfl⟩ := Nat.exists_eq_add_one_of_ne_zero (n := m) (by omega)
    exact Pattern.run_refines (fun k cs => ih (Nat.le_of_succ_le_succ h) k cs) _ cs

/-- More allowance changes nothing for a text on which the recogniser does not give up. -/
theorem recognize_eq_of_le {n m : Nat} (h : n ≤ m) {cs : List Char}
    (hn : recognize n cs ≠ .exhausted) : recognize m cs = recognize n cs := by
  obtain hstatement | hstatement :=
    Pattern.run_refines (enter_refines h) Pattern.statement cs
  · exact absurd (by rw [recognize, hstatement]) hn
  · rw [recognize, recognize, hstatement]

/-! ### What a match uses up -/

open Relation (ReflTransGen TransGen)

/-- One token stands between the two places of a text. -/
def Step (cs rest : List Char) : Prop :=
  ∃ t, Token.read? (cs.dropWhile Token.isBlank) = some (t, rest)

theorem Step.length_lt {cs rest : List Char} (h : Step cs rest) : rest.length < cs.length := by
  obtain ⟨t, ht⟩ := h
  exact Nat.lt_of_lt_of_le (Token.length_lt_of_read? ht) (length_dropWhile_le _ _)

theorem length_lt_of_steps {cs rest : List Char} (h : TransGen Step cs rest) :
    rest.length < cs.length := by
  induction h with
  | single hstep => exact hstep.length_lt
  | tail _ hstep ih => exact Nat.lt_trans hstep.length_lt ih

theorem Step.list? {cs rest : List Char} (h : Step cs rest) {us : List Token}
    (hus : Token.list? rest = some us) : ∃ t, Token.list? cs = some (t :: us) := by
  obtain ⟨t, ht⟩ := h
  exact ⟨t, by rw [Token.list?_cons ht, hus, Option.map_some]⟩

/-- Whether the expression may match without reading a token. -/
def Pattern.nullable : Pattern → Bool
  | .terminal _ | .again _ => false
  | .sequence p q => p.nullable && q.nullable
  | .choice p q => p.nullable || q.nullable
  | .notBefore _ | .optional _ | .repeated _ => true

theorem Entry.nullable_pattern (k : Entry) : k.pattern.nullable = false := by
  cases k <;> rfl

theorem Terminal.exists_read?_of_run {u : Terminal} {cs rest : List Char}
    (h : u.run cs = .matched rest) :
    ∃ t, Token.read? (cs.dropWhile Token.isBlank) = some (t, rest) ∧ u.accepts t = true := by
  unfold run at h
  cases hread : Token.read? (cs.dropWhile Token.isBlank) with
  | none =>
    rw [hread] at h
    cases h
  | some read =>
    obtain ⟨t, after⟩ := read
    simp only [hread] at h
    split at h
    · rename_i haccepts
      cases h
      exact ⟨t, rfl, haccepts⟩
    · cases h

theorem Terminal.step_of_run {u : Terminal} {cs rest : List Char}
    (h : u.run cs = .matched rest) : Step cs rest := by
  obtain ⟨t, hread, -⟩ := exists_read?_of_run h
  exact ⟨t, hread⟩

theorem Pattern.read?_of_run_symbol {e : Entry → Recognizer} {s : Symbol} {cs rest : List Char}
    (h : (symbol s).run e cs = .matched rest) :
    Token.read? (cs.dropWhile Token.isBlank) = some (.symbol s, rest) := by
  obtain ⟨t, hread, haccepts⟩ := Terminal.exists_read?_of_run h
  cases t with
  | symbol s' =>
    have heq : s = s' := by simpa [Terminal.accepts] using haccepts
    rw [heq, hread]
  | _ => cases haccepts

theorem Terminal.run_ne_exhausted {u : Terminal} {cs : List Char} : u.run cs ≠ .exhausted := by
  unfold run
  cases Token.read? (cs.dropWhile Token.isBlank) with
  | none => nofun
  | some read =>
    dsimp only
    split <;> nofun

theorem repeatWhile_steps {r : Recognizer}
    (hr : ∀ {cs rest}, r cs = .matched rest → ReflTransGen Step cs rest) {cs rest : List Char}
    (h : repeatWhile r cs = .matched rest) : ReflTransGen Step cs rest := by
  fun_induction repeatWhile r cs with
  | case1 cs ds hds _ ih => exact (hr hds).trans (ih h)
  | case2 cs ds hds _ =>
    cases h
    exact hr hds
  | case3 =>
    cases h
    exact .refl
  | case4 => cases h

/-- A match reads tokens, one at least if it cannot be empty. -/
theorem Pattern.steps_of_run {e : Entry → Recognizer}
    (he : ∀ {k cs rest}, e k cs = .matched rest → TransGen Step cs rest) (p : Pattern)
    {cs rest : List Char} (h : p.run e cs = .matched rest) :
    ReflTransGen Step cs rest ∧ (p.nullable = false → TransGen Step cs rest) := by
  induction p generalizing cs rest with
  | terminal t =>
    have hstep := Terminal.step_of_run h
    exact ⟨.single hstep, fun _ => .single hstep⟩
  | notBefore c =>
    rw [run_notBefore] at h
    split at h
    · cases h
    · cases h
      exact ⟨.refl, nofun⟩
  | sequence p q ihp ihq =>
    rw [run_sequence] at h
    cases hp : p.run e cs with
    | matched mid =>
      rw [hp] at h
      obtain ⟨hfirst, hfirst'⟩ := ihp hp
      obtain ⟨hsecond, hsecond'⟩ := ihq h
      refine ⟨hfirst.trans hsecond, fun hn => ?_⟩
      rcases Bool.and_eq_false_iff.mp hn with hn | hn
      · exact (hfirst' hn).trans_left hsecond
      · exact (hsecond' hn).trans_right hfirst
    | failed | exhausted =>
      rw [hp] at h
      cases h
  | choice p q ihp ihq =>
    cases hp : p.run e cs with
    | failed =>
      rw [run_choice_of_left_failed hp] at h
      exact ⟨(ihq h).1, fun hn => (ihq h).2 (Bool.or_eq_false_iff.mp hn).2⟩
    | matched | exhausted =>
      rw [run_choice, hp] at h
      exact ⟨(ihp (hp.trans h)).1, fun hn => (ihp (hp.trans h)).2 (Bool.or_eq_false_iff.mp hn).1⟩
  | optional p ihp =>
    cases hp : p.run e cs with
    | failed =>
      rw [run_optional_of_failed hp] at h
      cases h
      exact ⟨.refl, nofun⟩
    | matched | exhausted =>
      rw [run_optional, hp] at h
      exact ⟨(ihp (hp.trans h)).1, nofun⟩
  | repeated p ihp => exact ⟨repeatWhile_steps (fun h => (ihp h).1) h, nofun⟩
  | again k => exact ⟨(he h).to_reflTransGen, fun _ => he h⟩

section

variable {n : Nat} {cs rest : List Char}

theorem steps_of_enter {k : Entry} (h : enter n k cs = .matched rest) : TransGen Step cs rest := by
  induction n generalizing k cs rest with
  | zero => cases h
  | succ n ih => exact (k.pattern.steps_of_run ih h).2 k.nullable_pattern

theorem steps_of_run {p : Pattern} (hp : p.nullable = false)
    (h : p.run (enter n) cs = .matched rest) : TransGen Step cs rest :=
  (p.steps_of_run steps_of_enter h).2 hp

/-- A repetition of what reads tokens goes on behind each match. -/
theorem run_repeated_of_matched {p : Pattern} (hp : p.nullable = false)
    (h : p.run (enter n) cs = .matched rest) :
    (Pattern.repeated p).run (enter n) cs = (Pattern.repeated p).run (enter n) rest :=
  repeatWhile_of_matched h (length_lt_of_steps (steps_of_run hp h))

theorem run_sequence_repeated_of_matched {p q : Pattern} (hp : p.nullable = false)
    (h : p.run (enter n) cs = .matched rest) :
    (Pattern.sequence (.repeated p) q).run (enter n) cs =
      (Pattern.sequence (.repeated p) q).run (enter n) rest := by
  rw [Pattern.run_sequence, run_repeated_of_matched hp h, ← Pattern.run_sequence]

end

/-- Behind steps there are fewer tokens. -/
theorem exists_list?_of_steps {cs rest : List Char} (h : TransGen Step cs rest) {us : List Token}
    (hus : Token.list? rest = some us) :
    ∃ ts, Token.list? cs = some ts ∧ us.length < ts.length := by
  induction h using TransGen.head_induction_on with
  | single hstep =>
    obtain ⟨t, ht⟩ := hstep.list? hus
    exact ⟨_, ht, Nat.lt_succ_self _⟩
  | head hstep _ ih =>
    obtain ⟨ts, hts, hlt⟩ := ih
    obtain ⟨t, ht⟩ := hstep.list? hts
    exact ⟨_, ht, Nat.lt_succ_of_lt hlt⟩

end Reckoner.Grammar
