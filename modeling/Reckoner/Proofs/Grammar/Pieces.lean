import Reckoner.Proofs.Grammar.Agreement

/-!
# Items, names and labels

What stands between brackets, in front of a colon and behind an assignment sign. A comma may
follow the last item, so the recogniser tries to read another item behind it and goes back. A
name with an assignment sign behind it needs care: where no expression follows the sign, the
recogniser goes back and takes the name for an expression. It stops in front of the sign, with
which no rule goes on (`Halted`).
-/

namespace Reckoner.Grammar

variable {n : Nat} {cs rest : List Char} {t : Token} {ts us : List Token}

/-! ### One token -/

namespace Pattern

variable {e : Entry → Recognizer}

/-- A token that is asked for is matched. -/
theorem exists_run_terminal {u : Terminal} (hts : Token.list? cs = some (t :: ts))
    (hu : u.accepts t = true) :
    ∃ rest, Token.list? rest = some ts ∧ (terminal u).run e cs = .matched rest := by
  obtain ⟨rest, hrest, hrun⟩ := exists_terminal_run hts
  exact ⟨rest, hrest, by rw [run, hrun, if_pos hu]⟩

theorem exists_run_symbol {s : Symbol} (hts : Token.list? cs = some (.symbol s :: ts)) :
    ∃ rest, Token.list? rest = some ts ∧ (symbol s).run e cs = .matched rest :=
  exists_run_terminal hts (by simp [Terminal.accepts])

theorem run_terminal_of_not_accepts {u : Terminal} (hts : Token.list? cs = some ts)
    (hu : ∀ t ∈ ts.head?, u.accepts t = false) : (terminal u).run e cs = .failed := by
  cases ts with
  | nil => exact terminal_run_nil hts u
  | cons t ts =>
    obtain ⟨rest, -, hrun⟩ := exists_terminal_run hts
    rw [run, hrun, if_neg (by simp [hu t rfl])]

theorem run_symbol_of_head?_ne {s : Symbol} (hts : Token.list? cs = some ts)
    (hs : ts.head? ≠ some (.symbol s)) : (symbol s).run e cs = .failed := by
  refine run_terminal_of_not_accepts hts fun t ht => ?_
  rw [ht] at hs
  cases t with
  | symbol s' => simpa [Terminal.accepts, eq_comm] using hs
  | _ => rfl

theorem run_name_eq_failed (hts : Token.list? cs = some ts) (hname : ¬∃ p us, ts = .name p :: us) :
    (terminal .name).run e cs = .failed := by
  refine run_terminal_of_not_accepts hts fun t ht => ?_
  obtain ⟨us, rfl⟩ := List.head?_eq_some_iff.mp ht
  cases t with
  | name p => exact absurd ⟨p, us, rfl⟩ hname
  | _ => rfl

end Pattern

/-- A sign is matched if it stands next. -/
theorem symbol_accords {P : List Char → Prop} {e : Entry → Recognizer} (s : Symbol)
    (hts : Token.list? cs = some ts) (a : α) :
    Accords P ((Pattern.symbol s).run e cs)
      (if ts.head? = some (.symbol s) then some (a, ts.tail) else none) := by
  split
  · rename_i hhead
    obtain ⟨us, rfl⟩ := List.head?_eq_some_iff.mp hhead
    obtain ⟨rest, hrest, hrun⟩ := Pattern.exists_run_symbol (e := e) hts
    rw [hrun]
    exact .read hrest
  · rename_i hhead
    rw [Pattern.run_symbol_of_head?_ne hts hhead]
    exact .failed

/-- An expression ended here: what stands next goes on with it but to no avail, or is an
assignment sign. -/
def Halted (n : Nat) (cs : List Char) : Prop :=
  Stuck n cs ∨ ∃ us, Token.list? cs = some (.symbol .assign :: us)

/-- No sign that stands between items or behind a bracketed expression follows. -/
theorem Halted.run_eq_failed {e : Entry → Recognizer} (h : Halted n cs) {s : Symbol}
    (hs : (Token.symbol s).binding? = none) (hassign : s ≠ .assign) :
    (Pattern.symbol s).run e cs = .failed := by
  have hnot : ∃ t us, Token.list? cs = some (t :: us) ∧ Token.symbol s ≠ t := by
    rcases h with h | ⟨us, hus⟩
    · obtain ⟨t, us, hus, ht⟩ := h.exists_list?
      refine ⟨t, us, hus, fun heq => ?_⟩
      rw [← heq, hs] at ht
      cases ht
    · exact ⟨_, us, hus, fun heq => hassign (by cases heq; rfl)⟩
  obtain ⟨t, us, hus, hne⟩ := hnot
  refine Pattern.run_symbol_of_head?_ne hus fun heq => ?_
  cases heq
  exact hne rfl

theorem Halted.run_close {e : Entry → Recognizer} (h : Halted n cs) {close : Symbol}
    (hclose : close = .closeParen ∨ close = .closeBracket) :
    (Pattern.symbol close).run e cs = .failed := by
  rcases hclose with rfl | rfl <;> exact h.run_eq_failed rfl nofun

/-! ### Items -/

/-- What is read behind an item. -/
def behindItem (close : Symbol) (item : Reader α) (rounds : List Token) (a : α) :
    Reader (List α)
  | .symbol s :: rest =>
    if s = close then some ([a], rest)
    else if s = .comma then (items close item rounds rest).map fun (as, r) => (a :: as, r)
    else none
  | _ => none

section

variable {close : Symbol} {item : Reader α} {rounds : List Token}

theorem items_of_item_eq_none (h : item ts = none) : items close item rounds ts =
    if ts.head? = some (.symbol close) then some ([], ts.tail) else none := by
  unfold items
  rw [h]
  cases rounds <;> rfl

theorem items_cons {r : Token} (h : ts.head? ≠ some (.symbol close)) :
    items close item (r :: rounds) ts =
      (item ts).bind fun (a, us) => behindItem close item rounds a us := by
  unfold items
  rw [if_neg h]
  cases item ts with
  | none => rfl
  | some x =>
    obtain ⟨a, us⟩ := x
    cases us with
    | nil => rfl
    | cons u us => cases u <;> rfl

end

/-- An item: as an expression it begins with a token that one can begin with. -/
structure Itemizes (n : Nat) (p : Pattern) (r : Reader α) : Prop where
  accords ⦃cs : List Char⦄ ⦃ts : List Token⦄ (hts : Token.list? cs = some ts) :
    Accords (Halted n) (p.run (enter n) cs) (r ts)
  begins ⦃cs rest : List Char⦄ ⦃ts : List Token⦄ (hts : Token.list? cs = some ts)
    (hmatched : p.run (enter n) cs = .matched rest) : ts.head?.any Token.begins = true
  nullable : p.nullable = false

/-- The rest of the items, from behind one of them to the bracket. -/
def Pattern.furtherItems (item : Pattern) (close : Symbol) : Pattern :=
  sequence (repeated (sequence (symbol .comma) item))
    (sequence (optional (symbol .comma)) (symbol close))

section

variable {p : Pattern} {r : Reader α} {close : Symbol} {e : Entry → Recognizer}

/-- Behind an item nothing fails before the bracket. -/
theorem run_items_of_matched (h : p.run e cs = .matched rest) :
    (Pattern.sequence (.optional (.sequence (.commaSeparated p) (.optional (.symbol .comma))))
      (.symbol close)).run e cs = (p.furtherItems close).run e rest := by
  have hinner : (Pattern.sequence (.commaSeparated p) (.optional (.symbol .comma))).run e cs =
      (Pattern.sequence (.repeated (.sequence (.symbol .comma) p))
        (.optional (.symbol .comma))).run e rest := by
    rw [Pattern.commaSeparated, Pattern.run_sequence_assoc, Pattern.run_sequence_of_matched h]
  have hne : (Pattern.sequence (.commaSeparated p) (.optional (.symbol .comma))).run e cs
      ≠ .failed := by
    rw [hinner, Pattern.run_sequence]
    split
    · exact Pattern.run_optional_ne_failed
    · exact Pattern.run_repeated_ne_failed
  rw [Pattern.run_sequence_optional_of_ne_failed hne, Pattern.run_sequence_assoc,
    Pattern.commaSeparated, Pattern.run_sequence_assoc, Pattern.run_sequence_of_matched h,
    Pattern.furtherItems]

theorem run_items_of_failed (h : p.run e cs = .failed) :
    (Pattern.sequence (.optional (.sequence (.commaSeparated p) (.optional (.symbol .comma))))
      (.symbol close)).run e cs = (Pattern.symbol close).run e cs :=
  Pattern.run_sequence_optional_of_failed
    (Pattern.run_sequence_of_failed (Pattern.run_sequence_of_failed h))

/-- Where no comma stands next, the bracket has to. -/
theorem run_furtherItems_of_failed (h : (Pattern.symbol .comma).run e cs = .failed) :
    (p.furtherItems close).run e cs = (Pattern.symbol close).run e cs := by
  have hstep : (Pattern.sequence (.symbol .comma) p).run e cs = .failed :=
    Pattern.run_sequence_of_failed h
  rw [Pattern.furtherItems, Pattern.run_sequence_of_matched (Pattern.run_repeated_of_failed hstep),
    Pattern.run_sequence_optional_of_failed h]

/-- No further item and no bracket stands where an expression was halted. -/
theorem Halted.run_furtherItems (h : Halted n cs)
    (hclose : close = .closeParen ∨ close = .closeBracket) :
    (p.furtherItems close).run e cs = .failed := by
  rw [run_furtherItems_of_failed (h.run_eq_failed rfl nofun), h.run_close hclose]

end

section

variable {p : Pattern} {r : Reader α} {close : Symbol}

/-- What stands next is no bracket if an item is matched there. -/
theorem Itemizes.head?_ne (hitem : Itemizes n p r) (hclose : (Token.symbol close).begins = false)
    (hts : Token.list? cs = some ts) (hmatched : p.run (enter n) cs = .matched rest) :
    ts.head? ≠ some (.symbol close) := by
  intro heq
  have hbegins := hitem.begins hts hmatched
  rw [heq, Option.any_some, hclose] at hbegins
  cases hbegins

/-- Behind a comma and an item the items go on. -/
theorem run_furtherItems_of_matched {mid : List Char}
    (hcomma : (Pattern.symbol .comma).run (enter n) cs = .matched mid)
    (hmatched : p.run (enter n) mid = .matched rest) :
    (p.furtherItems close).run (enter n) cs = (p.furtherItems close).run (enter n) rest := by
  have hstep : (Pattern.sequence (.symbol .comma) p).run (enter n) cs = .matched rest := by
    rw [Pattern.run_sequence_of_matched hcomma, hmatched]
  exact run_sequence_repeated_of_matched rfl hstep

theorem behindItem_accords (hitem : Itemizes n p r)
    (hclose : close = .closeParen ∨ close = .closeBracket) {cs : List Char}
    {ts rounds : List Token} (a : α) (hts : Token.list? cs = some ts)
    (hrounds : ts.length ≤ rounds.length) :
    Accords (fun _ => False) ((p.furtherItems close).run (enter n) cs)
      (behindItem close r rounds a ts) := by
  by_cases hcomma : ts.head? = some (.symbol .comma)
  · obtain ⟨us, rfl⟩ := List.head?_eq_some_iff.mp hcomma
    obtain ⟨mid, hmid, hcomma⟩ := Pattern.exists_run_symbol (e := enter n) hts
    have hbehind : behindItem close r rounds a (.symbol .comma :: us) =
        (items close r rounds us).map fun (as, rest) => (a :: as, rest) := by
      rcases hclose with rfl | rfl <;> rfl
    have hbegins : (Token.symbol close).begins = false := by
      rcases hclose with rfl | rfl <;> rfl
    have hstep : (Pattern.sequence (.symbol .comma) p).run (enter n) cs = p.run (enter n) mid :=
      Pattern.run_sequence_of_matched hcomma
    rw [hbehind]
    have haccords := hitem.accords hmid
    generalize ho : p.run (enter n) mid = o, hx : r us = x at haccords
    cases haccords with
    | exhausted =>
      rw [Pattern.furtherItems, Pattern.run_sequence,
        Pattern.run_repeated_of_exhausted (hstep.trans ho)]
      exact .exhausted
    | failed =>
      -- the comma was behind the last item
      have hoptional : (Pattern.optional (.symbol .comma)).run (enter n) cs = .matched mid := by
        rw [Pattern.run_optional, hcomma]
      rw [items_of_item_eq_none hx, Pattern.furtherItems, Pattern.run_sequence_of_matched
        (Pattern.run_repeated_of_failed (hstep.trans ho)), Pattern.run_sequence_of_matched hoptional]
      exact (symbol_accords close hmid []).map (a :: ·)
    | @read b rest vs hvs =>
      obtain ⟨round, rounds, rfl⟩ := List.exists_cons_of_length_pos
        (Nat.lt_of_lt_of_le (Nat.succ_pos _) hrounds)
      obtain ⟨ts', hts', hlt⟩ := exists_list?_of_steps (steps_of_run hitem.nullable ho) hvs
      obtain rfl := Option.some_inj.mp (hmid.symm.trans hts')
      have hshorter := length_lt_of_steps (steps_of_run rfl (hstep.trans ho))
      rw [items_cons (hitem.head?_ne hbegins hmid ho), hx, run_furtherItems_of_matched hcomma ho]
      refine (behindItem_accords hitem hclose b hvs ?_).map (a :: ·)
      simp only [List.length_cons] at hrounds
      omega
    | @blocked rest hblocked =>
      rw [items_of_item_eq_none hx, if_neg (hitem.head?_ne hbegins hmid ho),
        run_furtherItems_of_matched hcomma ho, hblocked.run_furtherItems hclose]
      exact .failed
  · have hbehind : behindItem close r rounds a ts =
        if ts.head? = some (.symbol close) then some ([a], ts.tail) else none := by
      unfold behindItem
      split
      · simp_all
      · rename_i hnot
        rw [if_neg]
        intro hhead
        obtain ⟨us, rfl⟩ := List.head?_eq_some_iff.mp hhead
        exact hnot _ _ rfl
    rw [run_furtherItems_of_failed (Pattern.run_symbol_of_head?_ne hts hcomma), hbehind]
    exact symbol_accords close hts [a]
termination_by cs.length

theorem enclosedItems_accords (hitem : Itemizes n p r)
    (hclose : close = .closeParen ∨ close = .closeBracket) {o : Symbol}
    (hts : Token.list? cs = some (.symbol o :: ts)) :
    Accords (fun _ => False) ((Pattern.enclosedItems o p close).run (enter n) cs)
      (items close r ts ts) := by
  have hbegins : (Token.symbol close).begins = false := by
    rcases hclose with rfl | rfl <;> rfl
  obtain ⟨mid, hmid, hopen⟩ := Pattern.exists_run_symbol (e := enter n) hts
  rw [Pattern.enclosedItems, Pattern.bracketed, Pattern.run_sequence_of_matched hopen]
  have haccords := hitem.accords hmid
  generalize ho : p.run (enter n) mid = o, hx : r ts = x at haccords
  cases haccords with
  | exhausted =>
    simp only [Pattern.commaSeparated, Pattern.run, ho]
    exact .exhausted
  | failed =>
    rw [run_items_of_failed ho, items_of_item_eq_none hx]
    exact symbol_accords close hmid []
  | @read a rest us hus =>
    obtain ⟨ts', hts', hlt⟩ := exists_list?_of_steps (steps_of_run hitem.nullable ho) hus
    obtain rfl := Option.some_inj.mp (hmid.symm.trans hts')
    obtain ⟨t, rounds, rfl⟩ := List.exists_cons_of_length_pos
      (Nat.lt_of_le_of_lt (Nat.zero_le _) hlt)
    rw [run_items_of_matched ho, items_cons (hitem.head?_ne hbegins hmid ho), hx]
    exact behindItem_accords hitem hclose a hus (Nat.le_of_lt_succ hlt)
  | @blocked rest hblocked =>
    rw [run_items_of_matched ho, hblocked.run_furtherItems hclose, items_of_item_eq_none hx,
      if_neg (hitem.head?_ne hbegins hmid ho)]
    exact .failed

end

/-! ### Names -/

theorem parameters_eq_none (h : ¬∃ p us, ts = .name p :: us) : parameters ts = none := by
  unfold parameters
  split
  · exact absurd ⟨_, _, rfl⟩ h
  · exact absurd ⟨_, _, rfl⟩ h
  · rfl

/-- Behind a name without a further one stands the colon. -/
theorem parameters_of_last (p : String) (hlast : ¬∃ q us, ts = .symbol .comma :: .name q :: us) :
    parameters (.name p :: ts) =
      if ts.head? = some (.symbol .colon) then some ([p], ts.tail) else none := by
  unfold parameters
  split
  · simp_all
  · rename_i q us heq
    cases heq
    rw [parameters_eq_none fun ⟨q, vs, h⟩ => hlast ⟨q, vs, h ▸ rfl⟩]
    rfl
  · rename_i hcolon _
    rw [if_neg]
    intro hhead
    obtain ⟨us, rfl⟩ := List.head?_eq_some_iff.mp hhead
    exact hcolon _ _ rfl

/-- Where no name stands, the colon does. -/
theorem parameters?_of_no_name (hname : ¬∃ p us, ts = .name p :: us) : parameters? ts =
    if ts.head? = some (.symbol .colon) then some ([], ts.tail) else none := by
  unfold parameters?
  split
  · rfl
  · rename_i hcolon
    rw [parameters_eq_none hname, if_neg]
    intro hhead
    obtain ⟨us, rfl⟩ := List.head?_eq_some_iff.mp hhead
    exact hcolon _ rfl

/-- The names of a lambda up to the colon, one of them read already. -/
theorem names_accords {cs : List Char} {ts : List Token} (p : String)
    (hts : Token.list? cs = some ts) :
    Accords (fun _ => False)
      ((Pattern.sequence (.repeated (.sequence (.symbol .comma) (.terminal .name)))
        (.symbol .colon)).run (enter n) cs) (parameters (.name p :: ts)) := by
  by_cases hnext : ∃ q us, ts = .symbol .comma :: .name q :: us
  · obtain ⟨q, us, rfl⟩ := hnext
    obtain ⟨mid, hmid, hcomma⟩ := Pattern.exists_run_symbol (e := enter n) hts
    obtain ⟨rest, hrest, hname⟩ := Pattern.exists_run_terminal (e := enter n) (u := .name) hmid rfl
    have hstep := (Pattern.run_sequence_of_matched hcomma).trans hname
    have hshorter := length_lt_of_steps (steps_of_run rfl hstep)
    rw [run_sequence_repeated_of_matched rfl hstep]
    exact (names_accords q hrest).map (p :: ·)
  · have hstep : (Pattern.sequence (.symbol .comma) (.terminal .name)).run (enter n) cs
        = .failed := by
      by_cases hcomma : ts.head? = some (.symbol .comma)
      · obtain ⟨us, rfl⟩ := List.head?_eq_some_iff.mp hcomma
        obtain ⟨mid, hmid, hcomma⟩ := Pattern.exists_run_symbol (e := enter n) hts
        rw [Pattern.run_sequence_of_matched hcomma]
        exact Pattern.run_name_eq_failed hmid fun ⟨q, vs, h⟩ => hnext ⟨q, vs, h ▸ rfl⟩
      · exact Pattern.run_sequence_of_failed (Pattern.run_symbol_of_head?_ne hts hcomma)
    rw [Pattern.run_sequence_of_matched (Pattern.run_repeated_of_failed hstep),
      parameters_of_last p hnext]
    exact symbol_accords .colon hts [p]
termination_by cs.length

theorem parameters?_accords (hts : Token.list? cs = some ts) :
    Accords (fun _ => False)
      ((Pattern.sequence (.optional (.commaSeparated (.terminal .name)))
        (.symbol .colon)).run (enter n) cs) (parameters? ts) := by
  by_cases hname : ∃ p us, ts = .name p :: us
  · obtain ⟨p, us, rfl⟩ := hname
    obtain ⟨rest, hrest, hname⟩ := Pattern.exists_run_terminal (e := enter n) (u := .name) hts rfl
    have hne : (Pattern.commaSeparated (.terminal .name)).run (enter n) cs ≠ .failed := by
      rw [Pattern.commaSeparated, Pattern.run_sequence_of_matched hname]
      exact Pattern.run_repeated_ne_failed
    rw [Pattern.run_sequence_optional_of_ne_failed hne, Pattern.commaSeparated,
      Pattern.run_sequence_assoc, Pattern.run_sequence_of_matched hname]
    exact names_accords p hrest
  · have hfailed : (Pattern.commaSeparated (.terminal .name)).run (enter n) cs = .failed :=
      Pattern.run_sequence_of_failed (Pattern.run_name_eq_failed hts hname)
    rw [Pattern.run_sequence_optional_of_failed hfailed, parameters?_of_no_name hname]
    exact symbol_accords .colon hts []

/-! ### Assignment signs -/

/-- Where no name with an assignment sign behind it stands, nothing is labelled. -/
theorem run_labelled_eq_failed (hts : Token.list? cs = some ts)
    (hlabel : ¬∃ k us, ts = .name k :: .symbol .assign :: us) :
    Pattern.labelled.run (enter n) cs = .failed := by
  by_cases hname : ∃ k us, ts = .name k :: us
  · obtain ⟨k, us, rfl⟩ := hname
    obtain ⟨mid, hmid, hname⟩ := Pattern.exists_run_terminal (e := enter n) (u := .name) hts rfl
    rw [Pattern.labelled, Pattern.run_sequence_of_matched hname]
    refine Pattern.run_sequence_of_failed (Pattern.run_symbol_of_head?_ne hmid fun hhead => ?_)
    obtain ⟨vs, rfl⟩ := List.head?_eq_some_iff.mp hhead
    exact hlabel ⟨k, vs, rfl⟩
  · exact Pattern.run_sequence_of_failed (Pattern.run_name_eq_failed hts hname)

/-- An expression that begins with a name ends in front of an assignment sign. -/
def EndsAtAssign (r : Reader Expr) : Prop :=
  ∀ k us, r (.name k :: .symbol .assign :: us) = none ∨
    ∃ e, r (.name k :: .symbol .assign :: us) = some (e, .symbol .assign :: us)

section

variable {again : Entry → Reader Expr} (hagain : ∀ k, Agrees n (.again k) (again k))

include hagain

/-- A labelled value or else something that an expression can begin with: if no value follows the
assignment sign, the name is taken for an expression. -/
theorem choice_labelled_accords {q : Pattern} {r : Reader Expr} (hq : Agrees n q r)
    (hassign : EndsAtAssign r) {f : String → Expr → α} {g : Expr → α} {s : Reader α}
    (hlabelled : ∀ k us, s (.name k :: .symbol .assign :: us) =
      (again .expression us).map fun (e, rest) => (f k e, rest))
    (hother : ∀ ts, (¬∃ k us, ts = .name k :: .symbol .assign :: us) →
      s ts = (r ts).map fun (e, rest) => (g e, rest))
    (hts : Token.list? cs = some ts) :
    Accords (Halted n) ((Pattern.choice .labelled q).run (enter n) cs) (s ts) := by
  by_cases hlabel : ∃ k us, ts = .name k :: .symbol .assign :: us
  · obtain ⟨k, us, rfl⟩ := hlabel
    obtain ⟨mid, hmid, hname⟩ := Pattern.exists_run_terminal (e := enter n) (u := .name) hts rfl
    obtain ⟨value, hvalue, hsign⟩ := Pattern.exists_run_symbol (e := enter n) hmid
    have hrun : Pattern.labelled.run (enter n) cs = enter n .expression value := by
      rw [Pattern.labelled, Pattern.run_sequence_of_matched hname,
        Pattern.run_sequence_of_matched hsign, Pattern.run]
    have haccords := hagain .expression hvalue
    rw [Pattern.run, ← hrun] at haccords
    rw [hlabelled, Pattern.run_choice]
    generalize Pattern.labelled.run (enter n) cs = o, again .expression us = x at haccords ⊢
    cases haccords with
    | exhausted => exact .exhausted
    | read hrest => exact .read hrest
    | blocked hstuck => exact .blocked (.inl hstuck)
    | failed =>
      -- the recogniser goes back, and stops in front of the sign
      have haccords := hq hts
      rcases hassign k us with hnone | ⟨e, hsome⟩
      · rw [hnone] at haccords
        exact (haccords.mono fun _ h => Or.inl h).map (f k)
      · rw [hsome] at haccords
        show Accords _ (q.run (enter n) cs) none
        generalize q.run (enter n) cs = o at haccords
        cases haccords with
        | exhausted => exact .exhausted
        | read hrest => exact .blocked (.inr ⟨us, hrest⟩)
  · rw [Pattern.run_choice_of_left_failed (run_labelled_eq_failed hts hlabel), hother ts hlabel]
    exact ((hq hts).mono fun _ => .inl).map g

end

end Reckoner.Grammar
