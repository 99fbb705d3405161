import Reckoner.Proofs.Nesting.Cover

/-!
# The scan at the places of a text

A text need not be one of the grammar, nor consist of tokens, and yet the scan goes along with
anybody who reads tokens from its front. Where an operand may begin, the scan is at the same
character, but may take it for the end of a sign (`AtOperand`). Where an operand has ended, it
is at the same character or, if the operand was a number literal that touches a word, behind
this word (`AtOperator`). From one token to the next the scan stays at its level, or opens or
closes one, and never counts fewer operators (`Scan.Later`).

The operators and brackets on the way from the root to a place are a lower bound for what the
scan will find (`Scan.path_lt_bound`).
-/

namespace Reckoner.Nesting

open Token (Spells read? isBlank)

/-! ### The way from the root -/

namespace Scan

variable {s t u : Scan}

/-- The operators of the open levels, and the brackets between them. -/
def path (s : Scan) : Nat :=
  s.current.operators + s.enclosing.foldr (fun l n => l.operators + 1 + n) 0

theorem path_step_operator : (s.step .operator).path = s.path + 1 := by
  simp only [path, step]
  omega

theorem path_step_opening : (s.step .opening).path = s.path + 1 := by
  simp only [path, step, List.foldr_cons]
  omega

theorem closed_bound_ge_operators (a : Level) (ls : List Level) :
    a.bound + ls.foldr (fun l n => l.operators + 1 + n) 0 ≤ (closed a ls).bound := by
  induction ls generalizing a with
  | nil => exact Nat.le_refl _
  | cons l ls ih =>
    have := ih (l.enclose a)
    have hl : a.bound + l.operators + 1 ≤ (l.enclose a).bound := by
      simp only [Level.enclose, Level.bound]
      omega
    simp only [closed, List.foldl_cons, List.foldr_cons] at this ⊢
    omega

theorem path_lt_bound (s : Scan) : s.path < s.bound := by
  have := closed_bound_ge_operators s.current s.enclosing
  rw [← bound_eq] at this
  simp only [path, Level.bound] at this ⊢
  omega

/-- The same levels are open, and the innermost one has no fewer operators. -/
structure Later (s t : Scan) : Prop where
  enclosing : t.enclosing = s.enclosing
  operators : s.current.operators ≤ t.current.operators

namespace Later

theorem refl (s : Scan) : s.Later s := ⟨rfl, Nat.le_refl _⟩

theorem trans (h : s.Later t) (h' : t.Later u) : s.Later u :=
  ⟨h'.enclosing.trans h.enclosing, Nat.le_trans h.operators h'.operators⟩

theorem path_le (h : s.Later t) : s.path ≤ t.path := by
  simp only [path, h.enclosing]
  exact Nat.add_le_add_right h.operators _

theorem step_operator (s : Scan) : s.Later (s.step .operator) := ⟨rfl, Nat.le_succ _⟩

theorem run_markIf (s : Scan) (b : Bool) : s.Later (s.run (markIf b .operator)) := by
  cases b with
  | false => exact refl s
  | true => exact step_operator s

/-- Behind a closing bracket the level around it is where it was before the opening one. -/
theorem closing (h : (s.step .opening).Later t) : s.Later (t.step .closing) := by
  obtain ⟨current, enclosing⟩ := t
  have henclosing : enclosing = s.current :: s.enclosing := h.enclosing
  subst henclosing
  exact ⟨rfl, Nat.le_refl _⟩

end Later

end Scan

/-! ### Places -/

variable {limit : Nat} {s : Scan} {cs rest : List Char} {previous : Char}

/-- The scan is at the text, whatever the character before it, and will be within the limit. -/
def AtOperand (limit : Nat) (s : Scan) (cs : List Char) : Prop :=
  ∃ previous, (s.run (marks previous cs)).bound ≤ limit

/-- The scan is at the text, or behind the word with which the text begins, and will be within the
limit. -/
def AtOperator (limit : Nat) (s : Scan) (cs : List Char) : Prop :=
  (s.run (marks ' ' cs)).bound ≤ limit ∨
    (s.run (marks ' ' (cs.dropWhile Token.continuesWord))).bound ≤ limit

/-- The scan is at a place of one kind or the other. -/
def AtToken (limit : Nat) (s : Scan) (cs : List Char) : Prop :=
  AtOperand limit s cs ∨ AtOperator limit s cs

/-- The way to a place is shorter than the limit. -/
theorem AtToken.path_lt (h : AtToken limit s cs) : s.path < limit := by
  have hrun (ms : List Mark) (hms : (s.run ms).bound ≤ limit) : s.path < limit :=
    Nat.lt_of_lt_of_le s.path_lt_bound (Nat.le_trans (s.bound_le_run ms) hms)
  rcases h with ⟨_, h⟩ | h | h <;> exact hrun _ h

/-- Blanks do not count, and join no sign. -/
theorem exists_marks_dropWhile (previous : Char) (cs : List Char) :
    ∃ c, marks previous cs = marks c (cs.dropWhile isBlank) ∧ (previous = ' ' → c = ' ') := by
  cases cs with
  | nil => exact ⟨previous, rfl, id⟩
  | cons b cs =>
    cases hb : isBlank b with
    | false => exact ⟨previous, by rw [List.dropWhile_cons_of_neg (by simp [hb])], id⟩
    | true =>
      have hsilent (c : Char) (hc : isBlank c = true) : isSilent c = true :=
        isSilent_of_isWhite (Token.isWhite_of_isBlank hc)
      have hdetached : Detached (b :: cs) := by
        simp only [isBlank, Bool.or_eq_true, decide_eq_true_eq, or_assoc] at hb
        rcases hb with rfl | rfl | rfl | rfl <;> exact EndsRun.cons_iff.mpr rfl
      refine ⟨' ', ?_, fun _ => rfl⟩
      rw [marks_eq_of_unjoined hdetached.unjoined, marks_dropWhile hsilent]

/-- A word does not begin with a blank. -/
theorem dropWhile_isBlank_eq (h : ¬EndsRun Token.continuesWord cs) :
    cs.dropWhile isBlank = cs := by
  cases cs with
  | nil => rfl
  | cons c cs =>
    rw [EndsRun.cons_iff, Bool.not_eq_false] at h
    have hvisible : isBlank c = false := by
      rw [Bool.eq_false_iff]
      intro hblank
      have hnot : Token.continuesWord c = false :=
        Token.not_continues_of_isBlank (t := .name "") hblank
      rw [hnot] at h
      cases h
    exact List.dropWhile_cons_of_neg (by simp [hvisible])

/-! ### Words, texts and numbers -/

/-- Where an operand begins, the scan does not take its first character for a part of a sign. -/
theorem AtOperand.exists_spells {t : Token} (h : AtOperand limit s cs)
    (hread : read? (cs.dropWhile isBlank) = some (t, rest))
    (ht : t.begins = true ∨ ∃ k, t = .keyword k) :
    ∃ sp, Spells sp t ∧ (s.run (marks ' ' (sp ++ rest))).bound ≤ limit := by
  obtain ⟨previous, h⟩ := h
  obtain ⟨c, hmarks, -⟩ := exists_marks_dropWhile previous cs
  obtain ⟨sp, hsplit, hsp⟩ := Token.read?_sound hread
  have hdetached : Detached (sp ++ rest) := by
    rcases ht with ht | ⟨k, rfl⟩
    · exact hsp.detached ht rest
    · cases hsp with
      | keyword => cases k <;> exact EndsRun.cons_iff.mpr rfl
  refine ⟨sp, hsp, ?_⟩
  rwa [hmarks, hsplit, marks_eq_of_unjoined hdetached.unjoined] at h

theorem AtOperand.name {id : String} (h : AtOperand limit s cs)
    (hread : read? (cs.dropWhile isBlank) = some (.name id, rest)) : AtOperator limit s rest := by
  obtain ⟨sp, hsp, h⟩ := h.exists_spells hread (.inl rfl)
  rw [marks_word hsp (.inl ⟨id, rfl⟩) (Token.endsRun_of_read? hread (.inl ⟨id, rfl⟩))] at h
  exact .inl h

theorem AtOperand.text {body : String} (h : AtOperand limit s cs)
    (hread : read? (cs.dropWhile isBlank) = some (.text body, rest)) : AtOperator limit s rest := by
  obtain ⟨sp, hsp, h⟩ := h.exists_spells hread (.inl rfl)
  cases hsp with
  | text hq hbody =>
    rw [marks_text hq hbody] at h
    exact .inl h

/-- A keyword in front of an operand counts. -/
theorem AtOperand.keyword {k : Keyword} (h : AtOperand limit s cs)
    (hread : read? (cs.dropWhile isBlank) = some (.keyword k, rest)) :
    AtOperand limit (s.step .operator) rest := by
  obtain ⟨sp, hsp, h⟩ := h.exists_spells hread (.inr ⟨k, rfl⟩)
  rw [marks_word hsp (.inr ⟨k, rfl⟩) (Token.endsRun_of_read? hread (.inr ⟨k, rfl⟩))] at h
  exact ⟨' ', h⟩

/-- Behind the exponent of a number literal the scan may be behind the word that follows. -/
theorem AtOperand.number {m : Numeral} (h : AtOperand limit s cs)
    (hread : read? (cs.dropWhile isBlank) = some (.number m, rest)) :
    ∃ t, s.Later t ∧ AtOperator limit t rest := by
  obtain ⟨sp, hsp, h⟩ := h.exists_spells hread (.inl rfl)
  cases hsp with
  | number hm =>
    simp only [Numeral.isWellFormed, Bool.and_eq_true] at hm
    rw [Numeral.spelling_eq, List.append_assoc, List.append_assoc, marks_digits hm.1.1.1,
      marks_fraction hm.1.1.2, Scan.run_append] at h
    obtain ⟨t, hlater, ht⟩ : ∃ t, s.Later t ∧
        (t.run (marks ' ' (Numeral.exponentSpelling m.exponent ++ rest))).bound ≤ limit :=
      ⟨_, Scan.Later.run_markIf s _, h⟩
    cases hx : m.exponent with
    | none =>
      rw [hx] at ht
      exact ⟨t, hlater, .inl ht⟩
    | some x =>
      have hwf : x.isWellFormed = true := by simpa [hx] using hm.2
      replace ht : (t.run (marks ' ' (x.spelling ++ rest))).bound ≤ limit := by
        rw [hx] at ht
        exact ht
      rw [marks_exponent hwf] at ht
      cases hsign : x.sign with
      | none =>
        rw [hsign] at ht
        exact ⟨t, hlater, .inr ht⟩
      | some c =>
        rw [hsign] at ht
        exact ⟨t.step .operator, hlater.trans (.step_operator t), .inl ht⟩

/-- The scan at a word behind a number literal is where it would be without the word. -/
theorem AtOperator.keyword {k : Keyword} (h : AtOperator limit s cs)
    (hread : read? (cs.dropWhile isBlank) = some (.keyword k, rest)) :
    ∃ t, s.Later t ∧ AtOperand limit t rest := by
  have hahead (h : (s.run (marks ' ' cs)).bound ≤ limit) :
      ∃ t, s.Later t ∧ AtOperand limit t rest :=
    ⟨s.step .operator, .step_operator s, AtOperand.keyword ⟨' ', h⟩ hread⟩
  rcases h with h | h
  · exact hahead h
  · by_cases hrun : EndsRun Token.continuesWord cs
    · rw [hrun.dropWhile_eq] at h
      exact hahead h
    · have hword : cs.dropWhile Token.continuesWord = rest := by
        obtain ⟨sp, hsplit, hsp⟩ := Token.read?_sound hread
        rw [dropWhile_isBlank_eq hrun] at hsplit
        cases hsp with
        | keyword =>
          rw [hsplit]
          exact (Token.endsRun_of_read? hread (.inr ⟨k, rfl⟩)).dropWhile_append
            (by cases k <;> rfl)
      rw [hword] at h
      exact ⟨s, .refl s, ' ', h⟩

/-! ### Signs -/

/-- Where a sign is read behind an operand, the scan is at the sign. -/
theorem AtOperator.symbol {b : Symbol} (h : AtOperator limit s cs)
    (hread : read? (cs.dropWhile isBlank) = some (.symbol b, rest)) :
    (s.run (marks ' ' (b.spelling ++ rest))).bound ≤ limit := by
  obtain ⟨sp, hsplit, hsp⟩ := Token.read?_sound hread
  have hsplit : cs.dropWhile isBlank = b.spelling ++ rest := by
    cases hsp
    exact hsplit
  have hrun : EndsRun Token.continuesWord cs := by
    by_contra hrun
    rw [← dropWhile_isBlank_eq hrun, hsplit] at hrun
    cases b <;> exact hrun (EndsRun.cons_iff.mpr rfl)
  rw [AtOperator, hrun.dropWhile_eq, or_self] at h
  obtain ⟨c, hmarks, hc⟩ := exists_marks_dropWhile ' ' cs
  rwa [hmarks, hc rfl, hsplit] at h

theorem AtToken.symbol {b : Symbol} (h : AtToken limit s cs)
    (hread : read? (cs.dropWhile isBlank) = some (.symbol b, rest)) :
    ∃ previous, (s.run (marks previous (b.spelling ++ rest))).bound ≤ limit := by
  rcases h with ⟨previous, h⟩ | h
  · obtain ⟨sp, hsplit, hsp⟩ := Token.read?_sound hread
    obtain ⟨c, hmarks, -⟩ := exists_marks_dropWhile previous cs
    cases hsp
    rw [hmarks, hsplit] at h
    exact ⟨c, h⟩
  · exact ⟨' ', h.symbol hread⟩

section

variable {c d : Char}

/-- The characters that only signs consist of. -/
def isSign (c : Char) : Bool := !Token.isQuote c && !Token.startsWord c && c ≠ '.'

theorem marks_sign (hc : isSign c = true) (previous : Char) (cs : List Char) :
    marks previous (c :: cs) = markOf previous c ++ marks c cs := by
  simp only [isSign, Bool.and_eq_true, Bool.not_eq_true', decide_eq_true_eq] at hc
  rw [marks, hc.1.1, hc.1.2, if_neg Bool.false_ne_true, if_neg Bool.false_ne_true, if_neg hc.2]

theorem exists_markOf_eq (hopen : ¬(c = '(' ∨ c = '[')) (hclose : ¬(c = ')' ∨ c = ']'))
    (previous : Char) : ∃ counts, markOf previous c = markIf counts .operator := by
  rw [markOf, if_neg (by simpa using hopen), if_neg (by simpa using hclose)]
  exact ⟨_, rfl⟩

end

/-- A sign that is no bracket counts or is taken for a part of another one. -/
theorem exists_marks_operator {b : Symbol} (previous : Char) (cs : List Char)
    (hb : b.marks = [.operator] ∨ b.marks = []) :
    ∃ c counts, marks previous (b.spelling ++ cs) = markIf counts .operator ++ marks c cs := by
  have hone {c : Char} (hsign : isSign c = true) (hopen : ¬(c = '(' ∨ c = '['))
      (hclose : ¬(c = ')' ∨ c = ']')) :
      ∃ d counts, marks previous (c :: cs) = markIf counts .operator ++ marks d cs := by
    obtain ⟨counts, hcounts⟩ := exists_markOf_eq hopen hclose previous
    exact ⟨c, counts, by rw [marks_sign hsign, hcounts]⟩
  have htwo {c d : Char} (hsign : isSign c = true ∧ isSign d = true)
      (hopen : ¬(c = '(' ∨ c = '[')) (hclose : ¬(c = ')' ∨ c = ']')) (hsecond : markOf c d = []) :
      ∃ e counts, marks previous (c :: d :: cs) = markIf counts .operator ++ marks e cs := by
    obtain ⟨counts, hcounts⟩ := exists_markOf_eq hopen hclose previous
    exact ⟨d, counts, by rw [marks_sign hsign.1, marks_sign hsign.2, hcounts, hsecond]; rfl⟩
  cases b with
  | dot =>
    have hdetached : Detached ('.' :: cs) := EndsRun.cons_iff.mpr rfl
    refine ⟨' ', nameFollows (cs.dropWhile Text.isWhite), ?_⟩
    rw [← marks_point, ← marks_eq_of_unjoined hdetached.unjoined]
    rfl
  | openParen | closeParen | openBracket | closeBracket => simp [Symbol.marks] at hb
  | power | greaterOrEqual | lessOrEqual | equal | notEqual =>
    exact htwo (by decide) (by decide) (by decide) rfl
  | _ => exact hone (by decide) (by decide) (by decide)

/-- The sign of a power and the assignment sign count behind an operand. -/
theorem exists_marks_charged {b : Symbol} (cs : List Char) (hb : b = .power ∨ b = .assign) :
    ∃ c, marks ' ' (b.spelling ++ cs) = .operator :: marks c cs := by
  rcases hb with rfl | rfl
  · refine ⟨'*', ?_⟩
    show marks ' ' ('*' :: '*' :: cs) = _
    rw [marks_sign rfl, marks_sign rfl]
    rfl
  · refine ⟨'=', ?_⟩
    show marks ' ' ('=' :: cs) = _
    rw [marks_sign rfl]
    rfl

/-- A bracket counts everywhere. -/
theorem marks_bracket {b : Symbol} (previous : Char) (cs : List Char)
    (hb : b.marks = [.opening] ∨ b.marks = [.closing]) :
    marks previous (b.spelling ++ cs) = b.marks ++ marks ' ' cs := by
  have hbracket {c : Char} (hsign : isSign c = true) (hstar : c ≠ '*')
      (hequal : joinsEqual c = false) :
      marks previous (c :: cs) = markOf previous c ++ marks ' ' cs := by
    rw [marks_sign hsign, marks_eq_of_unjoined (.of_not hstar hequal)]
  cases b with
  | openParen | closeParen | openBracket | closeBracket =>
    exact hbracket (by decide) (by decide) (by decide)
  | _ => simp [Symbol.marks] at hb

/-! ### One sign -/

theorem AtToken.operator {b : Symbol} (h : AtToken limit s cs)
    (hread : read? (cs.dropWhile isBlank) = some (.symbol b, rest))
    (hb : b.marks = [.operator] ∨ b.marks = []) : ∃ t, s.Later t ∧ AtOperand limit t rest := by
  obtain ⟨previous, h⟩ := h.symbol hread
  obtain ⟨c, counts, hmarks⟩ := exists_marks_operator previous rest hb
  rw [hmarks, Scan.run_append] at h
  exact ⟨_, .run_markIf s counts, c, h⟩

theorem AtOperator.charged {b : Symbol} (h : AtOperator limit s cs)
    (hread : read? (cs.dropWhile isBlank) = some (.symbol b, rest))
    (hb : b = .power ∨ b = .assign) : AtOperand limit (s.step .operator) rest := by
  have h := h.symbol hread
  obtain ⟨c, hmarks⟩ := exists_marks_charged rest hb
  rw [hmarks] at h
  exact ⟨c, h⟩

theorem AtToken.bracket {b : Symbol} {m : Mark} (h : AtToken limit s cs)
    (hread : read? (cs.dropWhile isBlank) = some (.symbol b, rest)) (hb : b.marks = [m])
    (hm : m = .opening ∨ m = .closing) : (((s.step m).run (marks ' ' rest))).bound ≤ limit := by
  obtain ⟨previous, h⟩ := h.symbol hread
  have hbracket : b.marks = [.opening] ∨ b.marks = [.closing] := by
    rcases hm with rfl | rfl
    · exact .inl hb
    · exact .inr hb
  rwa [marks_bracket previous rest hbracket, hb] at h

end Reckoner.Nesting
