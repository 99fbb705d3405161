import Reckoner.Nesting
import Reckoner.Proofs.Token.Spelling

/-!
# The marks of a text, token by token

The scan knows no tokens. Its marks for a sign, a quoted text or a word are nevertheless
those of the token, if what stands before and behind can be told apart from it. A number
literal is different: a point at its end, or the sign of its exponent, counts as an
operator, and an exponent without a sign takes a word behind it for a part of its own.
-/

namespace Reckoner.Nesting

variable {c previous : Char} {cs : List Char}

/-! ### The character before -/

/-- The character before does not join the next one to a longer sign. -/
def Unjoined (previous : Char) (cs : List Char) : Prop :=
  ∀ c ∈ cs.head?, (previous = '*' → c ≠ '*') ∧ (joinsEqual previous = true → c ≠ '=')

theorem Unjoined.of_not (hstar : previous ≠ '*') (hequal : joinsEqual previous = false) :
    Unjoined previous cs :=
  fun c _ => ⟨fun h => absurd h hstar, fun h => absurd h (by simp [hequal])⟩

theorem markOf_eq_of_unjoined (h : Unjoined previous (c :: cs)) :
    markOf previous c = markOf ' ' c := by
  obtain ⟨hstar, hequal⟩ := h c rfl
  have hstar' : (decide (c = '*') && decide (previous ≠ '*')) = decide (c = '*') := by
    by_cases hc : c = '*'
    · have : previous ≠ '*' := fun hp => hstar hp hc
      simp [hc, this]
    · simp [hc]
  have hequal' : (decide (c = '=') && !joinsEqual previous) = decide (c = '=') := by
    by_cases hc : c = '='
    · have : joinsEqual previous = false := by
        rw [Bool.eq_false_iff]
        exact fun hp => hequal hp hc
      simp [hc, this]
    · simp [hc]
  unfold markOf
  rw [hstar', hequal']
  simp [joinsEqual]

/-- The marks do not depend on the character before if it joins nothing. -/
theorem marks_eq_of_unjoined (h : Unjoined previous cs) : marks previous cs = marks ' ' cs := by
  cases cs with
  | nil => simp only [marks]
  | cons c cs =>
    rw [marks, marks, markOf_eq_of_unjoined h]

theorem marks_cons_of_unjoined (hq : Token.isQuote c = false) (hw : Token.startsWord c = false)
    (hp : c ≠ '.') (h : Unjoined c cs) : marks ' ' (c :: cs) = markOf ' ' c ++ marks ' ' cs := by
  rw [marks, hq, hw, if_neg Bool.false_ne_true, if_neg Bool.false_ne_true, if_neg hp,
    marks_eq_of_unjoined h]

/-! ### Characters that do not count -/

/-- The characters that begin no word and still count, or change what counts. -/
def special : List Char :=
  ['\'', '"', '.', '(', '[', ')', ']', '+', '-', '/', '%', '<', '>', '!', '*', '=']

/-- Whether the character is of no account outside words and texts. -/
def isSilent (c : Char) : Bool := !Token.startsWord c && !special.contains c

theorem of_mem_special (h : c ∈ special) :
    c.isDigit = false ∧ 33 ≤ c.toNat ∧ c.toNat ≤ 126 := by
  have hall : special.all fun d => !d.isDigit && 33 ≤ d.toNat && d.toNat ≤ 126 := by decide
  simpa [and_assoc] using List.all_eq_true.mp hall c h

theorem marks_silent (h : isSilent c = true) : marks ' ' (c :: cs) = marks ' ' cs := by
  simp only [isSilent, special, Bool.and_eq_true, Bool.not_eq_true', List.contains_eq_mem,
    decide_eq_false_iff_not, List.mem_cons, List.not_mem_nil, or_false, not_or] at h
  obtain ⟨hw, h⟩ := h
  have hmark : markOf ' ' c = [] := by simp [markOf, markIf, isOperator, h]
  have hjoin : Unjoined c cs := .of_not (by simp [h]) (by simp [joinsEqual, h])
  rw [marks_cons_of_unjoined (by simp [Token.isQuote, h]) hw (by simp [h]) hjoin, hmark,
    List.nil_append]

theorem marks_silent_append {ds : List Char} (h : ds.all isSilent = true) :
    marks ' ' (ds ++ cs) = marks ' ' cs := by
  induction ds with
  | nil => rfl
  | cons d ds ih =>
    rw [List.all_cons, Bool.and_eq_true] at h
    rw [List.cons_append, marks_silent h.1, ih h.2]

theorem isSilent_of_isDigit (h : c.isDigit = true) : isSilent c = true := by
  have hword : Token.startsWord c = false := by
    rw [Bool.eq_false_iff]
    intro hw
    rw [Token.not_isDigit_of_startsWord hw] at h
    cases h
  simp only [isSilent, hword, Bool.not_false, Bool.true_and, Bool.not_eq_true',
    List.contains_eq_mem, decide_eq_false_iff_not]
  intro hmem
  rw [(of_mem_special hmem).1] at h
  cases h

theorem isSilent_of_isWhite (h : Text.isWhite c = true) : isSilent c = true := by
  have hnot (hlow : 33 ≤ c.toNat) (hhigh : c.toNat ≤ 126) : False := by
    rw [Token.not_isWhite_of_toNat hlow hhigh] at h
    cases h
  have hword : Token.startsWord c = false := by
    rw [Bool.eq_false_iff]
    intro hw
    have := Token.startsWord_iff_toNat.mp hw
    exact hnot (by omega) (by omega)
  simp only [isSilent, hword, Bool.not_false, Bool.true_and, Bool.not_eq_true',
    List.contains_eq_mem, decide_eq_false_iff_not]
  intro hmem
  exact hnot (of_mem_special hmem).2.1 (of_mem_special hmem).2.2

end Reckoner.Nesting

namespace Reckoner

open Nesting (Mark)

/-! ### The marks of a token -/

/-- The marks of a sign. -/
def Symbol.marks : Symbol → List Mark
  | .openParen | .openBracket => [.opening]
  | .closeParen | .closeBracket => [.closing]
  | .comma | .colon => []
  | _ => [.operator]

/-- The marks of a token. -/
def Token.marks : Token → List Mark
  | .keyword _ => [.operator]
  | .symbol s => s.marks
  | .number _ | .text _ | .name _ => []

/-- Whether the scan would take a star or an equals sign behind the sign for a part of it. -/
def Symbol.joins : Symbol → Bool
  | .star | .power | .greater | .less | .greaterOrEqual | .lessOrEqual | .equal | .notEqual
  | .assign => true
  | _ => false

namespace Nesting

variable {c previous : Char} {cs : List Char}

/-- The text does not begin with a character that could belong to a sign before it. -/
def Detached (cs : List Char) : Prop := EndsRun (fun c => c = '*' || c = '=') cs

theorem Detached.unjoined (h : Detached cs) : Unjoined previous cs := by
  intro c hc
  have := h c hc
  simp only [Bool.or_eq_false_iff, decide_eq_false_iff_not] at this
  exact ⟨fun _ => this.1, fun _ => this.2⟩

theorem marks_symbol {s : Symbol} (hs : s ≠ .dot) (h : s.joins = true → Detached cs) :
    marks ' ' (s.spelling ++ cs) = s.marks ++ marks ' ' cs := by
  have hfree {c : Char} (hstar : c ≠ '*') (hequal : joinsEqual c = false) :
      marks c cs = marks ' ' cs := marks_eq_of_unjoined (.of_not hstar hequal)
  have hdetached {c : Char} (hj : s.joins = true) : marks c cs = marks ' ' cs :=
    marks_eq_of_unjoined (h hj).unjoined
  cases s with
  | dot => contradiction
  | plus | minus | slash | percent | comma | colon | openParen | closeParen | openBracket
  | closeBracket =>
    simp [Symbol.spelling, Symbol.marks, marks, Token.isQuote, Token.startsWord, markOf, markIf,
      isOperator, joinsEqual, hfree]
  | _ =>
    simp [Symbol.spelling, Symbol.marks, marks, Token.isQuote, Token.startsWord, markOf, markIf,
      isOperator, joinsEqual, hdetached (rfl : Symbol.joins _ = true)]

theorem marks_dropWhile {p : Char → Bool} (hp : ∀ c, p c = true → isSilent c = true)
    (cs : List Char) : marks ' ' (cs.dropWhile p) = marks ' ' cs := by
  have hsilent : (cs.takeWhile p).all isSilent = true :=
    List.all_eq_true.mpr fun c hc => hp c (List.all_eq_true.mp List.all_takeWhile c hc)
  conv => rhs; rw [← List.takeWhile_append_dropWhile (p := p) (l := cs)]
  rw [marks_silent_append hsilent]

/-- A point counts if a name follows it. -/
theorem marks_point (cs : List Char) : marks ' ' ('.' :: cs) =
    markIf (nameFollows (cs.dropWhile Text.isWhite)) .operator ++ marks ' ' cs := by
  have hjoin : Unjoined '.' (cs.dropWhile Text.isWhite) := .of_not (by decide) rfl
  rw [marks, if_neg (by decide), if_neg (by decide), if_pos rfl, marks_eq_of_unjoined hjoin,
    marks_dropWhile fun c hc => isSilent_of_isWhite hc]

theorem marks_text {q : Char} {body : List Char} (hq : Token.isQuote q = true) (hbody : q ∉ body) :
    marks ' ' (q :: (body ++ [q]) ++ cs) = marks ' ' cs := by
  have hall : body.all (· ≠ q) = true :=
    List.all_eq_true.mpr fun c hc => decide_eq_true fun h => hbody (h ▸ hc)
  have hends : EndsRun (· ≠ q) (q :: cs) := EndsRun.cons_iff.mpr (by simp)
  have hjoin : Unjoined q cs := by
    simp only [Token.isQuote, Bool.or_eq_true, decide_eq_true_eq] at hq
    rcases hq with rfl | rfl <;> exact .of_not (by decide) rfl
  rw [List.cons_append, List.append_assoc, List.singleton_append, marks, if_pos hq,
    hends.dropWhile_append hall, List.tail_cons, marks_eq_of_unjoined hjoin]

/-- Whatever the characters are that a word goes on with, the scan takes them for a part of it. -/
theorem marks_cons_word (hc : Token.startsWord c = true) (cs : List Char) :
    marks ' ' (c :: cs) =
      markIf (Keyword.ofWord? (String.ofList (c :: cs.takeWhile Token.continuesWord))).isSome
        .operator
        ++ marks ' ' (cs.dropWhile Token.continuesWord) := by
  have hq : Token.isQuote c = false := by
    rw [Bool.eq_false_iff]
    intro hq
    simp only [Token.isQuote, Bool.or_eq_true, decide_eq_true_eq] at hq
    rcases hq with rfl | rfl <;> exact absurd hc (by decide)
  have hjoin : Unjoined c (cs.dropWhile Token.continuesWord) := by
    refine .of_not (fun h => ?_) ?_
    · rw [h] at hc
      exact absurd hc (by decide)
    · rw [Bool.eq_false_iff]
      intro hj
      simp only [joinsEqual, Bool.or_eq_true, decide_eq_true_eq, or_assoc] at hj
      rcases hj with rfl | rfl | rfl | rfl <;> exact absurd hc (by decide)
  rw [marks, hq, if_neg Bool.false_ne_true, if_pos hc, marks_eq_of_unjoined hjoin]

/-- A word counts if it is a keyword. -/
theorem marks_word {sp : List Char} {t : Token} (h : Token.Spells sp t)
    (hword : (∃ id, t = .name id) ∨ ∃ k, t = .keyword k) (hcs : EndsRun Token.continuesWord cs) :
    marks ' ' (sp ++ cs) = t.marks ++ marks ' ' cs := by
  rcases hword with ⟨id, rfl⟩ | ⟨k, rfl⟩
  · cases h with
    | name hid =>
      obtain ⟨c, w, heq, hc, hw, hk⟩ := Token.exists_cons_of_isName hid
      rw [heq, List.cons_append, marks_cons_word hc, hcs.takeWhile_append hw,
        hcs.dropWhile_append hw, ← heq, String.ofList_toList, hk]
      rfl
  · cases h with
    | keyword =>
      obtain ⟨c, w, heq, hc, hw⟩ : ∃ c w, k.spelling.toList = c :: w ∧ Token.startsWord c = true ∧
          w.all Token.continuesWord = true := by
        cases k <;> exact ⟨_, _, rfl, rfl, rfl⟩
      rw [heq, List.cons_append, marks_cons_word hc, hcs.takeWhile_append hw,
        hcs.dropWhile_append hw, ← heq, String.ofList_toList, Keyword.ofWord?_spelling]
      rfl

/-! ### Numbers -/

theorem marks_digits {ds : List Char} (h : ds.all Char.isDigit = true) :
    marks ' ' (ds ++ cs) = marks ' ' cs :=
  marks_silent_append (List.all_eq_true.mpr fun d hd =>
    isSilent_of_isDigit (List.all_eq_true.mp h d hd))

/-- A point at the end of the digits counts if a name follows. -/
theorem marks_fraction {fraction : Option (List Char)}
    (h : (fraction.getD []).all Char.isDigit = true) (cs : List Char) :
    marks ' ' (Numeral.fractionSpelling fraction ++ cs) =
      markIf (fraction = some [] && nameFollows (cs.dropWhile Text.isWhite)) .operator
        ++ marks ' ' cs := by
  cases fraction with
  | none => rfl
  | some ds =>
    replace h : ds.all Char.isDigit = true := h
    show marks ' ' ('.' :: (ds ++ cs)) = _
    rw [marks_point, marks_digits h]
    cases ds with
    | nil => simp
    | cons d ds =>
      have hd : d.isDigit = true := (Bool.and_eq_true_iff.mp h).1
      have hwhite : Text.isWhite d = false := by
        rw [Char.isDigit_iff_toNat] at hd
        simp only [Char.reduceToNat] at hd
        exact Token.not_isWhite_of_toNat (by omega) (by omega)
      have hword : Token.startsWord d = false := by
        rw [Bool.eq_false_iff]
        intro hw
        rw [Token.not_isDigit_of_startsWord hw] at hd
        cases hd
      simp [hwhite, nameFollows, hword]

theorem continuesWord_of_isDigit (h : c.isDigit = true) : Token.continuesWord c = true := by
  simp [Token.continuesWord, Char.isAlphanum, h]

/-- An exponent counts if it has a sign; otherwise the scan goes on with it like with a word. -/
theorem marks_exponent {x : Exponent} (h : x.isWellFormed = true) (cs : List Char) :
    marks ' ' (x.spelling ++ cs) =
      if x.sign.isSome then .operator :: marks ' ' cs
      else marks ' ' (cs.dropWhile Token.continuesWord) := by
  obtain ⟨marker, sign, digits⟩ := x
  simp only [Exponent.isWellFormed, Bool.and_eq_true, Bool.or_eq_true, decide_eq_true_eq,
    or_assoc] at h
  obtain ⟨⟨⟨hmarker, hsign⟩, -⟩, hdigits⟩ := h
  have hstarts : Token.startsWord marker = true := by
    rcases hmarker with rfl | rfl <;> rfl
  have hnokeyword (w : List Char) : Keyword.ofWord? (String.ofList (marker :: w)) = none := by
    refine List.find?_eq_none.mpr fun k _ => ?_
    rw [decide_eq_true_eq]
    intro heq
    have heq := congrArg String.toList heq
    rw [String.toList_ofList] at heq
    rcases hmarker with rfl | rfl <;> cases k <;> cases heq
  have hsigned {c : Char} (hc : c = '+' ∨ c = '-') :
      marks ' ' ((c :: (digits ++ cs)).dropWhile Token.continuesWord)
        = .operator :: marks ' ' cs := by
    have hkept : (c :: (digits ++ cs)).dropWhile Token.continuesWord = c :: (digits ++ cs) := by
      rcases hc with rfl | rfl <;> rfl
    have hcount : marks ' ' (c :: (digits ++ cs)) = markOf ' ' c ++ marks ' ' (digits ++ cs) := by
      rcases hc with rfl | rfl <;>
        exact marks_cons_of_unjoined rfl rfl (by decide) (.of_not (by decide) rfl)
    rw [hkept, hcount, marks_digits hdigits]
    rcases hc with rfl | rfl <;> rfl
  have hcontinues : ∀ d ∈ digits, Token.continuesWord d = true :=
    fun d hd => continuesWord_of_isDigit (List.all_eq_true.mp hdigits d hd)
  show marks ' ' (marker :: (sign.toList ++ digits ++ cs)) = _
  rw [marks_cons_word hstarts, hnokeyword]
  rcases hsign with rfl | rfl | rfl
  · show marks ' ' ((digits ++ cs).dropWhile Token.continuesWord) = _
    rw [List.dropWhile_append_of_pos hcontinues]
    rfl
  · exact hsigned (.inl rfl)
  · exact hsigned (.inr rfl)

end Nesting

end Reckoner
