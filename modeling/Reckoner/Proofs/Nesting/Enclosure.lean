import Reckoner.Proofs.Token.Concatenation
import Reckoner.Proofs.Token.Typing

/-!
# Enclosed texts

A text in parentheses can be a part of a longer text. The scan finds the same marks for
the part as for the text alone, since no quote is open before it (`marks_append`), and
the brackets in it match, so that the level the parentheses make is at least what the
whole text alone comes to. The bound of the longer text is no less than that of the part
(`bound_le_of_enclosed`).
-/

namespace Reckoner.Nesting

open Token (Spells Spaced list?)

/-! ### Open quotes -/

/-- The quote that is open behind a character, given the one before it. -/
def quoteStep (q : Option Char) (c : Char) : Option Char :=
  match q with
  | none => if Token.isQuote c then some c else none
  | some d => if c = d then none else some d

/-- The quote that is open behind a text, given the one before it. -/
def openQuote (q : Option Char) (cs : List Char) : Option Char := cs.foldl quoteStep q

@[simp] theorem openQuote_nil (q : Option Char) : openQuote q [] = q := rfl

@[simp] theorem openQuote_cons (q : Option Char) (c : Char) (cs : List Char) :
    openQuote q (c :: cs) = openQuote (quoteStep q c) cs := rfl

theorem openQuote_append (q : Option Char) (cs ds : List Char) :
    openQuote q (cs ++ ds) = openQuote (openQuote q cs) ds :=
  List.foldl_append

theorem openQuote_eq_none {cs : List Char} (h : ∀ c ∈ cs, Token.isQuote c = false) :
    openQuote none cs = none := by
  induction cs with
  | nil => rfl
  | cons c cs ih =>
    obtain ⟨hc, hcs⟩ := List.forall_mem_cons.mp h
    rw [openQuote_cons, quoteStep, hc, if_neg Bool.false_ne_true, ih hcs]

/-- An open quote is closed by the next one like it. -/
theorem openQuote_some {q : Char} {cs : List Char} (h : openQuote (some q) cs = none) :
    ∃ after, cs.dropWhile (· ≠ q) = q :: after ∧ openQuote none after = none := by
  induction cs with
  | nil => cases h
  | cons c cs ih =>
    by_cases hc : c = q
    · subst hc
      refine ⟨cs, by simp, ?_⟩
      simpa [quoteStep] using h
    · have : openQuote (some q) cs = none := by simpa [quoteStep, hc] using h
      obtain ⟨after, hafter, hclosed⟩ := ih this
      exact ⟨after, by simpa [hc] using hafter, hclosed⟩

theorem openQuote_dropWhile {p : Char → Bool} (hp : ∀ c, p c = true → Token.isQuote c = false)
    {cs : List Char} (h : openQuote none cs = none) : openQuote none (cs.dropWhile p) = none := by
  have hsplit := List.takeWhile_append_dropWhile (p := p) (l := cs)
  have htake : openQuote none (cs.takeWhile p) = none :=
    openQuote_eq_none fun c hc => hp c (List.all_eq_true.mp List.all_takeWhile c hc)
  rw [← hsplit, openQuote_append, htake] at h
  exact h

theorem openQuote_of_notMem {q : Char} {cs : List Char} (h : q ∉ cs) :
    openQuote (some q) cs = some q := by
  induction cs with
  | nil => rfl
  | cons c cs ih =>
    simp only [List.mem_cons, not_or] at h
    rw [openQuote_cons, quoteStep, if_neg fun hc => h.1 hc.symm, ih h.2]

/-- A kind of characters without the two quotes. -/
theorem not_isQuote_of {p : Char → Bool} (hsingle : p '\'' = false) (hdouble : p '"' = false)
    {c : Char} (h : p c = true) : Token.isQuote c = false := by
  rw [Bool.eq_false_iff]
  intro hq
  simp only [Token.isQuote, Bool.or_eq_true, decide_eq_true_eq] at hq
  rcases hq with rfl | rfl
  · rw [hsingle] at h
    cases h
  · rw [hdouble] at h
    cases h

theorem not_isQuote_of_continuesWord {c : Char} (h : Token.continuesWord c = true) :
    Token.isQuote c = false :=
  not_isQuote_of (by decide) (by decide) h

theorem not_isQuote_of_isWhite {c : Char} (h : Text.isWhite c = true) : Token.isQuote c = false :=
  not_isQuote_of (by decide) (by decide) h

/-- Only a quoted text has quotes in it. -/
theorem not_isQuote_of_spells {sp : List Char} {t : Token} (h : Spells sp t)
    (ht : t.isText = false) {c : Char} (hc : c ∈ sp) : Token.isQuote c = false := by
  cases h with
  | number hn =>
    rcases Numeral.mem_spelling hn hc with hdigit | hc
    · exact not_isQuote_of_continuesWord (continuesWord_of_isDigit hdigit)
    · simp only [List.mem_cons, List.not_mem_nil, or_false] at hc
      rcases hc with rfl | rfl | rfl | rfl | rfl <;> rfl
  | text => cases ht
  | name hid =>
    obtain ⟨d, w, heq, hd, hw, -⟩ := Token.exists_cons_of_isName hid
    have hd : Token.continuesWord d = true := by
      simp only [Token.startsWord, Token.continuesWord, Char.isAlphanum, Bool.or_eq_true] at hd ⊢
      exact hd.imp_left .inl
    refine not_isQuote_of_continuesWord ?_
    rcases List.mem_cons.mp (heq ▸ hc) with rfl | hc
    · exact hd
    · exact List.all_eq_true.mp hw c hc
  | keyword k =>
    have hall : k.spelling.toList.all (!Token.isQuote ·) = true := by
      cases k <;> rfl
    simpa using List.all_eq_true.mp hall c hc
  | symbol s =>
    have hall : s.spelling.all (!Token.isQuote ·) = true := by
      cases s <;> rfl
    simpa using List.all_eq_true.mp hall c hc

theorem openQuote_spells {sp : List Char} {t : Token} (h : Spells sp t) :
    openQuote none sp = none := by
  cases ht : t.isText with
  | false => exact openQuote_eq_none fun c hc => not_isQuote_of_spells h ht hc
  | true =>
    cases h with
    | text hq hbody =>
      rw [openQuote_cons, quoteStep, hq, if_pos rfl, openQuote_append, openQuote_of_notMem hbody]
      simp [quoteStep]
    | _ => cases ht

theorem openQuote_of_spaced {cs : List Char} {ts : List Token} (h : Spaced cs ts) :
    openQuote none cs = none := by
  have hblanks {bs : List Char} (hbs : bs.all Token.isBlank = true) : openQuote none bs = none :=
    openQuote_eq_none fun c hc =>
      not_isQuote_of_isWhite (Token.isWhite_of_isBlank (List.all_eq_true.mp hbs c hc))
  induction h with
  | blank hbs => exact hblanks hbs
  | cons hbs hsp _ ih =>
    rw [openQuote_append, hblanks hbs, openQuote_append, openQuote_spells hsp, ih]

/-- No quote is open behind a text that consists of tokens. -/
theorem openQuote_of_list? {cs : List Char} {ts : List Token} (h : list? cs = some ts) :
    openQuote none cs = none :=
  openQuote_of_spaced (Token.spaced_of_list? h)

/-! ### The marks before a parenthesis -/

theorem marks_paren {b : Char} (hb : b = '(' ∨ b = ')') (previous : Char) (ds : List Char) :
    marks previous (b :: ds) = markOf ' ' b ++ marks ' ' ds := by
  rcases hb with rfl | rfl <;>
  · rw [marks, if_neg (by decide), if_neg (by decide), if_neg (by decide),
      marks_eq_of_unjoined (.of_not (by decide) rfl)]
    rfl

/-- The scan finds the marks of a text, of a parenthesis behind it and of what follows. -/
theorem marks_append {b : Char} (hb : b = '(' ∨ b = ')') {previous : Char} {cs : List Char}
    (h : openQuote none cs = none) (ds : List Char) :
    marks previous (cs ++ b :: ds) = marks previous cs ++ (markOf ' ' b ++ marks ' ' ds) := by
  have hword : EndsRun Token.continuesWord (b :: ds) := by
    rcases hb with rfl | rfl <;> exact EndsRun.cons_iff.mpr rfl
  have hwhite : EndsRun Text.isWhite (b :: ds) := by
    rcases hb with rfl | rfl <;> exact EndsRun.cons_iff.mpr rfl
  fun_induction marks previous cs with
  | case1 previous => exact marks_paren hb previous ds
  | case2 previous c cs hq ih =>
    have hsome : openQuote (some c) cs = none := by simpa [quoteStep, hq] using h
    obtain ⟨after, hafter, hclosed⟩ := openQuote_some hsome
    obtain ⟨-, hdrop⟩ := Token.takeWhile_dropWhile_append hafter (b :: ds)
    rw [hafter, List.tail_cons] at ih
    rw [List.cons_append, marks, if_pos hq, hdrop, List.tail_cons, ih hclosed, hafter,
      List.tail_cons]
  | case3 previous c cs hq hw ih =>
    have hclosed : openQuote none cs = none := by simpa [quoteStep, hq] using h
    have := openQuote_dropWhile (fun d hd => not_isQuote_of_continuesWord hd) hclosed
    rw [List.cons_append, marks, if_neg hq, if_pos hw, hword.takeWhile_before,
      hword.dropWhile_before, ih this, List.append_assoc]
  | case4 previous cs hq hw ih =>
    have hclosed : openQuote none cs = none := by simpa [quoteStep, hq] using h
    have hwhite_closed := openQuote_dropWhile (fun d hd => not_isQuote_of_isWhite hd) hclosed
    have hname (es : List Char) : nameFollows (es ++ b :: ds) = nameFollows es := by
      cases es with
      | nil => rcases hb with rfl | rfl <;> rfl
      | cons e es => rfl
    rw [List.cons_append, marks, if_neg hq, if_neg hw, if_pos rfl, hwhite.dropWhile_before, hname,
      ih hwhite_closed, List.append_assoc]
  | case5 previous c cs hq hw hp ih =>
    have hclosed : openQuote none cs = none := by simpa [quoteStep, hq] using h
    rw [List.cons_append, marks, if_neg hq, if_neg hw, if_neg hp, ih hclosed, List.append_assoc]

/-! ### Matching brackets -/

/-- How many levels are open behind some marks, given how many are open before them. -/
def openLevels (n : Nat) : List Mark → Nat
  | [] => n
  | .opening :: ms => openLevels (n + 1) ms
  | .closing :: ms => openLevels (n - 1) ms
  | .operator :: ms => openLevels n ms

theorem Scan.length_enclosing_run (s : Scan) (ms : List Mark) :
    (s.run ms).enclosing.length = openLevels s.enclosing.length ms := by
  induction ms generalizing s with
  | nil => rfl
  | cons m ms ih =>
    rw [run_cons, ih]
    cases m with
    | opening => rfl
    | operator => rfl
    | closing =>
      obtain ⟨current, enclosing⟩ := s
      cases enclosing <;> rfl

theorem Covers.openLevels_eq {ns ms : List Mark} (h : Covers ns ms) (n : Nat) :
    openLevels n ns = openLevels n ms := by
  induction h generalizing n with
  | nil => rfl
  | cons m _ ih => cases m <;> exact ih _
  | operator _ ih => exact ih n

/-- The brackets in the text of a tree match. -/
theorem openLevels_marks {cs : List Char} {ts : List Token} {e : Expr} (hts : list? cs = some ts)
    (hw : Writes ts e) (n : Nat) : openLevels n (marks ' ' cs) = n := by
  rw [← (covers_marks hts hw.joined).1.openLevels_eq]
  have hlength := Scan.length_enclosing_run ⟨{}, List.replicate n {}⟩ (tokenMarks true false ts)
  have hadds := hw.adds true ⟨{}, List.replicate n {}⟩ []
  rw [List.append_nil, tokenMarks, Scan.run_nil] at hadds
  rw [hadds] at hlength
  simpa [Scan.add] using hlength.symm

/-- Levels that nothing closes are left as they are. -/
theorem Scan.run_frame {s : Scan} {ms : List Mark}
    (h : openLevels (s.enclosing.length + 1) ms = openLevels s.enclosing.length ms + 1)
    (ls : List Level) :
    run ⟨s.current, s.enclosing ++ ls⟩ ms = ⟨(s.run ms).current, (s.run ms).enclosing ++ ls⟩ := by
  induction ms generalizing s with
  | nil => rfl
  | cons m ms ih =>
    obtain ⟨current, enclosing⟩ := s
    cases m with
    | opening => exact ih (s := ⟨{}, current :: enclosing⟩) h
    | operator => exact ih (s := step ⟨current, enclosing⟩ .operator) h
    | closing =>
      cases enclosing with
      | nil =>
        simp [openLevels] at h
      | cons parent enclosing => exact ih (s := ⟨parent.enclose current, enclosing⟩) h

theorem Scan.bound_le_enclosing (current : Level) (enclosing ls : List Level) :
    Scan.bound ⟨current, enclosing⟩ ≤ Scan.bound ⟨current, enclosing ++ ls⟩ := by
  have hclosed : closed current (enclosing ++ ls) = closed (closed current enclosing) ls :=
    List.foldl_append
  show (closed current enclosing).bound ≤ (closed current (enclosing ++ ls)).bound
  rw [hclosed]
  exact Nat.le_trans (Nat.le_add_right _ _) (closed_bound_ge _ ls)

/-- A text in parentheses is bounded by every text that it is a part of. -/
theorem bound_le_of_enclosed {pre cs : List Char} {ts : List Token} {e : Expr}
    (hpre : openQuote none pre = none) (hts : list? cs = some ts) (hw : Writes ts e)
    (rest : List Char) : bound cs ≤ bound (pre ++ '(' :: (cs ++ ')' :: rest)) := by
  have hmatch := openLevels_marks hts hw
  unfold bound
  rw [marks_append (.inl rfl) hpre, marks_append (.inr rfl) (openQuote_of_list? hts)]
  set ms := marks ' ' cs
  set s := Scan.run {} (marks ' ' pre)
  have hopen : Scan.run {} (marks ' ' pre ++ (markOf ' ' '(' ++ (ms ++ (markOf ' ' ')' ++
      marks ' ' rest)))) = ((s.step .opening).run ms).run (markOf ' ' ')' ++ marks ' ' rest) := by
    simp only [Scan.run_append]
    rfl
  have hframe : (s.step .opening).run ms = ⟨(Scan.run {} ms).current,
      (Scan.run {} ms).enclosing ++ s.current :: s.enclosing⟩ :=
    Scan.run_frame (s := {}) ((hmatch 1).trans (congrArg (· + 1) (hmatch 0).symm)) _
  calc (Scan.run {} ms).bound
      ≤ ((s.step .opening).run ms).bound := by
        rw [hframe]
        exact Scan.bound_le_enclosing _ _ _
    _ ≤ _ := by
        rw [hopen]
        exact Scan.bound_le_run _ _

end Reckoner.Nesting
