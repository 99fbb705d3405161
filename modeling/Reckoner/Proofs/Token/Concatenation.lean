import Reckoner.Proofs.Nesting.Marks

/-!
# Reading texts that are put together

A text that consists of tokens is read in the same way when another text follows, if the
other one begins with no character that could join it to the last token (`list?_append`).
No such character follows a literal, a quoted text, a word or a sign when it is a blank,
a comma, a quote or a bracket.
-/

namespace Reckoner

/-- The characters that a token before them might take for a part of its own. -/
def mayContinue (c : Char) : Bool :=
  Token.continuesWord c || c = '.' || c = '*' || c = '=' || c = '+' || c = '-'

theorem ne_of_mayContinue {c d : Char} (hc : mayContinue c = false) (hd : mayContinue d = true) :
    c ≠ d := by
  rintro rfl
  rw [hd] at hc
  cases hc

namespace EndsRun

variable {p : Char → Bool} {rest : List Char}

/-- A run ends in the text before it ends at the text behind. -/
theorem takeWhile_before (h : EndsRun p rest) (cs : List Char) :
    (cs ++ rest).takeWhile p = cs.takeWhile p := by
  induction cs with
  | nil => exact h.takeWhile_eq
  | cons c cs ih =>
    rw [List.cons_append, List.takeWhile_cons, List.takeWhile_cons, ih]

theorem dropWhile_before (h : EndsRun p rest) (cs : List Char) :
    (cs ++ rest).dropWhile p = cs.dropWhile p ++ rest := by
  induction cs with
  | nil => exact h.dropWhile_eq
  | cons c cs ih =>
    rw [List.cons_append, List.dropWhile_cons, List.dropWhile_cons, ih]
    split <;> rfl

theorem isDigit (h : EndsRun mayContinue rest) : EndsRun Char.isDigit rest :=
  h.mono fun c hc => by simp [mayContinue, Token.continuesWord, Char.isAlphanum, hc]

end EndsRun

variable {rest : List Char}

/-! ### Literals -/

namespace Exponent

theorem readSign_of_ne {c : Char} (hplus : c ≠ '+') (hminus : c ≠ '-') (cs : List Char) :
    readSign (c :: cs) = (none, c :: cs) := by
  simp [readSign, hplus, hminus]

theorem readSign_before (h : EndsRun mayContinue rest) (cs : List Char) :
    readSign (cs ++ rest) = ((readSign cs).1, (readSign cs).2 ++ rest) := by
  cases cs with
  | nil =>
    cases rest with
    | nil => rfl
    | cons c rest =>
      have hc := EndsRun.cons_iff.mp h
      exact readSign_of_ne (ne_of_mayContinue hc rfl) (ne_of_mayContinue hc rfl) rest
  | cons c cs =>
    by_cases hplus : c = '+'
    · subst hplus
      rfl
    by_cases hminus : c = '-'
    · subst hminus
      rfl
    rw [List.cons_append, readSign_of_ne hplus hminus, readSign_of_ne hplus hminus]
    rfl

theorem read?_before (h : EndsRun mayContinue rest) (cs : List Char) :
    read? (cs ++ rest) = (read? cs).map fun (x, after) => (x, after ++ rest) := by
  cases cs with
  | nil =>
    refine read?_eq_none (h.mono fun c hc => ?_)
    simp only [Bool.or_eq_true, decide_eq_true_eq] at hc
    rcases hc with rfl | rfl <;> rfl
  | cons c cs =>
    simp only [List.cons_append, read?, readSign_before h, h.isDigit.takeWhile_before,
      h.isDigit.dropWhile_before]
    split
    · cases (readSign cs).2.takeWhile Char.isDigit <;> rfl
    · rfl

end Exponent

namespace Numeral

theorem withExponent_before (h : EndsRun mayContinue rest) (whole : List Char)
    (fraction : Option (List Char)) (cs : List Char) :
    withExponent whole fraction (cs ++ rest) =
      ((withExponent whole fraction cs).1, (withExponent whole fraction cs).2 ++ rest) := by
  unfold withExponent
  rw [Exponent.read?_before h]
  cases Exponent.read? cs <;> rfl

theorem read?_point {cs after : List Char} (h : cs.dropWhile Char.isDigit = '.' :: after) :
    read? cs =
      if cs.takeWhile Char.isDigit = [] ∧ after.takeWhile Char.isDigit = [] then none
      else some (withExponent (cs.takeWhile Char.isDigit) (some (after.takeWhile Char.isDigit))
        (after.dropWhile Char.isDigit)) := by
  simp only [read?, h]

theorem read?_whole {cs : List Char} (h : ∀ after, cs.dropWhile Char.isDigit ≠ '.' :: after) :
    read? cs =
      if cs.takeWhile Char.isDigit = [] then none
      else some (withExponent (cs.takeWhile Char.isDigit) none (cs.dropWhile Char.isDigit)) := by
  unfold read?
  split
  · rename_i after hd
    exact (h after hd).elim
  · rfl

theorem read?_before (h : EndsRun mayContinue rest) (cs : List Char) :
    read? (cs ++ rest) = (read? cs).map fun (n, after) => (n, after ++ rest) := by
  have htake := h.isDigit.takeWhile_before
  have hdrop := h.isDigit.dropWhile_before
  by_cases hpoint : ∃ after, cs.dropWhile Char.isDigit = '.' :: after
  · obtain ⟨after, hd⟩ := hpoint
    have hd' : (cs ++ rest).dropWhile Char.isDigit = '.' :: (after ++ rest) := by
      rw [hdrop, hd, List.cons_append]
    rw [read?_point hd, read?_point hd', htake, htake, hdrop, withExponent_before h]
    split <;> rfl
  · have hd : ∀ after, cs.dropWhile Char.isDigit ≠ '.' :: after :=
      fun after hafter => hpoint ⟨after, hafter⟩
    have hd' : ∀ after, (cs ++ rest).dropWhile Char.isDigit ≠ '.' :: after := by
      intro after hafter
      rw [hdrop] at hafter
      cases hcs : cs.dropWhile Char.isDigit with
      | nil =>
        rw [hcs, List.nil_append] at hafter
        rw [hafter] at h
        cases EndsRun.cons_iff.mp h
      | cons c ds =>
        rw [hcs] at hafter
        obtain ⟨rfl, -⟩ := List.cons.inj hafter
        exact hd ds hcs
    rw [read?_whole hd, read?_whole hd', htake, hdrop, withExponent_before h]
    split <;> rfl

end Numeral

/-! ### Tokens -/

theorem Symbol.read?_before {cs after : List Char} {s : Symbol} (h : EndsRun mayContinue rest)
    (hs : read? cs = some (s, after)) : read? (cs ++ rest) = some (s, after ++ rest) := by
  match cs with
  | [] => cases hs
  | [c] =>
    obtain ⟨s, hc, heq⟩ := Option.map_eq_some_iff.mp hs
    cases heq
    cases rest with
    | nil => exact hs
    | cons d rest =>
      have hd := EndsRun.cons_iff.mp h
      have hnone := ofChars?_eq_none (c := c) (ne_of_mayContinue hd (d := '*') rfl)
        (ne_of_mayContinue hd (d := '=') rfl)
      simp [read?, hnone, hc]
  | c :: d :: cs =>
    simp only [read?, List.cons_append] at hs ⊢
    split at hs
    · cases hs
      rfl
    · obtain ⟨s, hc, heq⟩ := Option.map_eq_some_iff.mp hs
      cases heq
      rw [hc]
      rfl

namespace Token

/-- A text that is closed is read no further than its quote. -/
theorem takeWhile_dropWhile_append {p : Char → Bool} {cs after : List Char} {d : Char}
    (hd : cs.dropWhile p = d :: after) (rest : List Char) :
    (cs ++ rest).takeWhile p = cs.takeWhile p ∧
      (cs ++ rest).dropWhile p = d :: (after ++ rest) := by
  have hlength := congrArg List.length (List.takeWhile_append_dropWhile (p := p) (l := cs))
  rw [hd, List.length_append, List.length_cons] at hlength
  constructor
  · rw [List.takeWhile_append, if_neg (by omega)]
  · rw [List.dropWhile_append, hd]
    rfl

theorem read?_before {cs after : List Char} {t : Token} (h : EndsRun mayContinue rest)
    (ht : read? cs = some (t, after)) : read? (cs ++ rest) = some (t, after ++ rest) := by
  have hword : EndsRun continuesWord rest := h.mono fun c hc => by simp [mayContinue, hc]
  unfold read? at ht ⊢
  rw [Numeral.read?_before h]
  cases hn : Numeral.read? cs with
  | some r =>
    rw [hn] at ht
    cases ht
    rfl
  | none =>
    rw [hn] at ht
    cases cs with
    | nil => cases ht
    | cons c cs =>
      simp only [List.cons_append, Option.map_none, hword.takeWhile_before,
        hword.dropWhile_before] at ht ⊢
      split at ht
      · rename_i hc
        cases ht
        rw [if_pos hc]
      rename_i hc
      rw [if_neg hc]
      split at ht
      · rename_i hq
        rw [if_pos hq]
        split at ht
        · cases ht
        · rename_i d after hd
          cases ht
          obtain ⟨htake, hdrop⟩ := takeWhile_dropWhile_append hd rest
          rw [hdrop, htake]
      · rename_i hq
        rw [if_neg hq]
        obtain ⟨⟨s, after⟩, hs, heq⟩ := Option.map_eq_some_iff.mp ht
        cases heq
        rw [← List.cons_append, Symbol.read?_before h hs]
        rfl

/-- Blanks in front of a text change no tokens. -/
theorem list?_dropWhile (cs : List Char) : list? (cs.dropWhile isBlank) = list? cs := by
  have hidem : (cs.dropWhile isBlank).dropWhile isBlank = cs.dropWhile isBlank :=
    (EndsRun.dropWhile isBlank cs).dropWhile_eq
  cases hd : cs.dropWhile isBlank with
  | nil => rw [list?_blank hd, list?_blank rfl]
  | cons c rest =>
    rw [hd] at hidem
    cases hr : read? (c :: rest) with
    | none =>
      have hnone {ds : List Char} (h : ds.dropWhile isBlank = c :: rest) : list? ds = none :=
        list?_none (by rw [h]; simp) (by rwa [h])
      rw [hnone hidem, hnone hd]
    | some r =>
      have hcons {ds : List Char} (h : ds.dropWhile isBlank = c :: rest) :
          list? ds = (list? r.2).map (r.1 :: ·) :=
        list?_cons (by rwa [h])
      rw [hcons hidem, hcons hd]

theorem list?_append_of_all_isBlank {bs : List Char} (hbs : bs.all isBlank = true)
    (cs : List Char) : list? (bs ++ cs) = list? cs := by
  rw [← list?_dropWhile, List.dropWhile_append_of_pos (List.all_eq_true.mp hbs), list?_dropWhile]

/-- The tokens of a text are read in the same way when another text follows. -/
theorem list?_append {cs : List Char} {ts : List Token} (h : EndsRun mayContinue rest)
    (hts : list? cs = some ts) : list? (cs ++ rest) = (list? rest).map (ts ++ ·) := by
  fun_induction list? cs generalizing ts with
  | case1 cs hd =>
    cases hts
    have hbs : cs.all isBlank = true := by
      have := List.takeWhile_append_dropWhile (p := isBlank) (l := cs)
      rw [hd, List.append_nil] at this
      exact this ▸ List.all_takeWhile
    rw [list?_append_of_all_isBlank hbs]
    simp
  | case2 => cases hts
  | case3 cs c after hd t rest' hr ih =>
    obtain ⟨us, hus, rfl⟩ := Option.map_eq_some_iff.mp hts
    obtain ⟨-, hdrop⟩ := takeWhile_dropWhile_append hd rest
    have hread : read? ((cs ++ rest).dropWhile isBlank) = some (t, rest' ++ rest) := by
      rw [hdrop]
      exact read?_before h hr
    rw [list?_cons hread, ih hus, Option.map_map]
    rfl

/-- A sign that joins nothing is read alone, whatever follows. -/
theorem list?_symbol {s : Symbol} (hjoins : s.joins = false) (hdot : s ≠ .dot) (cs : List Char) :
    list? (s.spelling ++ cs) = (list? cs).map (.symbol s :: ·) := by
  have hread : Symbol.read? (s.spelling ++ cs) = some (s, cs) := by
    cases s <;> first | contradiction | cases cs <;> rfl
  obtain ⟨c, hc, hb, hd, hp, hw, hq⟩ : ∃ c, s.spelling = [c] ∧ isBlank c = false ∧
      c.isDigit = false ∧ c ≠ '.' ∧ startsWord c = false ∧ isQuote c = false := by
    cases s <;> first | contradiction | exact ⟨_, rfl, rfl, rfl, by decide, rfl, rfl⟩
  rw [hc, List.singleton_append] at hread ⊢
  refine list?_cons ?_
  rw [(EndsRun.cons_iff.mpr hb).dropWhile_eq]
  unfold read?
  rw [Numeral.read?_eq_none hd hp]
  simp only [hw, hq, Bool.false_eq_true, if_false, hread, Option.map_some]

end Token

end Reckoner
