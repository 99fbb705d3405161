import Reckoner.Text.Caret
import Reckoner.Proofs.Nesting.Cover

/-!
# Typing tokens

The tokens of a text are read after every caret has become the two stars of a power
sign. A caret can only stand for a whole power sign, or in a quoted text: so a text
without quoted texts consists of blanks and of the spellings of its tokens, with a caret
for some of the power signs (`Typed`).
-/

namespace Reckoner

theorem Text.eq_nil_of_expandCarets_eq_nil {cs : List Char} (h : expandCarets cs = []) :
    cs = [] := by
  cases cs with
  | nil => rfl
  | cons c cs =>
    by_cases hc : c = '^'
    · subst hc
      cases h
    · rw [expandCarets_cons hc] at h
      cases h

/-- What has no star stood there before the carets were rewritten. -/
theorem Text.exists_of_expandCarets_eq_append {cs ds rest : List Char}
    (h : expandCarets cs = ds ++ rest) (hds : '*' ∉ ds) :
    ∃ cs', cs = ds ++ cs' ∧ expandCarets cs' = rest := by
  induction ds generalizing cs with
  | nil => exact ⟨cs, rfl, h⟩
  | cons d ds ih =>
    simp only [List.mem_cons, not_or] at hds
    cases cs with
    | nil => cases h
    | cons c cs =>
      by_cases hc : c = '^'
      · subst hc
        exact absurd (List.cons.inj h).1 hds.1
      · rw [expandCarets_cons hc] at h
        obtain ⟨rfl, hcs⟩ := List.cons.inj h
        obtain ⟨cs', rfl, hrest⟩ := ih hcs hds.2
        exact ⟨cs', rfl, hrest⟩

namespace Token

/-- The characters are typed for the token: its spelling, or a caret for a power sign. -/
inductive Types : List Char → Token → Prop
  | spelling {sp : List Char} {t : Token} (h : Spells sp t) : Types sp t
  | caret : Types ['^'] (.symbol .power)

/-- The text consists of what is typed for the tokens, in order, and of blanks around it. -/
inductive Typed : List Char → List Token → Prop
  | blank {bs : List Char} (hbs : bs.all isBlank = true) : Typed bs []
  | cons {bs sp cs : List Char} {t : Token} {ts : List Token} (hbs : bs.all isBlank = true)
      (hsp : Types sp t) (rest : Typed cs ts) : Typed (bs ++ (sp ++ cs)) (t :: ts)

/-- Whether the token is a quoted text. -/
def isText : Token → Bool
  | .text _ => true
  | _ => false

end Token

/-- A literal is spelled with digits, a point, the marker of an exponent and a sign. -/
theorem Numeral.mem_spelling {n : Numeral} (hn : n.isWellFormed = true) {c : Char}
    (hc : c ∈ n.spelling) : c.isDigit = true ∨ c ∈ ['.', 'e', 'E', '+', '-'] := by
  obtain ⟨whole, fraction, exponent⟩ := n
  simp only [isWellFormed, Bool.and_eq_true, List.all_eq_true] at hn
  obtain ⟨⟨⟨hwhole, hfraction⟩, -⟩, hexponent⟩ := hn
  rw [spelling_eq] at hc
  rcases List.mem_append.mp hc with hc | hc
  · rcases List.mem_append.mp hc with hc | hc
    · exact .inl (hwhole c hc)
    · cases fraction with
      | none => cases hc
      | some ds =>
        rcases List.mem_cons.mp hc with rfl | hc
        · exact .inr (by decide)
        · exact .inl (hfraction c hc)
  · cases exponent with
    | none => cases hc
    | some x =>
      obtain ⟨marker, sign, digits⟩ := x
      simp only [Option.all_some, Exponent.isWellFormed, Bool.and_eq_true, Bool.or_eq_true,
        decide_eq_true_eq, List.all_eq_true] at hexponent
      obtain ⟨⟨⟨hmarker, hsign⟩, -⟩, hdigits⟩ := hexponent
      rcases List.mem_cons.mp hc with rfl | hc
      · rcases hmarker with rfl | rfl <;> exact .inr (by decide)
      · rcases List.mem_append.mp hc with hc | hc
        · rcases hsign with (rfl | rfl) | rfl
          · cases hc
          · obtain rfl := List.mem_singleton.mp hc
            exact .inr (by decide)
          · obtain rfl := List.mem_singleton.mp hc
            exact .inr (by decide)
        · exact .inl (hdigits c hc)

namespace Token

theorem Spells.star_notMem {sp : List Char} {t : Token} (h : Spells sp t)
    (htext : t.isText = false) (hstar : t ≠ .symbol .star) (hpower : t ≠ .symbol .power) :
    '*' ∉ sp := by
  cases h with
  | number hn =>
    intro hmem
    rcases Numeral.mem_spelling hn hmem with h | h <;> revert h <;> decide
  | text => cases htext
  | name hid =>
    obtain ⟨c, cs, heq, hc, hcs, -⟩ := exists_cons_of_isName hid
    rw [heq]
    intro hmem
    rcases List.mem_cons.mp hmem with rfl | hmem
    · exact absurd hc (by decide)
    · exact absurd (List.all_eq_true.mp hcs _ hmem) (by decide)
  | keyword k => cases k <;> decide
  | symbol s => cases s <;> first | decide | contradiction

/-- What a star is made of before the carets are rewritten. -/
theorem expandCarets_eq_star {cs rest : List Char} (h : Text.expandCarets cs = '*' :: rest) :
    (∃ cs', cs = '*' :: cs' ∧ Text.expandCarets cs' = rest) ∨
      ∃ cs', cs = '^' :: cs' ∧ rest = '*' :: Text.expandCarets cs' := by
  cases cs with
  | nil => cases h
  | cons c cs =>
    by_cases hc : c = '^'
    · subst hc
      exact .inr ⟨cs, rfl, (List.cons.inj h).2.symm⟩
    · rw [Text.expandCarets_cons hc] at h
      obtain ⟨rfl, hcs⟩ := List.cons.inj h
      exact .inl ⟨cs, rfl, hcs⟩

/-- What was read as a token was typed for it, if the token is told apart from what follows. -/
theorem exists_types {cs sp rest : List Char} {t : Token} (hsp : Spells sp t)
    (htext : t.isText = false)
    (hrest : t = .symbol .star ∨ t = .symbol .power → Nesting.Detached rest)
    (h : Text.expandCarets cs = sp ++ rest) :
    ∃ w cs', cs = w ++ cs' ∧ Types w t ∧ Text.expandCarets cs' = rest := by
  have hapart (ht : t = .symbol .star ∨ t = .symbol .power) (ds : List Char) :
      rest ≠ '*' :: ds := by
    rintro rfl
    exact absurd (EndsRun.cons_iff.mp (hrest ht)) (by decide)
  by_cases hstar : t = .symbol .star
  · subst hstar
    cases hsp
    obtain ⟨cs', rfl, hcs⟩ | ⟨cs', rfl, hcs⟩ := expandCarets_eq_star h
    · exact ⟨['*'], cs', rfl, .spelling (.symbol .star), hcs⟩
    · exact (hapart (.inl rfl) _ hcs).elim
  by_cases hpower : t = .symbol .power
  · subst hpower
    cases hsp
    obtain ⟨cs', rfl, hcs⟩ | ⟨cs', rfl, hcs⟩ := expandCarets_eq_star h
    · -- the second star is not half of a caret, whose other half would follow the sign
      obtain ⟨cs'', rfl, hcs'⟩ | ⟨cs'', rfl, hcs'⟩ := expandCarets_eq_star hcs
      · exact ⟨['*', '*'], cs'', rfl, .spelling (.symbol .power), hcs'⟩
      · exact (hapart (.inr rfl) _ hcs').elim
    · exact ⟨['^'], cs', rfl, .caret, (List.cons.inj hcs).2.symm⟩
  · obtain ⟨cs', rfl, hcs⟩ :=
      Text.exists_of_expandCarets_eq_append h (hsp.star_notMem htext hstar hpower)
    exact ⟨sp, cs', rfl, .spelling hsp, hcs⟩

theorem star_notMem_of_all_isBlank {bs : List Char} (h : bs.all isBlank = true) : '*' ∉ bs :=
  fun hmem => absurd (List.all_eq_true.mp h _ hmem) (by decide)

theorem typed_of_spaced {cs ds : List Char} {ts : List Token} (h : Spaced ds ts)
    (hjoined : joined ts = true) (htext : ∀ t ∈ ts, t.isText = false)
    (hcs : Text.expandCarets cs = ds) : Typed cs ts := by
  induction h generalizing cs with
  | @blank bs hbs =>
    rw [← List.append_nil bs] at hcs
    obtain ⟨cs', rfl, hcs'⟩ :=
      Text.exists_of_expandCarets_eq_append hcs (star_notMem_of_all_isBlank hbs)
    rw [Text.eq_nil_of_expandCarets_eq_nil hcs', List.append_nil]
    exact .blank hbs
  | @cons bs sp rest t ts hbs hsp hspaced ih =>
    obtain ⟨hadmits, hjoined⟩ := Bool.and_eq_true_iff.mp hjoined
    obtain ⟨ht, htext⟩ := List.forall_mem_cons.mp htext
    obtain ⟨cs', rfl, hcs'⟩ :=
      Text.exists_of_expandCarets_eq_append hcs (star_notMem_of_all_isBlank hbs)
    have hdetached (h : t = .symbol .star ∨ t = .symbol .power) : Nesting.Detached rest := by
      refine hspaced.detached ?_
      rcases h with rfl | rfl <;> simpa [admits, Symbol.joins] using hadmits
    obtain ⟨w, cs'', rfl, hw, hcs''⟩ := exists_types hsp ht hdetached hcs'
    exact .cons hbs hw (ih hjoined htext hcs'')

/-- A text that is read as tokens without quoted ones consists of what is typed for them. -/
theorem typed_of_list? {cs : List Char} {ts : List Token}
    (h : list? (Text.expandCarets cs) = some ts) (hjoined : joined ts = true)
    (htext : ∀ t ∈ ts, t.isText = false) : Typed cs ts :=
  typed_of_spaced (spaced_of_list? h) hjoined htext rfl

end Token

end Reckoner
