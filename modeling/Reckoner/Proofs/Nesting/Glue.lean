import Reckoner.Proofs.Expr.Rendering
import Reckoner.Proofs.Grammar.Numbers
import Reckoner.Proofs.Nesting.Cover

/-!
# A text in which keywords are hidden

The bound of the charge is reached. Every canonical tree is written with an exponent in
each number literal and with the keywords behind literals glued to them, as in `1e0and 2`.
The scan takes such a keyword for a part of the exponent, so the marks of this text are
those of the tokens without it.
-/

namespace Reckoner

/-! ### Other literals with the same values -/

/-- Other literals with the same values write the same tree. -/
theorem Writes.respelled {f : Numeral → Numeral} (hf : ∀ n, (f n).value = n.value)
    {ts : List Token} {e : Expr} (h : Writes ts e) : Writes (ts.map (Token.respelled f)) e := by
  have := h.mapNumbers (g := id) hf
  rwa [Expr.mapNumbers_id] at this

namespace Numeral

/-- The literal with the exponent `e0` if it has none. -/
def scaled (n : Numeral) : Numeral :=
  { n with exponent := some (n.exponent.getD ⟨'e', none, ['0']⟩) }

theorem value_scaled (n : Numeral) : n.scaled.value = n.value := by
  have hscale : n.scaled.scale = n.scale := by
    cases hx : n.exponent <;> simp [scale, scaled, hx, Exponent.value, Nat.ofDigitChars]
  have hcoefficient : n.scaled.coefficient = n.coefficient := rfl
  rw [value, value, hscale, hcoefficient]

theorem isWellFormed_scaled_ofFloat (x : Float) : (ofFloat x).scaled.isWellFormed = true := by
  have := isWellFormed_ofDecimal ((Decimal.ofFloat? x).getD ⟨0, 0⟩)
  simp only [isWellFormed, Bool.and_eq_true] at this ⊢
  exact ⟨this.1, by rfl⟩

end Numeral

/-! ### The glued text -/

/-- The spellings of the tokens with blanks behind them, but for literals before keywords. -/
def glued : List Token → List Char
  | [] => []
  | .number n :: .keyword k :: ts => n.spelling ++ (k.spelling.toList ++ ' ' :: glued ts)
  | t :: ts => t.spelling ++ ' ' :: glued ts

/-- Whether the token is spelled by its spelling, and if it is a literal it has an exponent without
a sign and no point before it. -/
def Token.Glues (t : Token) : Prop :=
  Spells t.spelling t ∧ ∀ n, t = .number n →
    n.fraction ≠ some [] ∧ ∃ x, n.exponent = some x ∧ x.sign = none

theorem list?_glued {bs : List Char} {ts : List Token} (hbs : bs.all Token.isBlank = true)
    (h : ∀ t ∈ ts, t.Glues) : Token.list? (bs ++ glued ts) = some ts := by
  have hblank {t : Token} {cs : List Char} : EndsRun t.continues (' ' :: cs) :=
    EndsRun.cons_iff.mpr (Token.not_continues_of_isBlank rfl)
  fun_induction glued ts generalizing bs with
  | case1 =>
    refine Token.list?_blank ?_
    rw [EndsRun.nil.dropWhile_append hbs]
  | case2 n k ts ih =>
    obtain ⟨hn, hrest⟩ := List.forall_mem_cons.mp h
    obtain ⟨hk, hts⟩ := List.forall_mem_cons.mp hrest
    have hends : EndsRun (Token.number n).continues (k.spelling.toList ++ ' ' :: glued ts) := by
      cases k <;> exact EndsRun.cons_iff.mpr rfl
    have htail : Token.list? (' ' :: glued ts) = some ts :=
      ih (show [' '].all Token.isBlank = true from rfl) hts
    have hkeyword :
        Token.list? (k.spelling.toList ++ ' ' :: glued ts) = some (.keyword k :: ts) := by
      refine (Token.list?_spelling List.all_nil hk.1 hblank).trans ?_
      rw [htail, Option.map_some]
    refine (Token.list?_spelling hbs hn.1 hends).trans ?_
    rw [hkeyword, Option.map_some]
  | case3 t ts hnot ih =>
    obtain ⟨ht, hts⟩ := List.forall_mem_cons.mp h
    have htail : Token.list? (' ' :: glued ts) = some ts :=
      ih (show [' '].all Token.isBlank = true from rfl) hts
    rw [Token.list?_spelling hbs ht.1 hblank, htail, Option.map_some]

namespace Nesting

/-- A literal that glues counts for nothing, and takes the rest of a word for its own. -/
theorem marks_number_of_glues {n : Numeral} (h : (Token.number n).Glues) (cs : List Char) :
    marks ' ' (n.spelling ++ cs) = marks ' ' (cs.dropWhile Token.continuesWord) := by
  obtain ⟨hspells, hglues⟩ := h
  obtain ⟨hfraction, x, hx, hsign⟩ := hglues n rfl
  have hn : n.isWellFormed = true := hspells.isWellFormed
  simp only [Numeral.isWellFormed, Bool.and_eq_true, hx, Option.all_some] at hn
  rw [Numeral.spelling_eq, List.append_assoc, List.append_assoc, marks_digits hn.1.1.1,
    marks_fraction hn.1.1.2, decide_eq_false hfraction, Bool.false_and, hx]
  show marks ' ' (x.spelling ++ cs) = _
  rw [marks_exponent hn.2, hsign]
  rfl

/-- The marks of the glued text are those of the tokens, but for the hidden keywords. -/
theorem marks_glued {ts : List Token} (h : ∀ t ∈ ts, t.Glues) (hj : joined ts = true) :
    marks ' ' (glued ts) = tokenMarks true false ts := by
  have hblank (cs : List Char) : marks ' ' (' ' :: cs) = marks ' ' cs :=
    marks_silent (isSilent_of_isWhite rfl)
  have hends {cs : List Char} : EndsRun Token.continuesWord (' ' :: cs) := EndsRun.cons_iff.mpr rfl
  fun_induction glued ts with
  | case1 => rw [marks, tokenMarks]
  | case2 n k ts ih =>
    obtain ⟨hn, hrest⟩ := List.forall_mem_cons.mp h
    obtain ⟨-, hts⟩ := List.forall_mem_cons.mp hrest
    have hword : k.spelling.toList.all Token.continuesWord = true := by
      cases k <;> rfl
    simp only [joined, Bool.and_eq_true] at hj
    -- the literal takes the keyword for its own up to the blank
    rw [marks_number_of_glues hn, hends.dropWhile_append hword, hblank, ih hts hj.2.2]
    rfl
  | case3 t ts hnot ih =>
    obtain ⟨ht, hts⟩ := List.forall_mem_cons.mp h
    obtain ⟨hadmits, hjoined⟩ := Bool.and_eq_true_iff.mp hj
    have htail := ih hts hjoined
    cases t with
    | number n =>
      show marks ' ' (n.spelling ++ ' ' :: glued ts) = tokenMarks true true ts
      rw [marks_number_of_glues ht, hends.dropWhile_eq, hblank, htail]
      cases ts with
      | nil => rfl
      | cons u us =>
        cases u with
        | keyword k => exact absurd rfl (hnot n k us rfl)
        | _ => rfl
    | text | name | keyword | symbol =>
      have hspaced : Token.Spaced (' ' :: glued ts) ts :=
        Token.spaced_of_list? (list?_glued (show [' '].all Token.isBlank = true from rfl) hts)
      rw [marks_spelling ht.1 rfl hadmits (fun _ => hends) hspaced, hblank, htail]
      rfl

/-- The literals of a tree glue, once they have exponents. -/
theorem glues_respelled_tokens {e : Expr} (he : e.spelled = true) :
    ∀ t ∈ e.tokens.map (Token.respelled Numeral.scaled), t.Glues := by
  rw [List.forall_mem_map]
  intro t ht
  have hspells := Expr.spells_tokens he t ht
  cases t with
  | number n =>
    obtain ⟨x, rfl⟩ := Expr.exists_ofFloat_of_mem_tokens e _ ht n rfl
    refine ⟨.number (Numeral.isWellFormed_scaled_ofFloat x), fun m hm => ?_⟩
    cases hm
    exact ⟨Numeral.fraction_ofDecimal_ne _, _, rfl, rfl⟩
  | text | name | keyword | symbol => exact ⟨hspells, fun n hn => by cases hn⟩

/-- The bound of the charge is that of a text. -/
theorem exists_bound_eq_charge {e : Expr} (he : e.canonical = true) :
    ∃ cs ts, Token.list? cs = some ts ∧ Writes ts e ∧ bound cs = (e.charge true).bound := by
  have hspelled := (Bool.and_eq_true_iff.mp he).2
  have hw := (Expr.writes_tokens hspelled).respelled Numeral.value_scaled
  have hglues := glues_respelled_tokens hspelled
  refine ⟨glued _, _, list?_glued List.all_nil hglues, hw, ?_⟩
  rw [bound, marks_glued hglues hw.joined, hw.bound_tokenMarks]

end Nesting

end Reckoner
