import Reckoner.Proofs.Nesting.Cover
import Reckoner.Proofs.Token.Layout

/-!
# What the scan finds, token by token

The scan has no rule for number literals, and the layout of a text tells what it makes of
them. A point at the end of the digits with a word behind it and the sign of an exponent
count as operators (`strays`); an exponent without a sign swallows a keyword that touches it
(`swallows`), so that the keyword is hidden. Apart from this the scan finds the marks of the
tokens (`marks_laid`).
-/

namespace Reckoner

open Nesting (Mark markIf marks)

/-! ### Literals -/

namespace Numeral

/-- Whether a keyword that touches the literal is read by the scan as the end of a word that begins
with the exponent. -/
def swallows (n : Numeral) : Bool := n.exponent.any (·.sign.isNone)

/-- The operators that the scan finds in the literal, given the token behind it. -/
def strays (n : Numeral) (next : Option Token) : List Mark :=
  markIf (n.fraction = some [] && (n.exponent.isSome || next.any Token.isKeyword)) .operator
    ++ markIf (n.exponent.any (·.sign.isSome)) .operator

end Numeral

namespace Token

/-- Whether the token is a literal that swallows a keyword behind it. -/
def swallows : Token → Bool
  | .number n => n.swallows
  | _ => false

/-- The operators that the scan finds in the token if it is a literal. -/
def strays (next : Option Token) : Token → List Mark
  | .number n => n.strays next
  | _ => []

theorem strays_eq_nil {t : Token} (h : t.isNumber = false) (next : Option Token) :
    t.strays next = [] := by
  cases t <;> first | rfl | cases h

theorem swallows_eq_false {t : Token} (h : t.isNumber = false) : t.swallows = false := by
  cases t <;> first | rfl | cases h

end Token

/-! ### Tokens in their places -/

namespace Placed

/-- Whether the scan passes over the token: a keyword that touches a literal which swallows it. -/
def isHidden (swallowed : Bool) (p : Placed) : Bool :=
  swallowed && p.gap.isEmpty && p.token.isKeyword

/-- What the scan finds at the tokens, given whether a literal that swallows stands before them and
the token that stands behind them. -/
def found (swallowed : Bool) (next : Option Token) : List Placed → List Mark
  | [] => []
  | p :: ps =>
    (if p.isHidden swallowed then []
      else p.token.strays ((ps.head?.map token).or next) ++ p.token.marks)
      ++ found p.token.swallows next ps

/-- Whether a literal that swallows stands at the end of the tokens. -/
def swallowsAfter (swallowed : Bool) : List Placed → Bool
  | [] => swallowed
  | p :: ps => swallowsAfter p.token.swallows ps

theorem found_append (swallowed : Bool) (next : Option Token) (ps qs : List Placed) :
    found swallowed next (ps ++ qs) =
      found swallowed ((qs.head?.map token).or next) ps
        ++ found (swallowsAfter swallowed ps) next qs := by
  induction ps generalizing swallowed with
  | nil => rfl
  | cons p ps ih =>
    have hnext : ((ps ++ qs).head?.map token).or next =
        (ps.head?.map token).or ((qs.head?.map token).or next) := by
      cases ps <;> simp
    rw [List.cons_append, found, found, ih, hnext, swallowsAfter, List.append_assoc]

theorem found_of_not_isHidden {p : Placed} {swallowed : Bool} (h : p.isHidden swallowed = false)
    (next : Option Token) (ps : List Placed) :
    found swallowed next (p :: ps) =
      p.token.strays ((ps.head?.map token).or next) ++ p.token.marks
        ++ found p.token.swallows next ps := by
  rw [found, h, if_neg Bool.false_ne_true]

end Placed

namespace Nesting

open Token (Laid)

variable {cs : List Char} {p : Placed} {ps : List Placed}

/-! ### The marks of a text -/

/-- Behind a literal the scan sees a word if a keyword comes next. -/
theorem nameFollows_laid (h : Laid cs ps)
    (htrails : (ps.head?.map Placed.token).all Token.trails = true) :
    nameFollows (cs.dropWhile Text.isWhite) = (ps.head?.map Placed.token).any Token.isKeyword := by
  have hwhite {bs : List Char} (hbs : bs.all Token.isBlank = true) : bs.all Text.isWhite = true :=
    List.all_eq_true.mpr fun b hb => Token.isWhite_of_isBlank (List.all_eq_true.mp hbs b hb)
  cases h with
  | blank hbs =>
    have := EndsRun.nil.dropWhile_append (hwhite hbs)
    rw [List.append_nil] at this
    rw [this]
    rfl
  | @cons p cs ps hgap hread rest =>
    have hsp := Token.spells_of_read? hread
    obtain ⟨c, sp, heq, hlow, hhigh⟩ := hsp.exists_cons
    have hends : EndsRun Text.isWhite (p.spelling ++ cs) := by
      rw [heq]
      exact EndsRun.cons_iff.mpr (Token.not_isWhite_of_toNat hlow hhigh)
    rw [hends.dropWhile_append (hwhite hgap)]
    show nameFollows (p.spelling ++ cs) = p.token.isKeyword
    replace htrails : p.token.trails = true := htrails
    generalize p.token = t, p.spelling = sq at hsp htrails
    cases hsp with
    | number | text | name => cases htrails
    | keyword k => cases k <;> rfl
    | symbol s => cases s <;> rfl

/-- What the scan finds from a literal on. -/
theorem marks_number_laid {n : Numeral} (hn : n.isWellFormed = true) (h : Laid cs ps)
    (htrails : (ps.head?.map Placed.token).all Token.trails = true) :
    marks ' ' (n.spelling ++ cs) = n.strays (ps.head?.map Placed.token) ++
      if n.swallows then marks ' ' (cs.dropWhile Token.continuesWord) else marks ' ' cs := by
  simp only [Numeral.isWellFormed, Bool.and_eq_true] at hn
  rw [Numeral.spelling_eq, List.append_assoc, List.append_assoc, marks_digits hn.1.1.1,
    marks_fraction hn.1.1.2, Numeral.strays, Numeral.swallows, List.append_assoc]
  cases hx : n.exponent with
  | none =>
    show markIf (_ && nameFollows (cs.dropWhile Text.isWhite)) _ ++ marks ' ' cs = _
    rw [nameFollows_laid h htrails]
    simp [markIf]
  | some x =>
    have hwf : x.isWellFormed = true := by simpa [hx] using hn.2
    have hmarker : nameFollows ((x.spelling ++ cs).dropWhile Text.isWhite) = true := by
      simp only [Exponent.isWellFormed, Bool.and_eq_true, Bool.or_eq_true, decide_eq_true_eq,
        or_assoc] at hwf
      obtain ⟨marker, sign, digits⟩ := x
      rcases hwf.1.1.1 with rfl | rfl <;> rfl
    show markIf (_ && nameFollows ((x.spelling ++ cs).dropWhile Text.isWhite)) _
      ++ marks ' ' (x.spelling ++ cs) = _
    rw [hmarker, marks_exponent hwf]
    cases hs : x.sign <;> simp [hs, markIf]

/-- What the scan finds from a token on. -/
theorem marks_spelling_laid (hread : Token.read? (p.spelling ++ cs) = some (p.token, cs))
    (h : Laid cs ps) (hadmits : p.token.admits (ps.head?.map Placed.token) = true)
    (hfirst : marks ' ' cs = Placed.found false none ps)
    (hbehind : (ps.head?.map Placed.token).all Token.trails = true →
      marks ' ' (cs.dropWhile Token.continuesWord) = Placed.found true none ps) :
    marks ' ' (p.spelling ++ cs) = p.token.strays (ps.head?.map Placed.token) ++ p.token.marks
      ++ Placed.found p.token.swallows none ps := by
  have hsp := Token.spells_of_read? hread
  cases hnumber : p.token.isNumber with
  | false =>
    have hspaced := Token.spaced_of_list? h.list?_eq
    rw [marks_spelling hsp hnumber (by simpa using hadmits) (Token.endsRun_of_read? hread) hspaced,
      Token.strays_eq_nil hnumber, Token.swallows_eq_false hnumber, hfirst, List.nil_append]
  | true =>
    generalize p.token = t, p.spelling = sp at hsp hadmits hnumber
    cases hsp with
    | text | name | keyword | symbol => cases hnumber
    | @number n hn =>
      have hrest : (if n.swallows then marks ' ' (cs.dropWhile Token.continuesWord)
          else marks ' ' cs) = Placed.found n.swallows none ps := by
        cases n.swallows with
        | false => exact hfirst
        | true => exact hbehind hadmits
      rw [marks_number_laid hn h hadmits, hrest]
      simp [Token.strays, Token.marks, Token.swallows]

/-- **What the scan finds in a text** of tokens that can stand side by side is what it finds at
each of them. -/
theorem marks_laid (h : Laid cs ps) (hj : joined (ps.map Placed.token) = true) :
    marks ' ' cs = Placed.found false none ps ∧
      ((ps.head?.map Placed.token).all Token.trails = true →
        marks ' ' (cs.dropWhile Token.continuesWord) = Placed.found true none ps) := by
  have hsilent {bs : List Char} (hbs : bs.all Token.isBlank = true) : bs.all isSilent = true :=
    List.all_eq_true.mpr fun b hb =>
      isSilent_of_isWhite (Token.isWhite_of_isBlank (List.all_eq_true.mp hbs b hb))
  have hends {b : Char} {ds : List Char} (hb : Token.isBlank b = true) :
      EndsRun Token.continuesWord (b :: ds) :=
    EndsRun.cons_iff.mpr (Token.not_continues_of_isBlank (t := .name "") hb)
  induction h with
  | @blank bs hbs =>
    have hnone : marks ' ' bs = [] := by
      rw [← List.append_nil bs, marks_silent_append (hsilent hbs), marks]
    have hrun : EndsRun Token.continuesWord bs := by
      cases bs with
      | nil => exact .nil
      | cons b bs => exact hends (Bool.and_eq_true_iff.mp hbs).1
    rw [hrun.dropWhile_eq, hnone]
    exact ⟨rfl, fun _ => rfl⟩
  | @cons p cs ps hgap hread rest ih =>
    obtain ⟨hadmits, hjoined⟩ := Bool.and_eq_true_iff.mp hj
    obtain ⟨hfirst, hbehind⟩ := ih hjoined
    rw [List.head?_map] at hadmits
    have hvisible (swallowed : Bool) (hp : p.isHidden swallowed = false) :
        marks ' ' (p.gap ++ (p.spelling ++ cs)) = Placed.found swallowed none (p :: ps) := by
      rw [marks_silent_append (hsilent hgap), marks_spelling_laid hread rest hadmits hfirst hbehind,
        Placed.found_of_not_isHidden hp, Option.or_none]
    refine ⟨hvisible false rfl, fun htrails => ?_⟩
    replace htrails : p.token.trails = true := htrails
    cases hg : p.gap with
    | cons b bs =>
      have hb : Token.isBlank b = true := by
        rw [hg] at hgap
        exact (Bool.and_eq_true_iff.mp hgap).1
      rw [List.cons_append, (hends hb).dropWhile_eq, ← List.cons_append, ← hg]
      exact hvisible true (by simp [Placed.isHidden, hg])
    | nil =>
      rw [List.nil_append]
      have hsp := Token.spells_of_read? hread
      have hword := Token.endsRun_of_read? hread
      have hvisible := hvisible true
      rw [hg, List.nil_append] at hvisible
      cases hkeyword : p.token.isKeyword with
      | false =>
        -- a symbol: the scan does not take it for a part of a word
        have hstart : EndsRun Token.continuesWord (p.spelling ++ cs) := by
          generalize p.token = t, p.spelling = sq at hsp htrails hkeyword
          cases hsp with
          | number | text | name => cases htrails
          | keyword => cases hkeyword
          | symbol s => cases s <;> exact EndsRun.cons_iff.mpr rfl
        rw [hstart.dropWhile_eq]
        exact hvisible (by simp [Placed.isHidden, hkeyword])
      | true =>
        -- a keyword that touches the literal before it is hidden
        have hrest : (p.spelling ++ cs).dropWhile Token.continuesWord = cs := by
          generalize p.token = t, p.spelling = sq at hsp hkeyword hword
          cases hsp with
          | number | text | name | symbol => cases hkeyword
          | keyword k =>
            exact (hword (.inr ⟨k, rfl⟩)).dropWhile_append (by cases k <;> rfl)
        have hswallows : p.token.swallows = false := by
          generalize p.token = t at hkeyword
          cases t <;> first | rfl | cases hkeyword
        rw [hrest, hfirst, Placed.found, Placed.isHidden, hg, hkeyword, hswallows]
        rfl

end Nesting

end Reckoner
