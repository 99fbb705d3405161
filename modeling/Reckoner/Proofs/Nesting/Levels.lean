import Reckoner.Proofs.Grammar.Completeness
import Reckoner.Proofs.Nesting.Findings

/-!
# Operators at their levels

In a text that the grammar accepts, the scan opens and closes a level at each bracket token
and nowhere else, and counts each other token that matters at the level in which it stands,
but for a keyword that touches a number literal with an exponent and no sign
(`scan_sees_tokens`). So at every level it counts at least these tokens.
-/

namespace Reckoner

open Nesting (Covers Mark Scan marks)

namespace Nesting

/-! ### Counting at each level -/

/-- The operators that the scan counts at each level, in the order in which the levels end. -/
def Scan.tally (s : Scan) : List Mark → List Nat
  | [] => (s.current :: s.enclosing).map Level.operators
  | .closing :: ms =>
    match s.enclosing with
    | [] => s.tally ms
    | _ :: _ => s.current.operators :: (s.step .closing).tally ms
  | m :: ms => (s.step m).tally ms

/-- Where only operators are added, no level has fewer of them. -/
theorem Scan.Below.tally_le {s t : Scan} {ns ms : List Mark} (hm : Covers ns ms)
    (h : s.Below t) : List.Forall₂ (· ≤ ·) (s.tally ns) (t.tally ms) := by
  induction hm generalizing s t with
  | nil =>
    refine .cons h.1.1 ?_
    rw [List.forall₂_map_left_iff, List.forall₂_map_right_iff]
    exact h.2.imp fun _ _ hl => hl.1
  | cons m rest ih =>
    have hstep := ih (h.step m)
    obtain ⟨current, enclosing⟩ := s
    obtain ⟨current', enclosing'⟩ := t
    cases m with
    | opening | operator => exact hstep
    | closing =>
      obtain ⟨hc, he⟩ := h
      cases he with
      | nil => exact hstep
      | cons hl hls => exact .cons hc.1 hstep
  | operator rest ih => exact ih h.step_operator

theorem Covers.append {ns ms ns' ms' : List Mark} (h : Covers ns ms) (h' : Covers ns' ms') :
    Covers (ns ++ ns') (ms ++ ms') := by
  induction h with
  | nil => exact h'
  | cons m _ ih => exact .cons m ih
  | operator _ ih => exact .operator ih

end Nesting

/-! ### The tokens that are seen -/

namespace Placed

/-- The marks of the tokens that are not hidden. -/
def seen (swallowed : Bool) : List Placed → List Mark
  | [] => []
  | p :: ps =>
    (if p.isHidden swallowed then [] else p.token.marks) ++ seen p.token.swallows ps

/-- The scan finds the tokens that are not hidden, and perhaps more operators. -/
theorem covers_found (swallowed : Bool) (next : Option Token) (ps : List Placed) :
    Covers (seen swallowed ps) (found swallowed next ps) := by
  induction ps generalizing swallowed with
  | nil => exact .nil
  | cons p ps ih =>
    rw [seen, found]
    refine Covers.append ?_ (ih _)
    split
    · exact .nil
    · cases hp : p.token with
      | number n =>
        rw [Token.strays, Numeral.strays, Token.marks, List.append_assoc]
        exact .markIf (.markIf .nil _) _
      | text | name | keyword | symbol => exact .refl _

end Placed

namespace Nesting

open Token (Laid)

/-- What the scan finds before a token and from the token on. -/
theorem marks_place {cs : List Char} {qs rs : List Placed} {p : Placed}
    (h : Laid cs (qs ++ p :: rs)) (hj : joined ((qs ++ p :: rs).map Placed.token) = true) :
    ∃ rest, cs = Placed.text qs ++ (p.gap ++ (p.spelling ++ rest)) ∧
      if p.isHidden (Placed.swallowsAfter false qs) then
        marks ' ' cs = Placed.found false (some p.token) qs ++ marks ' ' rest
      else
        marks ' ' cs = Placed.found false (some p.token) qs ++ marks ' ' (p.spelling ++ rest) ∧
          marks ' ' (p.spelling ++ rest) = p.token.strays (rs.head?.map Placed.token)
            ++ p.token.marks ++ Placed.found p.token.swallows none rs := by
  have hwhole := (marks_laid h hj).1
  rw [Placed.found_append] at hwhole
  rw [List.map_append] at hj
  have hjoined := joined_of_append hj
  obtain ⟨_, rfl, hlaid⟩ := h.exists_append
  cases hlaid with
  | @cons _ rest _ hgap hread htail =>
    refine ⟨rest, rfl, ?_⟩
    obtain ⟨hadmits, hbehind⟩ := Bool.and_eq_true_iff.mp hjoined
    rw [List.head?_map] at hadmits
    obtain ⟨hfirst, hswallowed⟩ := marks_laid htail hbehind
    split
    · rename_i hhidden
      have hswallows : p.token.swallows = false := by
        simp only [Placed.isHidden, Bool.and_eq_true] at hhidden
        generalize p.token = t at hhidden
        cases t <;> first | rfl | cases hhidden.2
      rw [hwhole, Placed.found, if_pos hhidden, hswallows, hfirst]
      rfl
    · rename_i hhidden
      have hspelling := marks_spelling_laid hread htail hadmits hfirst hswallowed
      have hnext : (p :: rs).head?.map Placed.token = some p.token := rfl
      refine ⟨?_, hspelling⟩
      rw [hwhole, hspelling, Placed.found_of_not_isHidden (Bool.eq_false_iff.mpr hhidden), hnext,
        Option.or_none, Option.or_none]

/-- **Operators at their levels.** A text that the grammar accepts has a layout such that the scan
goes through it token by token. Where it reaches a token, it has found the brackets of the tokens
before it and no others, so it is at the level of the token; there it finds the marks of the
token, unless the token is hidden. So at every level it counts at least the tokens that are not
hidden. -/
theorem scan_sees_tokens {cs : List Char} {ts : List Token} {e : Expr}
    (hts : Token.list? cs = some ts) (he : Grammar.parse? ts = some e) :
    ∃ ps, Laid cs ps ∧ ps.map Placed.token = ts ∧
      (∀ qs p rs, ps = qs ++ p :: rs →
        Covers (Placed.seen false qs) (Placed.found false (some p.token) qs) ∧
        ∃ rest, cs = Placed.text qs ++ (p.gap ++ (p.spelling ++ rest)) ∧
          if p.isHidden (Placed.swallowsAfter false qs) then
            marks ' ' cs = Placed.found false (some p.token) qs ++ marks ' ' rest
          else
            marks ' ' cs = Placed.found false (some p.token) qs ++ marks ' ' (p.spelling ++ rest) ∧
              marks ' ' (p.spelling ++ rest) = p.token.strays (rs.head?.map Placed.token)
                ++ p.token.marks ++ Placed.found p.token.swallows none rs) ∧
      Covers (Placed.seen false ps) (marks ' ' cs) ∧
      List.Forall₂ (· ≤ ·) (Scan.tally {} (Placed.seen false ps)) (Scan.tally {} (marks ' ' cs)) := by
  obtain ⟨ps, hps, rfl⟩ := Token.exists_laid hts
  have hj := (Grammar.parse?_eq_some_iff.mp he).1.joined
  have hcovers : Covers (Placed.seen false ps) (marks ' ' cs) := by
    rw [(marks_laid hps hj).1]
    exact Placed.covers_found false none ps
  refine ⟨ps, hps, rfl, ?_, hcovers, (Scan.Below.refl {}).tally_le hcovers⟩
  rintro qs p rs rfl
  exact ⟨Placed.covers_found false (some p.token) qs, marks_place hps hj⟩

/-- A point at the end of a literal, a keyword that the literal hides and one that it does not. -/
theorem scan_sees_tokens_hidden :
    ∃ ts e ps, Token.list? "f(1.e5and not 2)".toList = some ts ∧ Grammar.parse? ts = some e ∧
      Laid "f(1.e5and not 2)".toList ps ∧ ps.map Placed.token = ts ∧
        List.Forall₂ (· ≤ ·) (Scan.tally {} (Placed.seen false ps))
          (Scan.tally {} (marks ' ' "f(1.e5and not 2)".toList)) := by
  have hts : Token.list? "f(1.e5and not 2)".toList =
      some [.name "f", .symbol .openParen, .number ⟨['1'], some [], some ⟨'e', none, ['5']⟩⟩,
        .keyword .and, .keyword .not, .number ⟨['2'], none, none⟩, .symbol .closeParen] := by
    decide +kernel
  have he : Grammar.parse? [.name "f", .symbol .openParen,
        .number ⟨['1'], some [], some ⟨'e', none, ['5']⟩⟩, .keyword .and, .keyword .not,
        .number ⟨['2'], none, none⟩, .symbol .closeParen] =
      some (.call (.name "f")
        [.connect .and (.number (Numeral.value ⟨['1'], some [], some ⟨'e', none, ['5']⟩⟩))
          (.negate (.number (Numeral.value ⟨['2'], none, none⟩)))] []) := rfl
  obtain ⟨ps, hlaid, hps, -, -, htally⟩ := scan_sees_tokens hts he
  exact ⟨_, _, ps, hts, he, hlaid, hps, htally⟩

/-- In `1e5and 2` the grammar sees an operator that the scan does not count. -/
theorem hidden_keyword_uncounted :
    ∃ ts e, Token.list? "1e5and 2".toList = some ts ∧ Grammar.parse? ts = some e ∧
      Scan.tally {} (ts.flatMap Token.marks) = [1] ∧
        Scan.tally {} (marks ' ' "1e5and 2".toList) = [0] := by
  have hts : Token.list? "1e5and 2".toList =
      some [.number ⟨['1'], none, some ⟨'e', none, ['5']⟩⟩, .keyword .and,
        .number ⟨['2'], none, none⟩] := by
    decide +kernel
  exact ⟨_, _, hts, rfl, rfl, by decide +kernel⟩

end Nesting

end Reckoner
