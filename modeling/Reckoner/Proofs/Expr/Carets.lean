import Reckoner.Proofs.Evaluation.Limits
import Reckoner.Proofs.Expr.Texts
import Reckoner.Proofs.Token.Carets

/-!
# Reading carets

Under a policy every caret of a text is rewritten before anything is read. The expression is
the same that a reader finds which takes a caret for a power sign (`Expr.readCarets`), but for
the carets in quoted texts, which are rewritten too (`parse_carets`). No sign arises from a
caret and what stands beside it: such a text is refused.
-/

namespace Reckoner

/-! ### Blank texts and open quotes -/

theorem Text.all_isWhite_expandCarets (cs : List Char) :
    (expandCarets cs).all isWhite = cs.all isWhite := by
  induction cs with
  | nil => rfl
  | cons c cs ih =>
    by_cases hc : c = '^'
    · subst hc
      rfl
    · rw [expandCarets_cons hc, List.all_cons, List.all_cons, ih]

/-- A caret and another sign of a power beside it. -/
def Text.CaretBeside (c d : Char) : Prop :=
  c = '^' ∧ (d = '^' ∨ d = '*') ∨ c = '*' ∧ d = '^'

theorem Text.CaretBeside.exists_stars {c d : Char} (h : CaretBeside c d) (cs : List Char) :
    ∃ rest, expandCarets (c :: d :: cs) = '*' :: '*' :: '*' :: rest := by
  rcases h with ⟨rfl, rfl | rfl⟩ | ⟨rfl, rfl⟩ <;> exact ⟨_, rfl⟩

theorem Text.CaretBeside.not_isWhite {c d : Char} (h : CaretBeside c d) : isWhite c = false := by
  rcases h with ⟨rfl, -⟩ | ⟨rfl, -⟩ <;> decide

namespace Nesting

variable {q : Option Char} (hq : ∀ d ∈ q, Token.isQuote d = true)

include hq

theorem quoteStep_of_not_isQuote {c : Char} (hc : Token.isQuote c = false) : quoteStep q c = q := by
  cases q with
  | none => rw [quoteStep, hc, if_neg Bool.false_ne_true]
  | some d =>
    rw [quoteStep, if_neg]
    rintro rfl
    rw [hq c rfl] at hc
    cases hc

theorem isQuote_of_mem_quoteStep (c : Char) : ∀ d ∈ quoteStep q c, Token.isQuote d = true := by
  cases hc : Token.isQuote c with
  | false =>
    rw [quoteStep_of_not_isQuote hq hc]
    exact hq
  | true =>
    intro d hd
    cases q with
    | none =>
      rw [quoteStep, hc, if_pos rfl] at hd
      cases hd
      exact hc
    | some e =>
      rw [quoteStep] at hd
      split at hd
      · cases hd
      · exact hq d hd

/-- Neither a caret nor a star opens or closes a quoted text. -/
theorem openQuote_expandCarets (cs : List Char) :
    openQuote q (Text.expandCarets cs) = openQuote q cs := by
  induction cs generalizing q with
  | nil => rfl
  | cons c cs ih =>
    by_cases hc : c = '^'
    · subst hc
      have hstar : quoteStep q '*' = q := quoteStep_of_not_isQuote hq rfl
      have hcaret : quoteStep q '^' = q := quoteStep_of_not_isQuote hq rfl
      rw [Text.expandCarets_caret, openQuote_cons, openQuote_cons, openQuote_cons, hstar, hstar,
        hcaret, ih hq]
    · rw [Text.expandCarets_cons hc, openQuote_cons, openQuote_cons,
        ih (isQuote_of_mem_quoteStep hq c)]

end Nesting

/-! ### Reading tokens -/

namespace Expr

/-- What tokens are read as. -/
def ofTokens (ts : Option (List Token)) : Except Fault Expr :=
  match ts with
  | none => .error .malformed
  | some ts =>
    match Grammar.parse? ts with
    | none => .error .malformed
    | some e =>
      match Token.firstLarge? ts with
      | some n => .error (.large (String.ofList n.spelling))
      | none => .ok e

theorem readFreely_eq (cs : List Char) :
    readFreely cs = if cs.all Text.isWhite then .error .empty else ofTokens (Token.list? cs) :=
  rfl

/-- What the characters are read as where a caret is a power sign and nothing is limited. -/
def readCarets (cs : List Char) : Except Fault Expr :=
  if cs.all Text.isWhite then .error .empty else ofTokens (Token.listCarets? cs)

/-- Tokens that cannot be joined are not those of an expression. -/
theorem ofTokens_unjoined {ts : Option (List Token)} (h : ∀ t ∈ ts, joined t = false) :
    ofTokens ts = .error .malformed := by
  cases ts with
  | none => rfl
  | some ts =>
    have hnone : Grammar.parse? ts = none := by
      rw [Option.eq_none_iff_forall_ne_some]
      intro e he
      have := (Grammar.parse?_eq_some_iff.mp he).1.joined
      rw [h ts rfl] at this
      cases this
    simp only [ofTokens, hnone]

theorem ofTokens_map (f : String → String) (ts : Option (List Token)) :
    ofTokens (ts.map (List.map (Token.mapText f))) = (ofTokens ts).map (mapTexts f) := by
  cases ts with
  | none => rfl
  | some ts =>
    simp only [Option.map_some, ofTokens, Grammar.parse?_map_mapText,
      Token.firstLarge?_map_mapText]
    cases Grammar.parse? ts with
    | none => rfl
    | some e =>
      cases Token.firstLarge? ts <;> rfl

theorem ofTokens_alike {us ts : Option (List Token)} (h : Token.Alike us ts) :
    ofTokens us = (ofTokens ts).map (mapTexts Text.normalize) := by
  rcases h with rfl | ⟨hus, hts⟩
  · exact ofTokens_map _ ts
  · rw [ofTokens_unjoined hus, ofTokens_unjoined hts]
    rfl

/-- Rewriting the carets of a text rewrites those in the quoted texts of what is read. -/
theorem readFreely_expandCarets (cs : List Char) :
    readFreely (Text.expandCarets cs) = (readCarets cs).map (mapTexts Text.normalize) := by
  rw [readFreely_eq, readCarets, Text.all_isWhite_expandCarets]
  split
  · rfl
  · exact ofTokens_alike (Token.alike_list? cs)

/-- A caret beside another sign of a power is read as nothing, if it is not in a quoted text. -/
theorem readFreely_caretBeside {pre post : List Char} {c d : Char} (h : Text.CaretBeside c d)
    (hpre : Nesting.openQuote none pre = none) :
    readFreely (Text.expandCarets (pre ++ c :: d :: post)) = .error .malformed := by
  have hwhite : ¬ (pre ++ c :: d :: post).all Text.isWhite = true := by
    simp [h.not_isWhite]
  obtain ⟨rest, hrest⟩ := h.exists_stars post
  rw [readFreely_eq, Text.all_isWhite_expandCarets, if_neg hwhite, Text.expandCarets_append, hrest]
  refine ofTokens_unjoined fun ts hts => ?_
  refine (Token.spaced_of_list? hts).joined_eq_false ?_
  rw [Nesting.openQuote_expandCarets (by simp), hpre]

end Expr

/-- **A caret is a power sign**: a text that no limit refuses is read as by a reader that takes a
caret for a power sign, but for the carets in quoted texts, each of which becomes two stars. A
caret beside a star or another caret is refused, if it is not in a quoted text. -/
theorem parse_carets {p : Policy} {text : String} (h : p.Admits text) :
    p.parse text = ((Expr.readCarets text.toList).map (Expr.mapTexts Text.normalize)).mapError
      (.unreadable text) ∧
    ∀ pre c d post, text.toList = pre ++ c :: d :: post → Nesting.openQuote none pre = none →
      Text.CaretBeside c d → p.parse text = .error (.unreadable text .malformed) := by
  obtain ⟨hlength, hroom⟩ := Policy.hasRoom_of_admits h
  have hparse := Policy.parse_of_hasRoom hlength hroom
  constructor
  · rw [hparse, Expr.readFreely_expandCarets]
  · intro pre c d post htext hpre hbeside
    rw [hparse, htext, Expr.readFreely_caretBeside hbeside hpre]
    rfl

/-- Carets before a name and before a quoted text that has one too, and a caret behind a star. -/
theorem parse_carets_quoted :
    Policy.Admits {} "x^y^\"a^b\"" ∧
      Expr.readCarets "x^y^\"a^b\"".toList =
        .ok (.binary .power (.name "x") (.binary .power (.name "y") (.text "a^b"))) ∧
      Policy.parse {} "x^y^\"a^b\"" =
        .ok (.binary .power (.name "x") (.binary .power (.name "y") (.text "a**b"))) ∧
      Policy.Admits {} "x*^y" ∧
      Policy.parse {} "x*^y" = .error (.unreadable "x*^y" .malformed) := by
  have hadmits : Policy.Admits {} "x^y^\"a^b\"" :=
    Policy.admits_of_parse_eq_ok (e := .binary .power (.name "x")
      (.binary .power (.name "y") (.text "a**b"))) (by cbv)
  have hread : Expr.readCarets "x^y^\"a^b\"".toList =
      .ok (.binary .power (.name "x") (.binary .power (.name "y") (.text "a^b"))) := by cbv
  have hadmits' : Policy.Admits {} "x*^y" := by
    have hrefused : Policy.parse {} "x*^y" = .error (.unreadable "x*^y" .malformed) := by cbv
    intro fault hfault
    rw [hrefused] at hfault
    cases hfault
    rfl
  have hnormalize : Text.normalize "a^b" = "a**b" := by decide +kernel
  refine ⟨hadmits, hread, ?_, hadmits', ?_⟩
  · rw [(parse_carets hadmits).1, hread, ← hnormalize]
    rfl
  · exact (parse_carets hadmits').2 ['x'] '*' '^' ['y'] rfl rfl (.inr ⟨rfl, rfl⟩)

end Reckoner
