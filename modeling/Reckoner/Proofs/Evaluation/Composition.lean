import Reckoner.Evaluation
import Reckoner.Proofs.Evaluation.Whitelist
import Reckoner.Proofs.Expr.Assembly
import Reckoner.Proofs.Nesting.Enclosure

/-!
# Evaluation composes on texts

Accepted texts are put together by parentheses, signs, operators and calls, whatever they
hold: white space, quoted texts, lambdas, keyword arguments and carets. The value of the
longer text is that of the parts put together in the same way, as long as the limits admit
it (`evaluate_composition`). They then admit the parts as well.
-/

namespace Reckoner

/-! ### Parts -/

variable {p q r : Policy} {m : Mode} {text other : String} {t u : Expr}

theorem Policy.evaluate_of_parse (h : p.parse text = .ok t) :
    p.evaluate m text = t.evaluate p m := by
  rw [Policy.evaluate, h]
  rfl

/-- A text that some policy reads is read by every policy that reads a longer text in which it
stands in parentheses. -/
theorem Policy.parse_of_enclosed {whole : String} {e : Expr} (pre rest : List Char)
    (h : q.parse text = .ok t) (hwhole : p.parse whole = .ok e)
    (hlength : text.length ≤ whole.length)
    (hsplit : Text.expandCarets whole.toList =
      pre ++ '(' :: (Text.expandCarets text.toList ++ ')' :: rest))
    (hpre : Nesting.openQuote none pre = none) (hdepth : t.depth ≤ e.depth) :
    p.parse text = .ok t := by
  obtain ⟨-, ts, hsaid, -, -⟩ := parse_eq_ok_iff.mp h
  obtain ⟨hlong, us, -, hbound, hdeep⟩ := parse_eq_ok_iff.mp hwhole
  have hle := Nesting.bound_le_of_enclosed hpre hsaid.tokens hsaid.writes rest
  rw [hsplit] at hbound
  exact parse_eq_ok_iff.mpr ⟨Nat.le_trans hlength hlong, ts, hsaid, Nat.le_trans hle hbound,
    Nat.le_trans hdepth hdeep⟩

theorem evaluate_parenthesized (h : q.parse text = .ok t) (ht : ∀ x v, t ≠ .assign x v)
    (hp : p.Admits ("(" ++ text ++ ")")) :
    p.evaluate m ("(" ++ text ++ ")") = p.evaluate m text := by
  obtain ⟨-, ts, hsaid, -, -⟩ := Policy.parse_eq_ok_iff.mp h
  have hchars : Text.expandCarets ("(" ++ text ++ ")").toList =
      '(' :: (Text.expandCarets text.toList ++ [')']) := by
    simp [Text.expandCarets_append, Text.expandCarets]
  have hgroup := hsaid.group (hsaid.level_le_expression ht)
  rw [← hchars] at hgroup
  have hwhole := hgroup.parse_of_admits hp
  have hpart : p.parse text = .ok t :=
    Policy.parse_of_enclosed [] [] h hwhole (by simp; omega) hchars rfl (Nat.le_succ _)
  rw [Policy.evaluate_of_parse hwhole, Policy.evaluate_of_parse hpart, Expr.evaluate]

theorem evaluate_negated (h : q.parse text = .ok t) (ht : ∀ x v, t ≠ .assign x v)
    (hp : p.Admits ("-(" ++ text ++ ")")) :
    p.evaluate m ("-(" ++ text ++ ")") = (p.evaluate m text).map (- ·) := by
  obtain ⟨-, ts, hsaid, -, -⟩ := Policy.parse_eq_ok_iff.mp h
  have hchars : Text.expandCarets ("-(" ++ text ++ ")").toList =
      ['-'] ++ '(' :: (Text.expandCarets text.toList ++ [')']) := by
    simp [Text.expandCarets_append, Text.expandCarets]
  have hsigned := (hsaid.group (hsaid.level_le_expression ht)).signed .minus
    (show Level.primary ≤ .factor by decide)
  have hsigned : Says (Text.expandCarets ("-(" ++ text ++ ")").toList) _ _ := hchars ▸ hsigned
  have hwhole := hsigned.parse_of_admits hp
  have hpart : p.parse text = .ok t :=
    Policy.parse_of_enclosed ['-'] [] h hwhole (by simp; omega) hchars rfl (Nat.le_add_right _ 2)
  rw [Policy.evaluate_of_parse hwhole, Policy.evaluate_of_parse hpart, Expr.evaluate, Expr.evaluate]
  cases t.evaluate p m <;> rfl

theorem evaluate_applied (f : Elementary) (h : q.parse text = .ok t)
    (ht : ∀ x v, t ≠ .assign x v) (hm : p.forbidsCalls m = false)
    (hp : p.Admits (f.name ++ "(" ++ text ++ ")")) :
    p.evaluate m (f.name ++ "(" ++ text ++ ")") = p.evaluate m text >>= f.apply := by
  obtain ⟨-, ts, hsaid, -, -⟩ := Policy.parse_eq_ok_iff.mp h
  have hname : Text.expandCarets f.name.toList = f.name.toList := by
    cases f <;> rfl
  have hchars : Text.expandCarets (f.name ++ "(" ++ text ++ ")").toList =
      f.name.toList ++ '(' :: (Text.expandCarets text.toList ++ [')']) := by
    simp [Text.expandCarets_append, Text.expandCarets, hname]
  have hcall := (Says.name f.isName_name).call rfl hsaid (hsaid.level_le_expression ht)
  rw [← hchars] at hcall
  have hwhole := hcall.parse_of_admits hp
  have hpart : p.parse text = .ok t := by
    refine Policy.parse_of_enclosed f.name.toList [] h hwhole (by simp; omega) hchars ?_ ?_
    · cases f <;> rfl
    · simp only [Expr.depth, Expr.depths]
      omega
  rw [Policy.evaluate_of_parse hwhole, Policy.evaluate_of_parse hpart, Expr.evaluate, hm,
    Expr.resolveFunction_eq_ok_iff.mpr .bare]
  rfl

theorem evaluate_operated (op : Operator) {sp : String} (hsp : sp ∈ op.spellings)
    (h : q.parse text = .ok t) (ht : ∀ x v, t ≠ .assign x v)
    (h' : r.parse other = .ok u) (hu : ∀ x v, u ≠ .assign x v)
    (hp : p.Admits ("(" ++ text ++ ")" ++ sp ++ "(" ++ other ++ ")")) :
    p.evaluate m ("(" ++ text ++ ")" ++ sp ++ "(" ++ other ++ ")") =
      p.evaluate m text >>= fun x => p.evaluate m other >>= fun y => op.apply x y := by
  obtain ⟨-, ts, hsaid, -, -⟩ := Policy.parse_eq_ok_iff.mp h
  obtain ⟨-, us, hsaid', -, -⟩ := Policy.parse_eq_ok_iff.mp h'
  set cs := Text.expandCarets text.toList
  set ds := Text.expandCarets other.toList
  have hchars : Text.expandCarets ("(" ++ text ++ ")" ++ sp ++ "(" ++ other ++ ")").toList =
      '(' :: (cs ++ ')' :: (op.symbol.toList ++ '(' :: (ds ++ [')']))) := by
    simp [Text.expandCarets_append, Text.expandCarets, op.expandCarets_of_mem_spellings hsp, cs, ds]
  have hboth := hsaid.operation op (hsaid.level_le_expression ht) hsaid'
    (hsaid'.level_le_expression hu)
  rw [← hchars] at hboth
  have hwhole := hboth.parse_of_admits hp
  have hleft : p.parse text = .ok t := by
    refine Policy.parse_of_enclosed [] _ h hwhole (by simp; omega) hchars rfl ?_
    simp only [Expr.depth]
    omega
  have hright : p.parse other = .ok u := by
    -- what stands before the second text closes all its quotes
    have hpre : Nesting.openQuote none ('(' :: (cs ++ ')' :: op.symbol.toList)) = none := by
      rw [Nesting.openQuote_cons, show Nesting.quoteStep none '(' = none from rfl,
        Nesting.openQuote_append, Nesting.openQuote_of_list? hsaid.tokens]
      cases op <;> rfl
    refine Policy.parse_of_enclosed _ [] h' hwhole (by simp; omega) ?_ hpre ?_
    · rw [hchars]
      simp [ds]
    · simp only [Expr.depth]
      omega
  rw [Policy.evaluate_of_parse hwhole, Policy.evaluate_of_parse hleft,
    Policy.evaluate_of_parse hright, Expr.evaluate, Expr.evaluate, Expr.evaluate]

/-- **Evaluation composes on texts**: for accepted texts that are no assignments, and under every
policy whose limits admit the longer text, parentheses change no value, a minus sign turns it
round, an operator is applied to the values from left to right with the first refusal winning, and
a function is applied to the value if the mode may call it. -/
theorem evaluate_composition {q r : Policy} {text other : String} {t u : Expr}
    (h : q.parse text = .ok t) (ht : ∀ x v, t ≠ .assign x v)
    (h' : r.parse other = .ok u) (hu : ∀ x v, u ≠ .assign x v) (p : Policy) (m : Mode) :
    (p.Admits ("(" ++ text ++ ")") →
      p.evaluate m ("(" ++ text ++ ")") = p.evaluate m text) ∧
    (p.Admits ("-(" ++ text ++ ")") →
      p.evaluate m ("-(" ++ text ++ ")") = (p.evaluate m text).map (- ·)) ∧
    (∀ op : Operator, ∀ sp ∈ op.spellings,
      p.Admits ("(" ++ text ++ ")" ++ sp ++ "(" ++ other ++ ")") →
      p.evaluate m ("(" ++ text ++ ")" ++ sp ++ "(" ++ other ++ ")") =
        p.evaluate m text >>= fun x => p.evaluate m other >>= fun y => op.apply x y) ∧
    ∀ f : Elementary, p.forbidsCalls m = false → p.Admits (f.name ++ "(" ++ text ++ ")") →
      p.evaluate m (f.name ++ "(" ++ text ++ ")") = p.evaluate m text >>= f.apply := by
  refine ⟨evaluate_parenthesized h ht, evaluate_negated h ht, ?_, ?_⟩
  · intro op sp hsp hp
    exact evaluate_operated op hsp h ht h' hu hp
  · intro f hm hp
    exact evaluate_applied f h ht hm hp

/-- The two constants in parentheses, with a minus sign, a caret and a root. -/
theorem evaluate_composition_constants :
    let value := Policy.evaluate {} .basic
    value "(pi)" = value "pi" ∧ value "-(pi)" = (value "pi").map (- ·) ∧
      (value "(pi)^( e )" = value "pi" >>= fun x => value " e " >>= fun y =>
        Operator.power.apply x y) ∧
      value "sqrt(pi)" = value "pi" >>= Elementary.sqrt.apply := by
  intro value
  have hpi : Policy.parse {} "pi" = .ok (.name "pi") := by cbv
  have he : Policy.parse {} " e " = .ok (.name "e") := by cbv
  have hgroup : Policy.parse {} "(pi)" = .ok (.group (.name "pi")) := by cbv
  have hsigned : Policy.parse {} "-(pi)" = .ok (.signed .minus (.group (.name "pi"))) := by cbv
  have hpower : Policy.parse {} "(pi)^( e )" =
      .ok (.binary .power (.group (.name "pi")) (.group (.name "e"))) := by cbv
  have hcall : Policy.parse {} "sqrt(pi)" = .ok (.call (.name "sqrt") [.name "pi"] []) := by cbv
  obtain ⟨hparentheses, hminus, hoperator, hfunction⟩ :=
    evaluate_composition hpi (by simp) he (by simp) {} .basic
  exact ⟨hparentheses (Policy.admits_of_parse_eq_ok hgroup),
    hminus (Policy.admits_of_parse_eq_ok hsigned),
    hoperator .power "^" (by decide) (Policy.admits_of_parse_eq_ok hpower),
    hfunction .sqrt rfl (Policy.admits_of_parse_eq_ok hcall)⟩

end Reckoner
