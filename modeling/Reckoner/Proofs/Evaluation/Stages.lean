import Reckoner.Proofs.Evaluation.Finite

/-!
# The stage that refuses

A text is read first and the tree is evaluated afterwards. Reading refuses the text itself and
nothing else, with the text as the user gave it, and evaluation never refuses a text. So a
refusal of a text tells that the text was not read, and every other refusal that it was
(`evaluate_stages`).
-/

namespace Reckoner

/-- The refusal of a text is put down to another text; other refusals stay as they are. -/
def Refusal.quoting (text : String) : Refusal → Refusal
  | .unreadable _ fault => .unreadable text fault
  | r => r

/-- It does not refuse a text. -/
def PastReading (a : Except Refusal α) : Prop := ∀ text fault, a ≠ .error (.unreadable text fault)

namespace PastReading

theorem ok (x : α) : PastReading (.ok x) := nofun

theorem bind {a : Except Refusal α} {f : α → Except Refusal β} (ha : PastReading a)
    (hf : ∀ x, PastReading (f x)) : PastReading (a >>= f) := by
  intro text fault h
  obtain h | ⟨x, -, h⟩ := bind_eq_error_iff.mp h
  · exact ha text fault h
  · exact hf x text fault h

end PastReading

theorem Settled.pastReading {a : Except Refusal Float} (h : Settled a) : PastReading a := by
  cases h <;> nofun

/-! ### Evaluation -/

theorem Constant.pastReading_ofName (id : String) : PastReading (Constant.ofName id) := by
  unfold Constant.ofName
  split <;> nofun

theorem Elementary.pastReading_ofName (id : String) : PastReading (Elementary.ofName id) := by
  unfold Elementary.ofName
  split <;> nofun

namespace Expr

variable {p : Policy} {m : Mode}

theorem pastReading_resolveName (e : Expr) : PastReading e.resolveName := by
  unfold resolveName
  split
  · nofun
  · split <;> nofun
  · nofun
  · nofun

theorem pastReading_resolveConstant (e : Expr) : PastReading e.resolveConstant :=
  e.pastReading_resolveName.bind Constant.pastReading_ofName

theorem pastReading_resolveFunction (e : Expr) : PastReading e.resolveFunction :=
  e.pastReading_resolveName.bind Elementary.pastReading_ofName

/-- No tree is refused as a text. -/
theorem pastReading_evaluate (e : Expr) : PastReading (e.evaluate p m) := by
  induction e using childrenInduction with
  | step e ih =>
    cases e with
    | number x =>
      rw [evaluate]
      split <;> rintro _ _ ⟨⟩
    | binary op l r =>
      rw [evaluate]
      refine (ih l (by simp [children])).bind fun x => ?_
      exact (ih r (by simp [children])).bind fun y => (op.settled_apply x y).pastReading
    | signed s e =>
      rw [evaluate]
      exact (ih e (by simp [children])).bind fun x => .ok _
    | group e =>
      rw [evaluate]
      exact ih e (by simp [children])
    | name id =>
      rw [evaluate]
      exact (pastReading_resolveConstant _).bind fun c => .ok _
    | «attribute» base property =>
      rw [evaluate]
      exact (pastReading_resolveConstant _).bind fun c => .ok _
    | call callee args keywords =>
      rw [evaluate]
      split
      · rintro _ _ ⟨⟩
      · refine callee.pastReading_resolveFunction.bind fun f => ?_
        split
        · exact (ih _ (by simp [children])).bind fun x => (f.settled_apply x).pastReading
        · rintro _ _ ⟨⟩
    | _ =>
      rw [evaluate]
      · rintro _ _ ⟨⟩
      all_goals simp

/-! ### Reading -/

/-- What is refused while it is read is the text. -/
theorem exists_fault_of_parse {limit : Nat} {text : String} {r : Refusal}
    (h : parse limit text = .error r) : ∃ fault, r = .unreadable text fault := by
  unfold parse at h
  cases hread : ofChars limit text.toList with
  | ok e =>
    rw [hread] at h
    cases h
  | error fault =>
    rw [hread] at h
    cases h
    exact ⟨fault, rfl⟩

end Expr

namespace Policy

variable {p : Policy} {text : String}

/-- A policy reads the rewritten text, and puts a refusal of it down to the text as it was given. -/
theorem parse_eq_quoting (h : text.length ≤ p.maxLength) :
    p.parse text =
      (Expr.parse p.maxDepth (Text.normalize text)).mapError (Refusal.quoting text) := by
  rw [parse, if_neg (Nat.not_lt_of_le h), Expr.parse, Text.normalize, String.toList_ofList]
  cases Expr.ofChars p.maxDepth (Text.expandCarets text.toList) <;> rfl

theorem exists_fault_of_parse {r : Refusal} (h : p.parse text = .error r) :
    ∃ fault, r = .unreadable text fault := by
  by_cases hlong : p.maxLength < text.length
  · rw [parse, if_pos hlong] at h
    cases h
    exact ⟨_, rfl⟩
  · rw [parse_eq_quoting (Nat.le_of_not_lt hlong)] at h
    cases hread : Expr.parse p.maxDepth (Text.normalize text) with
    | ok e =>
      rw [hread] at h
      cases h
    | error s =>
      obtain ⟨fault, rfl⟩ := Expr.exists_fault_of_parse hread
      rw [hread] at h
      cases h
      exact ⟨fault, rfl⟩

theorem evaluate_of_parse_eq_error {r : Refusal} (h : p.parse text = .error r) (m : Mode) :
    p.evaluate m text = .error r := by
  rw [evaluate, h]
  rfl

/-- A text is refused only while it is read. -/
theorem parse_of_evaluate_eq_unreadable {m : Mode} {q : String} {fault : Fault}
    (h : p.evaluate m text = .error (.unreadable q fault)) :
    p.parse text = .error (.unreadable q fault) := by
  obtain h | ⟨e, -, h⟩ := bind_eq_error_iff.mp h
  · exact h
  · exact (e.pastReading_evaluate q fault h).elim

end Policy

/-- **The stages do not mix**: a text is refused as such if and only if it is not read, with the
text as it was given and for the fault that reading found; reading refuses nothing but its text;
and no tree is refused as a text, whatever it holds. -/
theorem evaluate_stages (p : Policy) (m : Mode) (text : String) :
    ((∃ q fault, p.evaluate m text = .error (.unreadable q fault)) ↔
      ∃ r, p.parse text = .error r) ∧
    (∀ q fault, p.evaluate m text = .error (.unreadable q fault) →
      q = text ∧ p.parse text = .error (.unreadable text fault)) ∧
    (∀ r, p.parse text = .error r →
      (∃ fault, r = .unreadable text fault) ∧ p.evaluate m text = .error r) ∧
    (text.length ≤ p.maxLength → p.parse text =
      (Expr.parse p.maxDepth (Text.normalize text)).mapError (Refusal.quoting text)) ∧
    (∀ limit r, Expr.parse limit text = .error r → ∃ fault, r = .unreadable text fault) ∧
    ∀ (e : Expr) q fault, e.evaluate p m ≠ .error (.unreadable q fault) := by
  have hquoted {q : String} {fault : Fault}
      (h : p.evaluate m text = .error (.unreadable q fault)) :
      q = text ∧ p.parse text = .error (.unreadable text fault) := by
    have hparse := Policy.parse_of_evaluate_eq_unreadable h
    obtain ⟨fault', heq⟩ := Policy.exists_fault_of_parse hparse
    cases heq
    exact ⟨rfl, hparse⟩
  have hrefused {r : Refusal} (h : p.parse text = .error r) :
      (∃ fault, r = .unreadable text fault) ∧ p.evaluate m text = .error r :=
    ⟨Policy.exists_fault_of_parse h, Policy.evaluate_of_parse_eq_error h m⟩
  refine ⟨⟨?_, ?_⟩, fun _ _ => hquoted, fun _ => hrefused, Policy.parse_eq_quoting,
    fun _ _ => Expr.exists_fault_of_parse, fun e => e.pastReading_evaluate⟩
  · rintro ⟨q, fault, h⟩
    exact ⟨_, (hquoted h).2⟩
  · rintro ⟨r, h⟩
    obtain ⟨⟨fault, rfl⟩, hevaluate⟩ := hrefused h
    exact ⟨text, fault, hevaluate⟩

/-- A caret without an exponent: the refusal quotes the caret, that of the rewritten text two
stars. -/
theorem evaluate_stages_caret :
    let narrow : Policy := { maxDepth := 8 }
    Expr.parse 8 "x**" = .error (.unreadable "x**" .malformed) ∧
      narrow.parse "x^" = .error (.unreadable "x^" .malformed) ∧
      narrow.evaluate .advanced "x^" = .error (.unreadable "x^" .malformed) := by
  intro narrow
  have hrewritten : Expr.parse 8 "x**" = .error (.unreadable "x**" .malformed) := by cbv
  have hnormalize : Text.normalize "x^" = "x**" := by decide +kernel
  obtain ⟨-, -, hrefused, hquoting, -⟩ := evaluate_stages narrow .advanced "x^"
  have hparse : narrow.parse "x^" = .error (.unreadable "x^" .malformed) := by
    rw [hquoting (by decide), hnormalize, hrewritten]
    rfl
  exact ⟨hrewritten, hparse, (hrefused _ hparse).2⟩

end Reckoner
