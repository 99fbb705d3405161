import Reckoner.Proofs.Evaluation.Whitelist

/-!
# Groups and the namespace leave no trace

`Expr.erase` drops the groups around what is evaluated and the namespace before the names of
constants and functions, and leaves alone what evaluation never looks at. Nothing is lost by it:
the erased expression has the same value or the same refusal. The namespace behind itself is no
prefix but an attribute, and is refused wherever evaluation comes to it (`evaluate_erased`).
-/

namespace Reckoner

namespace Expr

variable {p : Policy} {m : Mode}

/-! ### Erasing -/

/-- The name alone, if the expression is one behind a single `math.`. -/
def bare : Expr → Expr
  | .attribute (.name ns) n => if ns = mathNamespace then .name n else .attribute (.name ns) n
  | e => e

/-- The expression without groups and namespaces at the places that evaluation can come to. -/
def erase : Expr → Expr
  | .group e => e.erase
  | .binary op l r => .binary op l.erase r.erase
  | .signed s e => .signed s e.erase
  | .call callee [arg] [] => .call callee.bare [arg.erase] []
  | .call callee args keywords => .call callee.bare args keywords
  | e => e.bare

theorem resolveName_bare (e : Expr) : e.bare.resolveName = e.resolveName := by
  unfold bare
  split
  · rename_i ns n
    by_cases hns : ns = mathNamespace
    · rw [if_pos hns, resolveName, resolveName, if_pos hns]
    · rw [if_neg hns]
  · rfl

theorem resolveFunction_bare (e : Expr) : e.bare.resolveFunction = e.resolveFunction := by
  rw [resolveFunction, resolveName_bare, resolveFunction]

theorem evaluate_bare (e : Expr) : e.bare.evaluate p m = e.evaluate p m := by
  unfold bare
  split
  · rename_i ns n
    by_cases hns : ns = mathNamespace
    · subst hns
      rfl
    · rw [if_neg hns]
  · rfl

theorem evaluate_call (callee arg : Expr) :
    (call callee [arg] []).evaluate p m =
      if p.forbidsCalls m then .error (.forbidden .basicCall)
      else callee.resolveFunction >>= fun f => arg.evaluate p m >>= f.apply := by
  rw [evaluate]

/-- Erasing changes no value and no refusal. -/
theorem evaluate_erase (e : Expr) : e.erase.evaluate p m = e.evaluate p m := by
  fun_induction erase e with
  | case1 e ih => rw [ih, evaluate]
  | case2 op l r ihl ihr => rw [evaluate, evaluate, ihl, ihr]
  | case3 s e ih => rw [evaluate, evaluate, ih]
  | case4 callee arg ih => rw [evaluate_call, evaluate_call, resolveFunction_bare, ih]
  | case5 callee args keywords => rw [evaluate, evaluate, resolveFunction_bare]
  | case6 e => exact evaluate_bare e

/-! ### The way of an evaluation -/

/-- Evaluating the first expression comes to evaluate the second. -/
inductive Reaches (p : Policy) (m : Mode) : Expr → Expr → Prop
  | here (e : Expr) : Reaches p m e e
  | left (op : Operator) {l r s : Expr} (reaches : Reaches p m l s) :
      Reaches p m (.binary op l r) s
  | right (op : Operator) {l r s : Expr} {x : Float} (value : l.evaluate p m = .ok x)
      (reaches : Reaches p m r s) : Reaches p m (.binary op l r) s
  | operand (sign : Sign) {e s : Expr} (reaches : Reaches p m e s) :
      Reaches p m (.signed sign e) s
  | inner {e s : Expr} (reaches : Reaches p m e s) : Reaches p m (.group e) s
  | argument (f : Elementary) {callee arg s : Expr} (allowed : p.forbidsCalls m = false)
      (names : callee.Names f.name) (reaches : Reaches p m arg s) :
      Reaches p m (.call callee [arg] []) s

/-- What evaluation comes to and refuses is the refusal of the whole. -/
theorem Reaches.evaluate_eq_error {e s : Expr} {r : Refusal} (h : Reaches p m e s)
    (hs : s.evaluate p m = .error r) : e.evaluate p m = .error r := by
  induction h with
  | here => exact hs
  | left op _ ih =>
    rw [evaluate, ih hs]
    rfl
  | right op value _ ih =>
    rw [evaluate, value, ih hs]
    rfl
  | operand sign _ ih =>
    rw [evaluate, ih hs]
    rfl
  | inner _ ih => rw [evaluate, ih hs]
  | argument f allowed names _ ih =>
    rw [evaluate_call, allowed, resolveFunction_eq_ok_iff.mpr names, ih hs]
    rfl

/-- A group, a name behind the namespace, or a call of such a name. -/
inductive Wrapped : Expr → Prop
  | group (e : Expr) : Wrapped (.group e)
  | name (n : String) : Wrapped (.attribute (.name mathNamespace) n)
  | call (n : String) (args : List Expr) (keywords : List (String × Expr)) :
      Wrapped (.call (.attribute (.name mathNamespace) n) args keywords)

theorem bare_attribute (base : Expr) (n : String) :
    (Expr.attribute base n).bare = .attribute base n ∧ base ≠ .name mathNamespace ∨
      (Expr.attribute base n).bare = .name n := by
  unfold bare
  split
  · rename_i ns n' heq
    obtain ⟨rfl, rfl⟩ := heq
    by_cases hns : ns = mathNamespace
    · rw [if_pos hns]
      exact .inr rfl
    · rw [if_neg hns]
      exact .inl ⟨rfl, fun h => hns (name.inj h)⟩
  · rename_i hother
    refine .inl ⟨rfl, ?_⟩
    rintro rfl
    exact hother _ _ rfl

theorem bare_ne (e : Expr) (n : String) : e.bare ≠ .attribute (.name mathNamespace) n := by
  intro h
  cases e with
  | «attribute» base property =>
    obtain ⟨hbare, hbase⟩ | hbare := bare_attribute base property
    · rw [hbare] at h
      exact hbase (Expr.attribute.inj h).1
    · rw [hbare] at h
      cases h
  | _ => cases h

theorem not_wrapped_call_bare (callee : Expr) (args : List Expr)
    (keywords : List (String × Expr)) : ¬ Wrapped (.call callee.bare args keywords) := by
  intro h
  generalize hcallee : callee.bare = f at h
  cases h
  exact bare_ne callee _ hcallee

/-- In an erased expression evaluation comes to no group and to no namespace. -/
theorem Reaches.not_wrapped {e s : Expr} (h : Reaches p m e.erase s) : ¬ Wrapped s := by
  fun_induction erase e with
  | case1 e ih => exact ih h
  | case2 op l r ihl ihr =>
    cases h with
    | here => rintro ⟨⟩
    | left _ reaches => exact ihl reaches
    | right _ _ reaches => exact ihr reaches
  | case3 sign e ih =>
    cases h with
    | here => rintro ⟨⟩
    | operand _ reaches => exact ih reaches
  | case4 callee arg ih =>
    cases h with
    | here => exact not_wrapped_call_bare callee _ _
    | argument _ _ _ reaches => exact ih reaches
  | case5 callee args keywords hargs =>
    cases h with
    | here => exact not_wrapped_call_bare callee _ _
    | argument => exact (hargs _ rfl rfl).elim
  | case6 e hgroup hbinary hsigned hsingle hcall =>
    cases e with
    | group e => exact (hgroup e rfl).elim
    | binary op l r => exact (hbinary op l r rfl).elim
    | signed s e => exact (hsigned s e rfl).elim
    | call callee args keywords => exact (hcall callee args keywords rfl).elim
    | «attribute» base n =>
      have hne := bare_ne (.attribute base n)
      obtain ⟨hbare, -⟩ | hbare := bare_attribute base n
      · rw [hbare] at h hne
        cases h
        rintro ⟨⟩
        exact hne _ rfl
      · rw [hbare] at h
        cases h
        rintro ⟨⟩
    | _ =>
      cases h
      rintro ⟨⟩

/-! ### Two namespaces -/

/-- A name behind the namespace and the namespace once more. -/
def doublyQualified (n : String) : Expr :=
  .attribute (.attribute (.name mathNamespace) mathNamespace) n

theorem evaluate_doublyQualified (n : String) :
    (doublyQualified n).evaluate p m = .error (.forbidden (.attribute n)) := rfl

theorem evaluate_call_doublyQualified (n : String) (args : List Expr)
    (keywords : List (String × Expr)) :
    (call (doublyQualified n) args keywords).evaluate p m =
      .error (.forbidden (if p.forbidsCalls m then .basicCall else .attribute n)) := by
  rw [evaluate]
  split <;> rfl

end Expr

/-- **Groups and a single namespace make no difference**: without them, an expression has the same
value or the same refusal, and its evaluation comes to no group and to no namespace. Wherever an
evaluation comes to a name behind two namespaces, as a constant or as the function of a call, the
expression is refused as a forbidden construct. -/
theorem evaluate_erased (p : Policy) (m : Mode) (e : Expr) :
    e.erase.evaluate p m = e.evaluate p m ∧
    (∀ s, e.erase.Reaches p m s → ¬ s.Wrapped) ∧
    (∀ n, e.Reaches p m (.doublyQualified n) →
      e.evaluate p m = .error (.forbidden (.attribute n))) ∧
    ∀ n args keywords, e.Reaches p m (.call (.doublyQualified n) args keywords) →
      e.evaluate p m =
        .error (.forbidden (if p.forbidsCalls m then .basicCall else .attribute n)) := by
  refine ⟨e.evaluate_erase, fun s hs => hs.not_wrapped, ?_, ?_⟩
  · intro n hn
    exact hn.evaluate_eq_error (Expr.evaluate_doublyQualified n)
  · intro n args keywords hcall
    exact hcall.evaluate_eq_error (Expr.evaluate_call_doublyQualified n args keywords)

/-- Beside a constant in a group a root of a name behind two namespaces, and a call of one. -/
theorem evaluate_erased_sum :
    let math (n : String) : Expr := .attribute (.name "math") n
    let root : Expr := .binary .sum (.group (math "pi"))
      (.call (math "sqrt") [.group (.doublyQualified "e")] [])
    let called : Expr := .signed .minus (.call (.doublyQualified "sin") [] [])
    root.erase =
        .binary .sum (.name "pi") (.call (.name "sqrt") [.doublyQualified "e"] []) ∧
      root.erase.evaluate {} .basic = .error (.forbidden (.attribute "e")) ∧
      ¬ root.erase.Reaches {} .basic (.group (.doublyQualified "e")) ∧
      called.evaluate {} .basic = .error (.forbidden (.attribute "sin")) := by
  intro math root called
  have hroot : root.Reaches {} .basic (.doublyQualified "e") :=
    .right .sum (x := Constant.pi.value) rfl (.argument .sqrt rfl .qualified (.inner (.here _)))
  have hcalled : called.Reaches {} .basic (.call (.doublyQualified "sin") [] []) :=
    .operand .minus (.here _)
  obtain ⟨hsame, hunwrapped, hrefused, -⟩ := evaluate_erased {} .basic root
  refine ⟨rfl, ?_, fun h => hunwrapped _ h (.group _), ?_⟩
  · rw [hsame, hrefused "e" hroot]
  · exact (evaluate_erased {} .basic called).2.2.2 "sin" [] [] hcalled

end Reckoner
