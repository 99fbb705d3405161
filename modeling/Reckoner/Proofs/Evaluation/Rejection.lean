import Reckoner.Proofs.Evaluation.Finite

/-!
# Refusing without looking

Two expressions are alike if they are built in the same way but for places that evaluation
comes to and refuses for the root alone: what stands beneath may be anything (`Expr.Alike`).
They have the same result, and the same operators, signs and functions are applied to the
same numbers on the way to it (`evaluate_alike`).
-/

namespace Reckoner

namespace Expr

variable {p : Policy} {m : Mode}

/-! ### Places that are refused -/

/-- Whether expressions of the kind have no value, whatever they hold. -/
def Kind.isRejected : Kind → Bool
  | .text | .list | .subscript | .compare | .connect | .negate | .lambda | .assign => true
  | _ => false

/-- Two callees that name no function, for the same reason. -/
inductive AlikeCallees : Expr → Expr → Prop
  | nameless {callee callee' : Expr} (same : callee.kind = callee'.kind)
      (notName : callee.kind ≠ .name) (notAttribute : callee.kind ≠ .attribute) :
      AlikeCallees callee callee'
  | foreign (property : String) {base base' : Expr} (outside : base ≠ .name "math")
      (outside' : base' ≠ .name "math") :
      AlikeCallees (.attribute base property) (.attribute base' property)
  | unknown (id : String) {callee callee' : Expr} (names : callee.Names id)
      (names' : callee'.Names id) (missing : ∀ f : Elementary, f.name ≠ id) :
      AlikeCallees callee callee'

/-- Whether a call has too many or too few arguments for a function. -/
def Miscounted (args : List Expr) (keywords : List (String × Expr)) : Prop :=
  keywords ≠ [] ∨ args.length ≠ 1

/-- Two expressions that are built alike down to places that are refused for the same reason. -/
inductive Alike : Expr → Expr → Prop
  -- what evaluation looks into
  | number (x : Float) : Alike (.number x) (.number x)
  | name (id : String) : Alike (.name id) (.name id)
  | qualified (id : String) : Alike (.attribute (.name "math") id) (.attribute (.name "math") id)
  | binary (op : Operator) {l l' r r' : Expr} (left : Alike l l') (right : Alike r r') :
      Alike (.binary op l r) (.binary op l' r')
  | signed (s : Sign) {e e' : Expr} (operand : Alike e e') : Alike (.signed s e) (.signed s e')
  | group {e e' : Expr} (inner : Alike e e') : Alike (.group e) (.group e')
  | call (f : Elementary) {callee callee' arg arg' : Expr} (names : callee.Names f.name)
      (names' : callee'.Names f.name) (argument : Alike arg arg') :
      Alike (.call callee [arg] []) (.call callee' [arg'] [])
  -- what it refuses
  | construct {e e' : Expr} (same : e.kind = e'.kind) (rejected : e.kind.isRejected = true) :
      Alike e e'
  | foreign (property : String) {base base' : Expr} (outside : base ≠ .name "math")
      (outside' : base' ≠ .name "math") :
      Alike (.attribute base property) (.attribute base' property)
  | uncallable {callee callee' : Expr} (callees : AlikeCallees callee callee')
      (args args' : List Expr) (keywords keywords' : List (String × Expr)) :
      Alike (.call callee args keywords) (.call callee' args' keywords')
  | miscounted (f : Elementary) {callee callee' : Expr} (names : callee.Names f.name)
      (names' : callee'.Names f.name) {args args' : List Expr}
      {keywords keywords' : List (String × Expr)} (count : args.length = args'.length)
      (wrong : Miscounted args keywords) (wrong' : Miscounted args' keywords') :
      Alike (.call callee args keywords) (.call callee' args' keywords')

/-! ### What is alike -/

theorem AlikeCallees.or_of_names {callee callee' : Expr} {id : String} (h : callee.Names id)
    (h' : callee'.Names id) :
    AlikeCallees callee callee' ∨ ∃ f : Elementary, callee.Names f.name ∧ callee'.Names f.name := by
  by_cases hf : ∃ f : Elementary, f.name = id
  · obtain ⟨f, rfl⟩ := hf
    exact .inr ⟨f, h, h'⟩
  · exact .inl (.unknown id h h' fun f hid => hf ⟨f, hid⟩)

namespace Alike

/-- Expressions that are alike name the same function, or are refused alike as callees. -/
theorem callees {e e' : Expr} (h : Alike e e') :
    AlikeCallees e e' ∨ ∃ f : Elementary, e.Names f.name ∧ e'.Names f.name := by
  cases h with
  | name id => exact AlikeCallees.or_of_names .bare .bare
  | qualified id => exact AlikeCallees.or_of_names .qualified .qualified
  | foreign property outside outside' => exact .inl (.foreign property outside outside')
  | construct same rejected =>
    have hne (k : Kind) (hk : k.isRejected = false) : e.kind ≠ k := by
      rintro rfl
      rw [rejected] at hk
      cases hk
    exact .inl (.nameless same (hne .name rfl) (hne .attribute rfl))
  | _ => exact .inl (.nameless rfl (by simp [kind]) (by simp [kind]))

/-- Attributes of bases that are alike are alike. -/
theorem attribute_congr {base base' : Expr} (h : Alike base base') (property : String) :
    Alike (.attribute base property) (.attribute base' property) := by
  by_cases hbase : base = .name "math"
  · subst hbase
    cases h with
    | name => exact .qualified property
    | construct _ rejected => cases rejected
  · refine .foreign property hbase ?_
    rintro rfl
    cases h with
    | name => exact hbase rfl
    | construct same rejected =>
      rw [same] at rejected
      cases rejected

/-- Calls of callees and with arguments that are alike are alike. -/
theorem call_congr {callee callee' : Expr} {args args' : List Expr}
    {keywords keywords' : List (String × Expr)} (h : Alike callee callee')
    (hargs : List.Forall₂ Alike args args') (hkeywords : keywords.length = keywords'.length) :
    Alike (.call callee args keywords) (.call callee' args' keywords') := by
  obtain hcallees | ⟨f, hf, hf'⟩ := h.callees
  · exact .uncallable hcallees args args' keywords keywords'
  · by_cases hwrong : Miscounted args keywords
    · have hwrong' : Miscounted args' keywords' := by
        refine hwrong.imp (fun hne => ?_) (fun hne => hargs.length_eq ▸ hne)
        exact List.ne_nil_of_length_pos (hkeywords ▸ List.length_pos_iff.mpr hne)
      exact .miscounted f hf hf' hargs.length_eq hwrong hwrong'
    · -- one argument, which is the only one that is evaluated
      obtain ⟨hnone, hone⟩ := not_or.mp hwrong
      obtain rfl := not_not.mp hnone
      obtain rfl := List.length_eq_zero_iff.mp hkeywords.symm
      obtain ⟨arg, rfl⟩ := List.length_eq_one_iff.mp (not_not.mp hone)
      cases hargs with
      | cons harg hrest =>
        cases hrest
        exact .call f hf hf' harg

/-- Every expression is like itself. -/
theorem refl (e : Expr) : Alike e e := by
  induction e using childrenInduction with
  | step e ih =>
    cases e with
    | number x => exact .number x
    | name id => exact .name id
    | binary op l r => exact .binary op (ih l (by simp [children])) (ih r (by simp [children]))
    | signed s e => exact .signed s (ih e (by simp [children]))
    | group e => exact .group (ih e (by simp [children]))
    | «attribute» base property => exact attribute_congr (ih base (by simp [children])) property
    | call callee args keywords =>
      refine call_congr (ih callee (by simp [children])) ?_ rfl
      exact List.forall₂_same.mpr fun arg harg => ih arg (by simp [children, harg])
    | _ => exact .construct rfl rfl

end Alike

/-! ### Callees -/

theorem resolveName_of_kind {e : Expr} (hname : e.kind ≠ .name) (hattribute : e.kind ≠ .attribute) :
    e.resolveName = .error (.forbidden (.asName e.kind)) := by
  cases e with
  | name => exact (hname rfl).elim
  | «attribute» => exact (hattribute rfl).elim
  | _ => rfl

theorem resolveName_attribute {base : Expr} (h : base ≠ .name "math") (property : String) :
    (Expr.attribute base property).resolveName = .error (.forbidden (.attribute property)) := by
  cases base with
  | name ns => exact if_neg fun hns => h (congrArg name hns)
  | _ => rfl

theorem resolveFunction_of_missing {e : Expr} {id : String} (h : e.Names id)
    (hmissing : ∀ f : Elementary, f.name ≠ id) :
    e.resolveFunction = .error (.unknownName id) := by
  have hnone : Elementary.ofName? id = none := by
    refine Option.eq_none_iff_forall_ne_some.mpr fun f hf => ?_
    exact hmissing f (Elementary.ofName?_eq_some_iff.mp hf).symm
  rw [resolveFunction, resolveName_eq_ok_iff.mpr h]
  show Elementary.ofName id = _
  rw [Elementary.ofName, hnone]

/-- Callees that are refused alike are refused for the same reason. -/
theorem AlikeCallees.exists_refusal {callee callee' : Expr} (h : AlikeCallees callee callee') :
    ∃ r, callee.resolveFunction = .error r ∧ callee'.resolveFunction = .error r := by
  cases h with
  | nameless same notName notAttribute =>
    refine ⟨.forbidden (.asName callee.kind), ?_, ?_⟩
    · rw [resolveFunction, resolveName_of_kind notName notAttribute]
      rfl
    · rw [same] at notName notAttribute ⊢
      rw [resolveFunction, resolveName_of_kind notName notAttribute]
      rfl
  | foreign property outside outside' =>
    refine ⟨.forbidden (.attribute property), ?_, ?_⟩
    · rw [resolveFunction, resolveName_attribute outside]
      rfl
    · rw [resolveFunction, resolveName_attribute outside']
      rfl
  | unknown id names names' missing =>
    exact ⟨.unknownName id, resolveFunction_of_missing names missing,
      resolveFunction_of_missing names' missing⟩

/-! ### Records -/

theorem record_binary (op : Operator) (l r : Expr) :
    (binary op l r).record p m =
      l.record p m >>= fun x => r.record p m >>= fun y => Recorded.perform (.operator op x y) := rfl

theorem record_signed (s : Sign) (e : Expr) :
    (signed s e).record p m = e.record p m >>= fun x => Recorded.perform (.sign s x) := rfl

theorem record_group (e : Expr) : (group e).record p m = e.record p m := rfl

theorem record_call {callee : Expr} {f : Elementary} (h : callee.resolveFunction = .ok f)
    (arg : Expr) :
    (call callee [arg] []).record p m =
      if p.forbidsCalls m then ⟨[], .error (.forbidden .basicCall)⟩
      else arg.record p m >>= fun x => Recorded.perform (.function f x) := by
  rw [record, evaluateWith, h]
  split <;> rfl

/-! What is refused for the root alone has no applications in its record. -/

theorem record_of_isRejected {e : Expr} (h : e.kind.isRejected = true) :
    e.record p m = ⟨[], .error (.forbidden (.construct e.kind))⟩ := by
  cases e <;> first | rfl | cases h

theorem record_attribute {base : Expr} (h : base ≠ .name "math") (property : String) :
    (Expr.attribute base property).record p m =
      ⟨[], .error (.forbidden (.attribute property))⟩ := by
  rw [record, evaluateWith, resolveConstant, resolveName_attribute h]
  rfl

theorem record_call_of_error {callee : Expr} {r : Refusal} (h : callee.resolveFunction = .error r)
    (args : List Expr) (keywords : List (String × Expr)) :
    (call callee args keywords).record p m =
      ⟨[], .error (if p.forbidsCalls m then .forbidden .basicCall else r)⟩ := by
  rw [record, evaluateWith, h]
  split <;> rfl

theorem record_call_of_miscounted {callee : Expr} {f : Elementary} {args : List Expr}
    {keywords : List (String × Expr)} (h : callee.resolveFunction = .ok f)
    (hwrong : Miscounted args keywords) :
    (call callee args keywords).record p m =
      ⟨[], .error (if p.forbidsCalls m then .forbidden .basicCall else .arity f args.length)⟩ := by
  rw [record, evaluateWith, h]
  split
  · rfl
  · rcases args with _ | ⟨arg, _ | ⟨_, _⟩⟩
    · rfl
    · cases keywords with
      | nil => simp [Miscounted] at hwrong
      | cons => rfl
    · rfl

/-- Expressions that are alike have the same record. -/
theorem Alike.record_eq {e e' : Expr} (h : Alike e e') (p : Policy) (m : Mode) :
    e.record p m = e'.record p m := by
  induction h with
  | number => rfl
  | name => rfl
  | qualified => rfl
  | binary op _ _ ihl ihr => rw [record_binary, record_binary, ihl, ihr]
  | signed s _ ih => rw [record_signed, record_signed, ih]
  | group _ ih => rw [record_group, record_group, ih]
  | call f names names' _ ih =>
    rw [record_call (resolveFunction_eq_ok_iff.mpr names),
      record_call (resolveFunction_eq_ok_iff.mpr names'), ih]
  | construct same rejected =>
    rw [record_of_isRejected rejected, record_of_isRejected (same ▸ rejected), same]
  | foreign property outside outside' =>
    rw [record_attribute outside, record_attribute outside']
  | uncallable hcallees args args' keywords keywords' =>
    obtain ⟨r, hr, hr'⟩ := hcallees.exists_refusal
    rw [record_call_of_error hr, record_call_of_error hr']
  | miscounted f names names' count wrong wrong' =>
    rw [record_call_of_miscounted (resolveFunction_eq_ok_iff.mpr names) wrong,
      record_call_of_miscounted (resolveFunction_eq_ok_iff.mpr names') wrong', count]

end Expr

/-- **A refusal never looks beneath the refused place**: expressions that are alike have the same
value or the same refusal under every policy and in both modes, and the same applications are made
for it in the same order. -/
theorem evaluate_alike {e e' : Expr} (h : e.Alike e') (p : Policy) (m : Mode) :
    e.evaluate p m = e'.evaluate p m ∧
      (e.record p m).applications = (e'.record p m).applications := by
  have hrecord := h.record_eq p m
  refine ⟨?_, congrArg Recorded.applications hrecord⟩
  rw [← Expr.result_record, ← Expr.result_record, hrecord]

/-- A subscript beneath a root and a sign; what it is taken of and its index do not matter. -/
theorem evaluate_alike_subscript :
    let expression (base index : Expr) : Expr :=
      .binary .quotient (.signed .minus (.name "pi"))
        (.call (.attribute (.name "math") "sqrt") [.group (.subscript base index)] [])
    let division : Expr := .binary .quotient (.name "e") (.call (.name "pi") [] [])
    (expression (.name "pi") division).evaluate {} .basic =
        (expression (.text "x") (.list [])).evaluate {} .basic ∧
      ((expression (.name "pi") division).record {} .basic).applications =
        ((expression (.text "x") (.list [])).record {} .basic).applications := by
  intro expression division
  have hplace : Expr.Alike (.subscript (.name "pi") division) (.subscript (.text "x") (.list [])) :=
    .construct rfl rfl
  exact evaluate_alike (.binary .quotient (.refl _) (.call .sqrt .qualified .qualified
    (.group hplace))) {} .basic

end Reckoner
