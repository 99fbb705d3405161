import Reckoner.Evaluation
import Reckoner.Proofs.Expr.Subterms

/-!
# The whitelist

`Whitelisted p m e` lists what an expression may be made of under a policy and in a
mode: finite numbers, the two constants, arithmetic, groups, and calls of the six
functions with one argument. `evaluate_whitelist` says that evaluation is exactly
this list: whatever has a value is on it, and what is on it has a value or fails for
an arithmetical reason.
-/

namespace Reckoner

theorem bind_eq_ok_iff {a : Except ε α} {f : α → Except ε β} {y : β} :
    a >>= f = .ok y ↔ ∃ x, a = .ok x ∧ f x = .ok y := by
  cases a <;> simp [bind, Except.bind]

/-! ### Names -/

theorem Constant.ofName?_eq_some_iff {s : String} {c : Constant} :
    ofName? s = some c ↔ s = c.name := by
  constructor
  · intro h
    have hc : c.name = s := by simpa using List.find?_some h
    exact hc.symm
  · rintro rfl
    exact ofName?_name c

theorem Elementary.ofName?_eq_some_iff {s : String} {f : Elementary} :
    ofName? s = some f ↔ s = f.name := by
  constructor
  · intro h
    have hf : f.name = s := by simpa using List.find?_some h
    exact hf.symm
  · rintro rfl
    exact ofName?_name f

theorem Constant.ofName_eq_ok_iff {s : String} {c : Constant} :
    ofName s = .ok c ↔ s = c.name := by
  rw [← ofName?_eq_some_iff, ofName]
  cases ofName? s <;> simp

theorem Elementary.ofName_eq_ok_iff {s : String} {f : Elementary} :
    ofName s = .ok f ↔ s = f.name := by
  rw [← ofName?_eq_some_iff, ofName]
  cases ofName? s <;> simp

namespace Expr

/-- The expression is that name alone, or that name behind a single `math.`. -/
inductive Names (n : String) : Expr → Prop
  | bare : Names n (.name n)
  | qualified : Names n (.attribute (.name "math") n)

theorem resolveName_eq_ok_iff {e : Expr} {n : String} : e.resolveName = .ok n ↔ e.Names n := by
  constructor
  · intro h
    unfold resolveName at h
    split at h
    · obtain rfl : _ = n := by simpa using h
      exact .bare
    · split at h
      · rename_i hns
        subst hns
        obtain rfl : _ = n := by simpa using h
        exact .qualified
      · simp at h
    · simp at h
    · simp at h
  · rintro (_ | _) <;> rfl

theorem resolveConstant_eq_ok_iff {e : Expr} {c : Constant} :
    e.resolveConstant = .ok c ↔ e.Names c.name := by
  rw [← resolveName_eq_ok_iff]
  refine bind_eq_ok_iff.trans ?_
  simp only [Constant.ofName_eq_ok_iff, exists_eq_right]

theorem resolveFunction_eq_ok_iff {e : Expr} {f : Elementary} :
    e.resolveFunction = .ok f ↔ e.Names f.name := by
  rw [← resolveName_eq_ok_iff]
  refine bind_eq_ok_iff.trans ?_
  simp only [Elementary.ofName_eq_ok_iff, exists_eq_right]

/-! ### The list -/

/-- What may be evaluated under a policy in a mode. -/
inductive Whitelisted (p : Policy) (m : Mode) : Expr → Prop
  | number {x : Float} (finite : x.isFinite = true) : Whitelisted p m (.number x)
  | binary (op : Operator) {l r : Expr} (left : Whitelisted p m l) (right : Whitelisted p m r) :
      Whitelisted p m (.binary op l r)
  | signed (s : Sign) {e : Expr} (operand : Whitelisted p m e) : Whitelisted p m (.signed s e)
  | group {e : Expr} (inner : Whitelisted p m e) : Whitelisted p m (.group e)
  | constant (c : Constant) {e : Expr} (names : e.Names c.name) : Whitelisted p m e
  | call (f : Elementary) {callee arg : Expr} (allowed : ¬(m = .basic ∧ p.strictBasic = true))
      (names : callee.Names f.name) (argument : Whitelisted p m arg) :
      Whitelisted p m (.call callee [arg] [])

end Expr

theorem Policy.forbidsCalls_eq_true_iff {p : Policy} {m : Mode} :
    p.forbidsCalls m = true ↔ m = .basic ∧ p.strictBasic = true := by
  simp [forbidsCalls]

/-- Evaluation came to an end with a value or for an arithmetical reason. -/
inductive Settled : Except Refusal Float → Prop
  | value (x : Float) : Settled (.ok x)
  | divisionByZero : Settled (.error .divisionByZero)
  | undefined (cause : Undefined) : Settled (.error (.undefined cause))

theorem Settled.bind {a : Except Refusal Float} {f : Float → Except Refusal Float}
    (ha : Settled a) (hf : ∀ x, Settled (f x)) : Settled (a >>= f) := by
  cases ha with
  | value x => exact hf x
  | divisionByZero => exact .divisionByZero
  | undefined cause => exact .undefined cause

theorem Operator.settled_apply (op : Operator) (x y : Float) : Settled (op.apply x y) := by
  unfold Operator.apply
  split
  · exact .divisionByZero
  · dsimp only
    split
    · exact .undefined _
    · split
      · exact .undefined _
      · exact .value _

theorem Elementary.settled_apply (f : Elementary) (x : Float) : Settled (f.apply x) := by
  unfold Elementary.apply
  split
  · exact .value _
  · exact .undefined _

/-! ### Evaluation -/

namespace Expr

variable {p : Policy} {m : Mode}

theorem settled_evaluate_of_names {e : Expr} {c : Constant} (h : e.Names c.name) :
    Settled (e.evaluate p m) := by
  have hc := resolveConstant_eq_ok_iff.mpr h
  cases h with
  | bare =>
    rw [evaluate, hc]
    exact .value c.value
  | qualified =>
    rw [evaluate, hc]
    exact .value c.value

/-- What is on the list has a value or fails for an arithmetical reason. -/
theorem Whitelisted.settled {e : Expr} (h : Whitelisted p m e) : Settled (e.evaluate p m) := by
  induction h with
  | number hx =>
    rw [evaluate, if_pos hx]
    exact .value _
  | binary op _ _ ihl ihr =>
    rw [evaluate]
    exact ihl.bind fun x => ihr.bind fun y => op.settled_apply x y
  | signed s _ ih =>
    rw [evaluate]
    exact ih.bind fun x => .value (s.apply x)
  | group _ ih => rwa [evaluate]
  | constant c hc => exact settled_evaluate_of_names hc
  | call f hm hf _ ih =>
    rw [evaluate, if_neg (mt Policy.forbidsCalls_eq_true_iff.mp hm),
      resolveFunction_eq_ok_iff.mpr hf]
    exact ih.bind fun x => f.settled_apply x

/-- Whatever has a value is on the list. -/
theorem whitelisted_of_evaluate {e : Expr} {x : Float} (h : e.evaluate p m = .ok x) :
    Whitelisted p m e := by
  induction e using childrenInduction generalizing x with
  | step e ih =>
    cases e with
    | number y =>
      rw [evaluate] at h
      split at h
      · exact .number ‹_›
      · simp at h
    | binary op l r =>
      rw [evaluate, bind_eq_ok_iff] at h
      obtain ⟨y, hl, h⟩ := h
      obtain ⟨z, hr, -⟩ := bind_eq_ok_iff.mp h
      exact .binary op (ih l (by simp [children]) hl) (ih r (by simp [children]) hr)
    | signed s e =>
      rw [evaluate, bind_eq_ok_iff] at h
      obtain ⟨y, he, -⟩ := h
      exact .signed s (ih e (by simp [children]) he)
    | group e =>
      rw [evaluate] at h
      exact .group (ih e (by simp [children]) h)
    | name id =>
      rw [evaluate, bind_eq_ok_iff] at h
      obtain ⟨c, hc, -⟩ := h
      exact .constant c (resolveConstant_eq_ok_iff.mp hc)
    | «attribute» base property =>
      rw [evaluate, bind_eq_ok_iff] at h
      obtain ⟨c, hc, -⟩ := h
      exact .constant c (resolveConstant_eq_ok_iff.mp hc)
    | call callee args keywords =>
      rw [evaluate] at h
      split at h
      · simp at h
      · rename_i hm
        rw [bind_eq_ok_iff] at h
        obtain ⟨f, hf, h⟩ := h
        split at h
        · rename_i arg
          obtain ⟨y, hy, -⟩ := bind_eq_ok_iff.mp h
          exact .call f (mt Policy.forbidsCalls_eq_true_iff.mpr hm)
            (resolveFunction_eq_ok_iff.mp hf) (ih arg (by simp [children]) hy)
        · simp at h
    | _ => simp [evaluate] at h

end Expr

/-- **Evaluation is exactly the whitelist**: only what is on it has a value, and of what is on
it nothing fails but a division by zero or an operation without a finite result. -/
theorem evaluate_whitelist (p : Policy) (m : Mode) (e : Expr) :
    ((∃ x, e.evaluate p m = .ok x) → e.Whitelisted p m) ∧
      (e.Whitelisted p m → (∃ x, e.evaluate p m = .ok x) ∨
        e.evaluate p m = .error .divisionByZero ∨
        ∃ cause, e.evaluate p m = .error (.undefined cause)) := by
  constructor
  · rintro ⟨x, h⟩
    exact Expr.whitelisted_of_evaluate h
  · intro h
    generalize ha : e.evaluate p m = a
    have hs := h.settled
    rw [ha] at hs
    cases hs with
    | value x => exact .inl ⟨x, rfl⟩
    | divisionByZero => exact .inr (.inl rfl)
    | undefined cause => exact .inr (.inr ⟨cause, rfl⟩)

/-- A constant plus a function of the other one, in a strict advanced mode. -/
theorem evaluate_whitelist_sum :
    let p : Policy := { strictBasic := true }
    let e : Expr :=
      .binary .sum (.attribute (.name "math") "pi") (.call (.name "sqrt") [.name "e"] [])
    (∃ x, e.evaluate p .advanced = .ok x) ∨ e.evaluate p .advanced = .error .divisionByZero ∨
      ∃ cause, e.evaluate p .advanced = .error (.undefined cause) := by
  intro p e
  refine (evaluate_whitelist p .advanced e).2 (.binary .sum (.constant .pi .qualified) ?_)
  exact .call .sqrt (fun h => by cases h.1) .bare (.constant .e .bare)

end Reckoner
