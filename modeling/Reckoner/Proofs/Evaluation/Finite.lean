import Reckoner.Evaluation
import Reckoner.Proofs.Evaluation.Whitelist
import Reckoner.Proofs.Expr.Acceptance

/-!
# Evaluation stays finite

Nothing checks the operands where an operator, a sign or a function is applied. To speak
of these applications the evaluation is carried out in any monad that can refuse and
apply (`Expr.evaluateWith`): one that only applies gives `Expr.evaluate` back, and one
that also keeps a record (`Recorded`) shows which numbers enter an application. They are
finite, whatever the tree, and so is the value (`evaluate_finite`). A text cannot bring a
number in that is not finite, so no text is refused for such a literal.
-/

namespace Reckoner

/-! ### Finite doubles -/

theorem isFinite_iff {x : Float} : x.isFinite = true ↔ x.isNaN = false ∧ x.isInf = false := by
  show x.toModel.unpack.isFinite = true ↔
    x.toModel.unpack.isNaN = false ∧ x.toModel.unpack.isInf = false
  cases x.toModel.unpack <;>
    simp [Float.Model.UnpackedFloat.isFinite, Float.Model.UnpackedFloat.isNaN,
      Float.Model.UnpackedFloat.isInf]

theorem isFinite_neg {x : Float} (h : x.isFinite = true) : (-x).isFinite = true := by
  replace h : x.toModel.unpack.isFinite = true := h
  show (Float.Model.pack (Float.Model.UnpackedFloat.neg x.toModel.unpack)).unpack.isFinite = true
  generalize hu : x.toModel.unpack = u at h ⊢
  cases u with
  | notANumber => cases h
  | infinity s => cases h
  | zero s => cases s <;> decide
  | finite s m e hm =>
    obtain ⟨hcanonical, he⟩ := canonical_of_unpack hu
    rw [Float.Model.UnpackedFloat.neg, unpack_pack hcanonical he]
    rfl

theorem Constant.isFinite_value (c : Constant) : c.value.isFinite = true := by
  cases c <;> rfl

theorem Sign.isFinite_apply (s : Sign) {x : Float} (h : x.isFinite = true) :
    (s.apply x).isFinite = true := by
  cases s with
  | plus => exact h
  | minus => exact isFinite_neg h

theorem Operator.isFinite_of_apply_eq_ok {op : Operator} {x y z : Float}
    (h : op.apply x y = .ok z) : z.isFinite = true := by
  unfold Operator.apply at h
  split at h
  · cases h
  · dsimp only at h
    split at h
    · cases h
    · split at h
      · cases h
      · obtain rfl := Except.ok.inj h
        exact isFinite_iff.mpr ⟨Bool.eq_false_of_not_eq_true ‹_›, Bool.eq_false_of_not_eq_true ‹_›⟩

theorem Elementary.isFinite_of_apply_eq_ok {f : Elementary} {x y : Float}
    (h : f.apply x = .ok y) : y.isFinite = true := by
  unfold Elementary.apply at h
  split at h
  · rename_i hf
    obtain rfl := Except.ok.inj h
    exact (Bool.and_eq_true_iff.mp hf).2
  · cases h

/-! ### Applications -/

/-- The use of an operator, a sign or a function on numbers. -/
inductive Application where
  | operator (op : Operator) (x y : Float)
  | sign (s : Sign) (x : Float)
  | function (f : Elementary) (x : Float)

namespace Application

/-- The numbers that are used. -/
def operands : Application → List Float
  | .operator _ x y => [x, y]
  | .sign _ x | .function _ x => [x]

/-- What the use comes to. -/
def result : Application → Except Refusal Float
  | .operator op x y => op.apply x y
  | .sign s x => .ok (s.apply x)
  | .function f x => f.apply x

theorem isFinite_of_result_eq_ok {a : Application} {y : Float}
    (ha : ∀ x ∈ a.operands, x.isFinite = true) (h : a.result = .ok y) : y.isFinite = true := by
  cases a with
  | operator op x z => exact Operator.isFinite_of_apply_eq_ok h
  | sign s x =>
    obtain rfl := Except.ok.inj h
    exact s.isFinite_apply (ha x List.mem_cons_self)
  | function f x => exact Elementary.isFinite_of_apply_eq_ok h

end Application

/-- The value of an expression in a monad that can refuse, every application left to `perform`. -/
def Expr.evaluateWith {M : Type → Type} [Monad M] [MonadLiftT (Except Refusal) M]
    (perform : Application → M Float) (p : Policy) (m : Mode) : Expr → M Float
  | .number x =>
    if x.isFinite then pure x else liftM (m := Except Refusal) (.error (.undefined (.literal x)))
  | .binary op l r => do
    let x ← l.evaluateWith perform p m
    let y ← r.evaluateWith perform p m
    perform (.operator op x y)
  | .signed s e => do
    let x ← e.evaluateWith perform p m
    perform (.sign s x)
  | .group e => e.evaluateWith perform p m
  | .name id => return (← liftM (Expr.name id).resolveConstant).value
  | .attribute base property =>
    return (← liftM (Expr.attribute base property).resolveConstant).value
  | .call callee args keywords =>
    if p.forbidsCalls m then liftM (m := Except Refusal) (.error (.forbidden .basicCall))
    else do
      let f ← liftM callee.resolveFunction
      match args, keywords with
      | [arg], [] => do
        let x ← arg.evaluateWith perform p m
        perform (.function f x)
      | _, _ => liftM (m := Except Refusal) (.error (.arity f args.length))
  | e => liftM (m := Except Refusal) (.error (.forbidden (.construct e.kind)))

/-- Taking the results out of a monad that can refuse and apply, with the applications done. -/
structure Interprets {M : Type → Type} [Monad M] [MonadLiftT (Except Refusal) M]
    (perform : Application → M Float) (run : ∀ {α : Type}, M α → Except Refusal α) : Prop where
  pure : ∀ {α} (x : α), run (pure x) = .ok x
  bind : ∀ {α β} (a : M α) (f : α → M β), run (a >>= f) = run a >>= fun x => run (f x)
  lift : ∀ {α} (a : Except Refusal α), run (liftM a) = a
  perform : ∀ a, run (perform a) = a.result

theorem Interprets.run_evaluateWith {M : Type → Type} [Monad M] [MonadLiftT (Except Refusal) M]
    {perform : Application → M Float} {run : ∀ {α : Type}, M α → Except Refusal α}
    (h : Interprets perform run) (p : Policy) (m : Mode) (e : Expr) :
    run (e.evaluateWith perform p m) = e.evaluate p m := by
  induction e using Expr.childrenInduction with
  | step e ih =>
    cases e with
    | number x =>
      rw [Expr.evaluateWith, Expr.evaluate]
      split
      · exact h.pure x
      · exact h.lift _
    | binary op l r =>
      rw [Expr.evaluateWith, Expr.evaluate, h.bind, ih l (by simp [Expr.children])]
      congr 1
      funext x
      rw [h.bind, ih r (by simp [Expr.children])]
      congr 1
      funext y
      exact h.perform _
    | signed s e =>
      rw [Expr.evaluateWith, Expr.evaluate, h.bind, ih e (by simp [Expr.children])]
      congr 1
      funext x
      exact h.perform _
    | group e =>
      rw [Expr.evaluateWith, Expr.evaluate, ih e (by simp [Expr.children])]
    | name id =>
      rw [Expr.evaluateWith, Expr.evaluate, h.bind, h.lift]
      congr 1
      funext c
      exact h.pure _
    | «attribute» base property =>
      rw [Expr.evaluateWith, Expr.evaluate, h.bind, h.lift]
      congr 1
      funext c
      exact h.pure _
    | call callee args keywords =>
      rw [Expr.evaluateWith, Expr.evaluate]
      split
      · exact h.lift _
      · rw [h.bind, h.lift]
        congr 1
        funext f
        -- only one positional argument and no other one is evaluated
        rcases args with _ | ⟨arg, _ | ⟨_, _⟩⟩
        · exact h.lift _
        · cases keywords with
          | nil =>
            show run (arg.evaluateWith perform p m >>= fun x => perform (.function f x)) = _
            rw [h.bind, ih arg (by simp [Expr.children])]
            congr 1
            funext x
            exact h.perform _
          | cons _ _ => exact h.lift _
        · exact h.lift _
    | _ =>
      rw [Expr.evaluateWith, Expr.evaluate]
      · exact h.lift _
      all_goals simp

/-- With the applications done at once, this is evaluation. -/
theorem Expr.evaluateWith_result (p : Policy) (m : Mode) (e : Expr) :
    e.evaluateWith Application.result p m = e.evaluate p m := by
  have hinterprets : Interprets (M := Except Refusal) Application.result fun a => a :=
    ⟨fun _ => rfl, fun _ _ => rfl, fun _ => rfl, fun _ => rfl⟩
  exact hinterprets.run_evaluateWith p m e

/-! ### The record of an evaluation -/

/-- What a calculation comes to, with the applications that were made for it. -/
structure Recorded (α : Type) where
  applications : List Application
  result : Except Refusal α

namespace Recorded

instance : Monad Recorded where
  pure x := ⟨[], .ok x⟩
  bind a f :=
    match a.result with
    | .ok x => ⟨a.applications ++ (f x).applications, (f x).result⟩
    | .error r => ⟨a.applications, .error r⟩

instance : MonadLift (Except Refusal) Recorded where
  monadLift a := ⟨[], a⟩

/-- The application is made and recorded. -/
def perform (a : Application) : Recorded Float := ⟨[a], a.result⟩

theorem result_bind (a : Recorded α) (f : α → Recorded β) :
    (a >>= f).result = a.result >>= fun x => (f x).result := by
  show (match a.result with
    | .ok x => Recorded.mk (a.applications ++ (f x).applications) (f x).result
    | .error r => ⟨a.applications, .error r⟩).result = _
  cases a.result <;> rfl

theorem interprets_perform : Interprets perform result where
  pure _ := rfl
  bind := result_bind
  lift _ := rfl
  perform _ := rfl

/-- Only finite numbers enter an application, and the result is as the condition says. -/
structure Keeps (P : α → Prop) (a : Recorded α) : Prop where
  operands : ∀ u ∈ a.applications, ∀ x ∈ u.operands, x.isFinite = true
  result : ∀ x, a.result = .ok x → P x

namespace Keeps

variable {P : α → Prop} {Q : β → Prop}

theorem pure {x : α} (h : P x) : Keeps P (pure x) where
  operands _ hu := by cases hu
  result y hy := by
    obtain rfl := Except.ok.inj hy
    exact h

theorem lift {a : Except Refusal α} (h : ∀ x, a = .ok x → P x) : Keeps P (liftM a) where
  operands _ hu := by cases hu
  result := h

theorem perform {a : Application} (h : ∀ x ∈ a.operands, x.isFinite = true) :
    Keeps (fun x => x.isFinite = true) (Recorded.perform a) where
  operands u hu := by
    obtain rfl := List.mem_singleton.mp hu
    exact h
  result _ hy := Application.isFinite_of_result_eq_ok h hy

theorem bind {a : Recorded α} {f : α → Recorded β} (ha : Keeps P a)
    (hf : ∀ x, P x → Keeps Q (f x)) : Keeps Q (a >>= f) := by
  obtain ⟨us, r⟩ := a
  cases r with
  | error r => exact ⟨ha.operands, fun x hx => by cases hx⟩
  | ok x =>
    have hx := hf x (ha.result x rfl)
    refine ⟨fun u hu => ?_, hx.result⟩
    rcases List.mem_append.mp hu with hu | hu
    · exact ha.operands u hu
    · exact hx.operands u hu

end Keeps

end Recorded

namespace Expr

variable {p : Policy} {m : Mode}

/-- The evaluation of an expression with the record of its applications. -/
def record (p : Policy) (m : Mode) (e : Expr) : Recorded Float :=
  e.evaluateWith Recorded.perform p m

theorem result_record (p : Policy) (m : Mode) (e : Expr) :
    (e.record p m).result = e.evaluate p m :=
  Recorded.interprets_perform.run_evaluateWith p m e

theorem keeps_record (p : Policy) (m : Mode) (e : Expr) :
    (e.record p m).Keeps fun x => x.isFinite = true := by
  have constant (a : Except Refusal Constant) :
      Recorded.Keeps (fun x => x.isFinite = true) (liftM a >>= fun c => pure c.value) :=
    (Recorded.Keeps.lift fun _ _ => trivial).bind fun c _ => .pure c.isFinite_value
  induction e using childrenInduction with
  | step e ih =>
    unfold record at ih ⊢
    cases e with
    | number x =>
      rw [evaluateWith]
      split
      · exact .pure ‹_›
      · exact .lift fun _ h => by cases h
    | binary op l r =>
      rw [evaluateWith]
      refine (ih l (by simp [children])).bind fun x hx => ?_
      refine (ih r (by simp [children])).bind fun y hy => .perform ?_
      simp [Application.operands, hx, hy]
    | signed s e =>
      rw [evaluateWith]
      refine (ih e (by simp [children])).bind fun x hx => .perform ?_
      simp [Application.operands, hx]
    | group e =>
      rw [evaluateWith]
      exact ih e (by simp [children])
    | name id =>
      rw [evaluateWith]
      exact constant _
    | «attribute» base property =>
      rw [evaluateWith]
      exact constant _
    | call callee args keywords =>
      rw [evaluateWith]
      split
      · exact .lift fun _ h => by cases h
      · refine (Recorded.Keeps.lift fun _ _ => trivial).bind fun f _ => ?_
        split
        · refine (ih _ (by simp [children])).bind fun x hx => .perform ?_
          simp [Application.operands, hx]
        · exact .lift fun _ h => by cases h
    | _ =>
      rw [evaluateWith]
      · exact .lift fun _ h => by cases h
      all_goals simp

end Expr

/-! ### Literals -/

theorem bind_eq_error_iff {a : Except ε α} {f : α → Except ε β} {r : ε} :
    a >>= f = .error r ↔ a = .error r ∨ ∃ x, a = .ok x ∧ f x = .error r := by
  cases a <;> simp [bind, Except.bind]

/-- It is not refused for a literal that is not finite. -/
def Spares (a : Except Refusal α) : Prop := ∀ x, a ≠ .error (.undefined (.literal x))

namespace Spares

theorem ok (x : α) : Spares (.ok x) := fun _ h => by cases h

theorem bind {a : Except Refusal α} {f : α → Except Refusal β} (ha : Spares a)
    (hf : ∀ x, Spares (f x)) : Spares (a >>= f) := by
  intro z h
  obtain h | ⟨x, -, h⟩ := bind_eq_error_iff.mp h
  · exact ha z h
  · exact hf x z h

end Spares

theorem Operator.spares_apply (op : Operator) (x y : Float) : Spares (op.apply x y) := by
  intro z
  unfold Operator.apply
  split
  · simp
  · dsimp only
    split
    · simp
    · split <;> simp

theorem Elementary.spares_apply (f : Elementary) (x : Float) : Spares (f.apply x) := by
  intro z
  unfold Elementary.apply
  split <;> simp

theorem Constant.spares_ofName (id : String) : Spares (Constant.ofName id) := by
  intro z
  unfold Constant.ofName
  split <;> simp

theorem Elementary.spares_ofName (id : String) : Spares (Elementary.ofName id) := by
  intro z
  unfold Elementary.ofName
  split <;> simp

theorem Policy.spares_parse (p : Policy) (text : String) : Spares (p.parse text) := by
  intro z
  unfold parse
  split
  · simp
  · cases Expr.ofChars p.maxDepth (Text.expandCarets text.toList) <;> simp [Except.mapError]

namespace Expr

variable {p : Policy} {m : Mode}

theorem spares_resolveName (e : Expr) : Spares e.resolveName := by
  intro z
  unfold resolveName
  split
  · simp
  · split <;> simp
  · simp
  · simp

theorem spares_resolveConstant (e : Expr) : Spares e.resolveConstant :=
  e.spares_resolveName.bind Constant.spares_ofName

theorem spares_resolveFunction (e : Expr) : Spares e.resolveFunction :=
  e.spares_resolveName.bind Elementary.spares_ofName

/-- No expression with finite leaves is refused for one. -/
theorem spares_evaluate {e : Expr}
    (h : ∀ s ∈ e.subterms, ∀ x, s = .number x → x.isFinite = true) :
    Spares (e.evaluate p m) := by
  induction e using childrenInduction with
  | step e ih =>
    obtain ⟨hroot, hchildren⟩ := forall_subterms_iff.mp h
    replace ih : ∀ c ∈ e.children, Spares (c.evaluate p m) := fun c hc => ih c hc (hchildren c hc)
    cases e with
    | number x =>
      rw [evaluate, if_pos (hroot x rfl)]
      exact .ok x
    | binary op l r =>
      rw [evaluate]
      refine (ih l (by simp [children])).bind fun x => ?_
      exact (ih r (by simp [children])).bind fun y => op.spares_apply x y
    | signed s e =>
      rw [evaluate]
      exact (ih e (by simp [children])).bind fun x => .ok _
    | group e =>
      rw [evaluate]
      exact ih e (by simp [children])
    | name id =>
      rw [evaluate]
      exact (spares_resolveConstant _).bind fun c => .ok _
    | «attribute» base property =>
      rw [evaluate]
      exact (spares_resolveConstant _).bind fun c => .ok _
    | call callee args keywords =>
      rw [evaluate]
      split
      · exact fun _ h => by cases h
      · refine callee.spares_resolveFunction.bind fun f => ?_
        split
        · exact (ih _ (by simp [children])).bind fun x => f.spares_apply x
        · exact fun _ h => by cases h
    | _ =>
      rw [evaluate]
      · exact fun _ h => by cases h
      all_goals simp

/-- The leaves of what is read from a text are finite. -/
theorem isFinite_of_canonical {e s : Expr} {x : Float} (he : e.canonical = true)
    (hs : s ∈ e.subterms) (hx : s = .number x) : x.isFinite = true := by
  subst hx
  have hspelled := (Bool.and_eq_true_iff.mp he).2
  exact Token.isFinite_of_isMagnitude (List.all_eq_true.mp hspelled _ hs)

end Expr

theorem Policy.spares_evaluate (p : Policy) (m : Mode) (text : String) :
    Spares (p.evaluate m text) := by
  intro z h
  obtain h | ⟨e, hparse, h⟩ := bind_eq_error_iff.mp h
  · exact p.spares_parse text z h
  · obtain ⟨-, ts, hsaid, -⟩ := parse_eq_ok_iff.mp hparse
    have hleaves : ∀ s ∈ e.subterms, ∀ x, s = .number x → x.isFinite = true :=
      fun s hs x hx => Expr.isFinite_of_canonical hsaid.canonical hs hx
    exact Expr.spares_evaluate hleaves z h

/-- **Evaluation stays finite**: the record of an evaluation comes to the same as evaluation and as
doing the applications at once, every number that enters an application is finite and so is the
value, and no text is refused for a literal that is not finite. -/
theorem evaluate_finite (p : Policy) (m : Mode) (e : Expr) :
    e.evaluateWith Application.result p m = e.evaluate p m ∧
      (e.record p m).result = e.evaluate p m ∧
      (∀ a ∈ (e.record p m).applications, ∀ x ∈ a.operands, x.isFinite = true) ∧
      (∀ x, e.evaluate p m = .ok x → x.isFinite = true) ∧
      ∀ text x, p.evaluate m text ≠ .error (.undefined (.literal x)) := by
  have hkeeps := e.keeps_record p m
  refine ⟨e.evaluateWith_result p m, e.result_record p m, hkeeps.operands, fun x hx => ?_,
    p.spares_evaluate m⟩
  rw [← e.result_record p m] at hx
  exact hkeeps.result x hx

/-- A number enters the negation of a constant and one leaves it. -/
theorem evaluate_finite_negated_pi :
    let e : Expr := .signed .minus (.name "pi")
    e.evaluate {} .basic = .ok (-Constant.pi.value) ∧
      (-Constant.pi.value).isFinite = true ∧
      Application.sign .minus Constant.pi.value ∈ (e.record {} .basic).applications ∧
      Constant.pi.value.isFinite = true := by
  intro e
  have hvalue : e.evaluate {} .basic = .ok (-Constant.pi.value) := rfl
  have hused : Application.sign .minus Constant.pi.value ∈ (e.record {} .basic).applications :=
    List.mem_singleton.mpr rfl
  obtain ⟨-, -, hoperands, hfinite, -⟩ := evaluate_finite {} .basic e
  exact ⟨hvalue, hfinite _ hvalue, hused, hoperands _ hused _ List.mem_cons_self⟩

end Reckoner
