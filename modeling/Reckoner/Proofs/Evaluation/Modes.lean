import Reckoner.Proofs.Evaluation.Whitelist

/-!
# The two modes

A policy and a mode enter an evaluation only at a call, where they may refuse it. An
evaluation that is refused more calls than another one either stops at such a refusal or
goes the same way (`Expr.gated_evaluate`). So the modes are one where the policy is not
strict, and where it is, the basic mode is the advanced one for what holds no call
(`evaluate_modes`).
-/

namespace Reckoner

/-! ### Stopping at a call -/

/-- The first result is the refusal of a call, or it is the second one. -/
def Gated (a b : Except Refusal α) : Prop := a = .error (.forbidden .basicCall) ∨ a = b

namespace Gated

theorem refl (a : Except Refusal α) : Gated a a := .inr rfl

theorem antisymm {a b : Except Refusal α} (h : Gated a b) (h' : Gated b a) : a = b := by
  rcases h with rfl | rfl
  · rcases h' with rfl | rfl
    · rfl
    · rfl
  · rfl

theorem bind {a b : Except Refusal α} {f g : α → Except Refusal β} (h : Gated a b)
    (hf : ∀ x, Gated (f x) (g x)) : Gated (a >>= f) (b >>= g) := by
  rcases h with rfl | rfl
  · exact .inl rfl
  · cases a with
    | error r => exact .inr rfl
    | ok x => exact hf x

theorem eq_ok {a b : Except Refusal α} {x : α} (h : Gated a b) (ha : a = .ok x) : b = .ok x := by
  rcases h with rfl | rfl
  · cases ha
  · exact ha

theorem eq_error {a b : Except Refusal α} {r : Refusal} (h : Gated a b) (ha : a = .error r)
    (hr : r ≠ .forbidden .basicCall) : b = .error r := by
  rcases h with rfl | rfl
  · exact (hr (Except.error.inj ha).symm).elim
  · exact ha

end Gated

/-! ### Calls in a tree -/

namespace Expr

variable {p q : Policy} {m n : Mode}

/-- No part of the tree is a call. -/
def HoldsNoCall (e : Expr) : Prop := ∀ s ∈ e.subterms, s.kind ≠ .call

theorem holdsNoCall_iff {e : Expr} :
    e.HoldsNoCall ↔ e.kind ≠ .call ∧ ∀ c ∈ e.children, c.HoldsNoCall :=
  forall_subterms_iff

/-- If every call in the tree that is refused in the second evaluation is refused in the first,
the first stops at a refused call or goes the same way. -/
theorem gated_evaluate {e : Expr} (h : ∀ s ∈ e.subterms, s.kind = .call →
    q.forbidsCalls n = true → p.forbidsCalls m = true) :
    Gated (e.evaluate p m) (e.evaluate q n) := by
  induction e using childrenInduction with
  | step e ih =>
    obtain ⟨hroot, hchildren⟩ := forall_subterms_iff.mp h
    replace ih : ∀ c ∈ e.children, Gated (c.evaluate p m) (c.evaluate q n) :=
      fun c hc => ih c hc (hchildren c hc)
    cases e with
    | binary op l r =>
      rw [evaluate, evaluate]
      refine (ih l (by simp [children])).bind fun x => ?_
      exact (ih r (by simp [children])).bind fun y => .refl _
    | signed s e =>
      rw [evaluate, evaluate]
      exact (ih e (by simp [children])).bind fun x => .refl _
    | group e =>
      rw [evaluate, evaluate]
      exact ih e (by simp [children])
    | call callee args keywords =>
      rw [evaluate, evaluate]
      -- the gate comes before the name and the arguments, so that no more of the call matters
      by_cases hp : p.forbidsCalls m = true
      · rw [if_pos hp]
        exact .inl rfl
      · rw [if_neg hp, if_neg (mt (hroot rfl) hp)]
        refine (Gated.refl _).bind fun f => ?_
        split
        · exact (ih _ (by simp [children])).bind fun x => .refl _
        · exact .refl _
    | _ => exact .refl _

/-- A tree has the same result wherever its calls, if it holds any, are refused alike. -/
theorem evaluate_congr {e : Expr}
    (h : ∀ s ∈ e.subterms, s.kind = .call → p.forbidsCalls m = q.forbidsCalls n) :
    e.evaluate p m = e.evaluate q n := by
  refine (gated_evaluate fun s hs hcall hq => ?_).antisymm (gated_evaluate fun s hs hcall hp => ?_)
  · rw [h s hs hcall, hq]
  · rw [← h s hs hcall, hp]

theorem Names.holdsNoCall {e : Expr} {id : String} (h : e.Names id) : e.HoldsNoCall := by
  have hbare (id : String) : (Expr.name id).HoldsNoCall :=
    holdsNoCall_iff.mpr ⟨by simp [kind], by simp [children]⟩
  cases h with
  | bare => exact hbare id
  | qualified => exact holdsNoCall_iff.mpr ⟨by simp [kind], by simpa [children] using hbare "math"⟩

/-- What may be evaluated where calls are refused holds no call. -/
theorem Whitelisted.holdsNoCall {e : Expr} (h : e.Whitelisted p m)
    (hp : p.forbidsCalls m = true) : e.HoldsNoCall := by
  induction h with
  | number => exact holdsNoCall_iff.mpr ⟨by simp [kind], by simp [children]⟩
  | binary op _ _ ihl ihr =>
    exact holdsNoCall_iff.mpr ⟨by simp [kind], by simpa [children] using ⟨ihl, ihr⟩⟩
  | signed s _ ih => exact holdsNoCall_iff.mpr ⟨by simp [kind], by simpa [children] using ih⟩
  | group _ ih => exact holdsNoCall_iff.mpr ⟨by simp [kind], by simpa [children] using ih⟩
  | constant c hc => exact hc.holdsNoCall
  | call f allowed => exact (allowed (Policy.forbidsCalls_eq_true_iff.mp hp)).elim

end Expr

/-! ### Both modes -/

/-- **The modes differ by the strict gate alone**: where the policy is not strict they agree on
every tree and every text. Where it is, the basic mode has exactly the values of the advanced one
for trees without calls, and whatever else it refuses than a call, the advanced mode refuses too
and for the same reason. -/
theorem evaluate_modes (p : Policy) :
    (p.strictBasic = false →
      (∀ e : Expr, e.evaluate p .basic = e.evaluate p .advanced) ∧
      ∀ text, p.evaluate .basic text = p.evaluate .advanced text) ∧
    (p.strictBasic = true → ∀ e : Expr,
      (∀ x, e.evaluate p .basic = .ok x ↔ e.evaluate p .advanced = .ok x ∧ e.HoldsNoCall) ∧
      ∀ r, e.evaluate p .basic = .error r → r ≠ .forbidden .basicCall →
        e.evaluate p .advanced = .error r) := by
  constructor
  · intro hp
    have htree (e : Expr) : e.evaluate p .basic = e.evaluate p .advanced :=
      Expr.evaluate_congr fun _ _ _ => by simp [Policy.forbidsCalls, hp]
    refine ⟨htree, fun text => ?_⟩
    unfold Policy.evaluate
    cases p.parse text with
    | error r => rfl
    | ok e => exact htree e
  · intro hp e
    have hbasic : p.forbidsCalls .basic = true := Policy.forbidsCalls_eq_true_iff.mpr ⟨rfl, hp⟩
    have hgated : Gated (e.evaluate p .basic) (e.evaluate p .advanced) :=
      Expr.gated_evaluate fun _ _ _ _ => hbasic
    refine ⟨fun x => ?_, fun r hr hne => hgated.eq_error hr hne⟩
    constructor
    · intro hx
      exact ⟨hgated.eq_ok hx, (Expr.whitelisted_of_evaluate hx).holdsNoCall hbasic⟩
    · rintro ⟨hx, hcalls⟩
      rw [← hx]
      exact Expr.evaluate_congr fun s hs hcall => (hcalls s hs hcall).elim

/-- A root in both modes of a policy that is not strict; under a strict one a constant without
calls, and an unknown name before a call. -/
theorem evaluate_modes_strict :
    let strict : Policy := { strictBasic := true }
    let constant : Expr := .signed .minus (.attribute (.name "math") "pi")
    let sum : Expr := .binary .sum (.name "x") (.call (.name "sqrt") [.name "e"] [])
    Policy.evaluate {} .basic "sqrt(pi)" = Policy.evaluate {} .advanced "sqrt(pi)" ∧
      constant.evaluate strict .basic = .ok (-Constant.pi.value) ∧
      sum.evaluate strict .advanced = .error (.unknownName "x") := by
  intro strict constant sum
  have hcalls : constant.HoldsNoCall := by
    refine Expr.holdsNoCall_iff.mpr ⟨by simp [constant, Expr.kind], ?_⟩
    simpa [constant, Expr.children] using (Expr.Names.qualified (n := "pi")).holdsNoCall
  refine ⟨((evaluate_modes {}).1 rfl).2 "sqrt(pi)", ?_, ?_⟩
  · exact (((evaluate_modes strict).2 rfl constant).1 _).mpr ⟨rfl, hcalls⟩
  · exact ((evaluate_modes strict).2 rfl sum).2 _ rfl (by simp)

end Reckoner
