import Reckoner.Expr

/-!
# The parts of an expression

`children` are the expressions directly below the root and `subterms` all expressions
in a tree, the tree itself among them. Every expression is built up from its children
(`childrenInduction`), and its depth is one more than the greatest depth among them
(`depth_le_succ_iff`).
-/

namespace Reckoner.Expr

/-! ### Children -/

/-- The expressions directly below the root, those behind keywords last. -/
def children : Expr → List Expr
  | .number _ | .text _ | .name _ => []
  | .list items => items
  | .binary _ l r | .compare _ l r | .connect _ l r | .subscript l r => [l, r]
  | .signed _ e | .negate e | .group e | .attribute e _ | .lambda _ e | .assign _ e => [e]
  | .call f args keywords => f :: (args ++ keywords.map Prod.snd)

theorem sizeOf_lt_of_mem_children {c e : Expr} (h : c ∈ e.children) : sizeOf c < sizeOf e := by
  cases e <;> simp only [children, List.not_mem_nil, List.mem_cons, List.mem_append, List.mem_map,
    or_false] at h
  case list items =>
    have := List.sizeOf_lt_of_mem h
    simp only [list.sizeOf_spec]
    omega
  case call f args keywords =>
    simp only [call.sizeOf_spec]
    rcases h with rfl | h | ⟨⟨k, e⟩, h, rfl⟩
    · omega
    · have := List.sizeOf_lt_of_mem h
      omega
    · have := List.sizeOf_lt_of_mem h
      simp only [Prod.mk.sizeOf_spec] at this
      show sizeOf e < _
      omega
  all_goals
    simp only [binary.sizeOf_spec, signed.sizeOf_spec, compare.sizeOf_spec, connect.sizeOf_spec,
      negate.sizeOf_spec, group.sizeOf_spec, attribute.sizeOf_spec, subscript.sizeOf_spec,
      lambda.sizeOf_spec, assign.sizeOf_spec]
    rcases h with rfl | rfl <;> omega

/-- What holds of an expression as soon as it holds of its children holds of every expression. -/
@[elab_as_elim]
theorem childrenInduction {motive : Expr → Prop}
    (step : ∀ e, (∀ c ∈ e.children, motive c) → motive e) (e : Expr) : motive e :=
  step e fun c _ => childrenInduction step c
termination_by sizeOf e
decreasing_by exact sizeOf_lt_of_mem_children ‹_›

/-! ### Subterms -/

mutual

/-- Every expression in a tree, the tree itself first. -/
def subterms (e : Expr) : List Expr :=
  e :: match e with
  | .number _ | .text _ | .name _ => []
  | .list items => allSubterms items
  | .binary _ l r | .compare _ l r | .connect _ l r | .subscript l r => l.subterms ++ r.subterms
  | .signed _ e | .negate e | .group e | .attribute e _ | .lambda _ e | .assign _ e => e.subterms
  | .call f args keywords => f.subterms ++ (allSubterms args ++ keywordSubterms keywords)

/-- The expressions in the trees of a list. -/
def allSubterms : List Expr → List Expr
  | [] => []
  | e :: es => e.subterms ++ allSubterms es

/-- The expressions in the trees behind keywords. -/
def keywordSubterms : List (String × Expr) → List Expr
  | [] => []
  | (_, e) :: es => e.subterms ++ keywordSubterms es

end

theorem allSubterms_eq (es : List Expr) : allSubterms es = es.flatMap subterms := by
  induction es with
  | nil => rfl
  | cons e es ih => rw [allSubterms, ih, List.flatMap_cons]

theorem keywordSubterms_eq (es : List (String × Expr)) :
    keywordSubterms es = (es.map Prod.snd).flatMap subterms := by
  induction es with
  | nil => rfl
  | cons e es ih => rw [keywordSubterms, ih, List.map_cons, List.flatMap_cons]

theorem subterms_eq (e : Expr) : e.subterms = e :: e.children.flatMap subterms := by
  cases e <;> simp [subterms, children, allSubterms_eq, keywordSubterms_eq]

/-- A property of all subterms is one of the root and of all subterms of the children. -/
theorem forall_subterms_iff {P : Expr → Prop} {e : Expr} :
    (∀ s ∈ e.subterms, P s) ↔ P e ∧ ∀ c ∈ e.children, ∀ s ∈ c.subterms, P s := by
  rw [subterms_eq, List.forall_mem_cons]
  simp only [List.mem_flatMap, forall_exists_index, and_imp]
  exact and_congr_right fun _ => ⟨fun h c hc s hs => h s c hc hs, fun h s c hc hs => h c hc s hs⟩

/-! ### Depth -/

theorem depths_le_iff {es : List Expr} {n : Nat} : depths es ≤ n ↔ ∀ e ∈ es, e.depth ≤ n := by
  induction es with
  | nil => simp [depths]
  | cons e es ih => rw [depths, Nat.max_le, ih, List.forall_mem_cons]

theorem keywordDepths_le_iff {es : List (String × Expr)} {n : Nat} :
    keywordDepths es ≤ n ↔ ∀ e ∈ es.map Prod.snd, e.depth ≤ n := by
  induction es with
  | nil => simp [keywordDepths]
  | cons e es ih => rw [keywordDepths, Nat.max_le, ih, List.map_cons, List.forall_mem_cons]

/-- The depth is one more than the greatest depth of a child. -/
theorem depth_le_succ_iff {e : Expr} {n : Nat} :
    e.depth ≤ n + 1 ↔ ∀ c ∈ e.children, c.depth ≤ n := by
  cases e <;>
    simp only [depth, children, depths_le_iff, keywordDepths_le_iff, Nat.add_le_add_iff_right,
      Nat.max_le, List.forall_mem_cons, List.forall_mem_append, List.not_mem_nil, and_true,
      false_implies, implies_true, Nat.le_add_left]

/-- A change that keeps the children, changed in the same way, keeps the depth. -/
theorem depth_eq_of_children {g : Expr → Expr} (hg : ∀ e, (g e).children = e.children.map g)
    (e : Expr) : (g e).depth = e.depth := by
  induction e using childrenInduction with
  | step e ih =>
    have hle (n : Nat) : (g e).depth ≤ n + 1 ↔ e.depth ≤ n + 1 := by
      rw [depth_le_succ_iff, depth_le_succ_iff, hg, List.forall_mem_map]
      exact forall₂_congr fun c hc => by rw [ih c hc]
    obtain ⟨m, hm⟩ := Nat.exists_eq_add_of_le' e.depth_pos
    obtain ⟨n, hn⟩ := Nat.exists_eq_add_of_le' (g e).depth_pos
    exact Nat.le_antisymm (hm ▸ (hle m).mpr (Nat.le_of_eq hm)) (hn ▸ (hle n).mp (Nat.le_of_eq hn))

end Reckoner.Expr
