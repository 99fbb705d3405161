import Reckoner.Expr.Reading
import Reckoner.Proofs.Nesting.Charge

/-!
# The bound of the scan, by recursion

The marks of a text are read as levels inside levels (`Brackets.ofText`): a level goes up to
the bracket that closes it, or to the end of the text, and a closing bracket without a partner
is passed over. The bound of such a tree of levels is defined by recursion. The scan has no
tree: it keeps the open levels on a stack and of a closed one only its bound, and it gives up
early. It comes to the same (`fits_iff_brackets`), since what a level adds to the scan depends
on its operators and on the greatest bound inside it alone (`Brackets.weight`).
-/

namespace Reckoner.Nesting

/-! ### Levels inside levels -/

/-- A level of a text: how many operators it has, and the levels that are opened in it. -/
inductive Brackets where
  | level (operators : Nat) (inside : List Brackets)

namespace Brackets

/-- The operators of the level, the greatest bound of a level inside it, and one more. -/
def bound : Brackets → Nat
  | .level operators inside => operators + (inside.map bound).foldr max 0 + 1

/-- A level with nothing in it. -/
def empty : Brackets := .level 0 []

/-- The level with one operator more. -/
def addOperator : Brackets → Brackets
  | .level operators inside => .level (operators + 1) inside

/-- The level with one more level in it. -/
def addLevel : Brackets → Brackets → Brackets
  | .level operators inside, l => .level operators (l :: inside)

/-- Reads a level up to the bracket that closes it, or to the end, and leaves what follows. -/
def inner : (ms : List Mark) → Brackets × { rest : List Mark // rest.length ≤ ms.length }
  | [] => (empty, ⟨[], Nat.le_refl _⟩)
  | .closing :: ms => (empty, ⟨ms, Nat.le_succ _⟩)
  | .operator :: ms =>
    let (b, ⟨rest, hrest⟩) := inner ms
    (b.addOperator, ⟨rest, Nat.le_succ_of_le hrest⟩)
  | .opening :: ms =>
    let (l, ⟨behind, hbehind⟩) := inner ms
    let (b, ⟨rest, hrest⟩) := inner behind
    (b.addLevel l, ⟨rest, Nat.le_succ_of_le (Nat.le_trans hrest hbehind)⟩)
termination_by ms => ms.length

/-- Reads the outermost level, which no bracket closes. -/
def outermost : List Mark → Brackets
  | [] => empty
  | .closing :: ms => outermost ms
  | .operator :: ms => (outermost ms).addOperator
  | .opening :: ms =>
    let (l, ⟨behind, _⟩) := inner ms
    (outermost behind).addLevel l
termination_by ms => ms.length

/-- The levels of a text. -/
def ofText (cs : List Char) : Brackets := outermost (marks ' ' cs)

/-! ### What a level adds to the scan -/

/-- The operators of a level and the greatest bound inside it. -/
def weight : Brackets → Level
  | .level operators inside => ⟨operators, (inside.map bound).foldr max 0⟩

theorem bound_weight (b : Brackets) : b.weight.bound = b.bound := by
  cases b with
  | level operators inside => rw [bound, weight, Level.bound]

theorem weight_empty : empty.weight = {} := rfl

theorem weight_addOperator (b : Brackets) : b.addOperator.weight = .join .operator b.weight := by
  cases b with
  | level operators inside => simp [addOperator, weight, Level.join, Level.operator, Nat.add_comm]

theorem weight_addLevel (b l : Brackets) :
    (b.addLevel l).weight = .join l.weight.bracketed b.weight := by
  cases b with
  | level operators inside =>
    rw [Level.bracketed, bound_weight]
    simp [addLevel, weight, Level.join]

variable (c : Level) (enclosing : List Level) (ms : List Mark)

/-- A level is closed before what follows it, and then adds its bound to the level around it. Where
the text ends first, the scan closes the level itself. -/
theorem bound_run_inner (parent : Level) :
    (Scan.run ⟨c, parent :: enclosing⟩ ms).bound =
      (Scan.run ⟨parent.enclose (c.join (inner ms).1.weight), enclosing⟩ (inner ms).2).bound := by
  fun_induction inner ms generalizing c parent enclosing with
  | case1 => simp [weight_empty, Scan.bound]
  | case2 ms => simp [weight_empty, Scan.step]
  | case3 ms b rest hrest hb ih =>
    rw [Scan.run_cons, Scan.step_operator, weight_addOperator, ← Level.join_assoc]
    exact (ih ..).trans (by rw [hb])
  | case4 ms l behind hbehind hl b rest hrest hb ihl ihb =>
    rw [weight_addLevel, ← Level.join_assoc]
    calc (Scan.run ⟨c, parent :: enclosing⟩ (.opening :: ms)).bound
        = (Scan.run ⟨c.join l.weight.bracketed, parent :: enclosing⟩ behind).bound := by
          have := ihl {} (parent :: enclosing) c
          rwa [hl, Level.empty_join, Level.enclose_eq] at this
      _ = _ := (ihb ..).trans (by rw [hb])

theorem bound_run_outermost :
    (Scan.run ⟨c, []⟩ ms).bound = (c.join (outermost ms).weight).bound := by
  fun_induction outermost ms generalizing c with
  | case1 => simp [weight_empty, Scan.bound]
  | case2 ms ih => exact ih c
  | case3 ms ih =>
    rw [Scan.run_cons, Scan.step_operator, weight_addOperator, ← Level.join_assoc]
    exact ih _
  | case4 ms l behind hbehind hl ih =>
    rw [weight_addLevel, ← Level.join_assoc, ← ih]
    have := bound_run_inner {} [] ms c
    rwa [hl, Level.empty_join, Level.enclose_eq] at this

/-- The scan computes the bound of the tree of levels. -/
theorem bound_ofText (cs : List Char) : (ofText cs).bound = Nesting.bound cs := by
  have := bound_run_outermost {} (marks ' ' cs)
  rw [Level.empty_join, bound_weight] at this
  exact this.symm

end Brackets

/-! ### The early exit -/

/-- Where the levels that are open leave no room, the bound of all levels is beyond the limit. -/
theorem Scan.lt_bound_of_no_room {limit : Nat} {s : Scan} (h : s.hasRoom limit = false)
    (ms : List Mark) : limit < (s.run ms).bound := by
  by_contra hle
  have hroom := hasRoom_of_bound_le (Nat.le_trans (s.bound_le_run ms) (Nat.le_of_not_lt hle))
  rw [h] at hroom
  cases hroom

/-- Only the scan refuses a text for its nesting before there is a tree. -/
theorem ofChars_eq_nested_iff {limit : Nat} {cs : List Char} :
    Expr.ofChars limit cs = .error (.nested limit) ↔
      cs.all Text.isWhite = false ∧ fits limit cs = false := by
  unfold Expr.ofChars
  cases cs.all Text.isWhite with
  | true => simp
  | false =>
    cases fits limit cs with
    | false => simp
    | true =>
      simp only [Bool.false_eq_true, if_false, Bool.not_true]
      split
      · simp
      · split
        · simp
        · split
          · simp
          · split <;> simp

/-- **The scan computes the bound of the levels.** A text passes the scan under a limit if and only
if the bound of its levels, defined by recursion, is within the limit, and a text that is not blank
is refused for its nesting otherwise. Where the scan gives up early, the bound is beyond the limit
whatever follows. -/
theorem fits_iff_brackets (limit : Nat) (cs : List Char) :
    (fits limit cs = true ↔ (Brackets.ofText cs).bound ≤ limit) ∧
      (Expr.ofChars limit cs = .error (.nested limit) ↔
        cs.all Text.isWhite = false ∧ limit < (Brackets.ofText cs).bound) ∧
      ∀ ms ns, marks ' ' cs = ms ++ ns → (Scan.run {} ms).hasRoom limit = false →
        limit < (Brackets.ofText cs).bound := by
  have hfits : fits limit cs = true ↔ (Brackets.ofText cs).bound ≤ limit := by
    rw [Brackets.bound_ofText]
    exact fits_iff
  refine ⟨hfits, ?_, fun ms ns hsplit hroom => ?_⟩
  · rw [ofChars_eq_nested_iff, ← Bool.not_eq_true (fits limit cs), hfits, Nat.not_le]
  · rw [Brackets.bound_ofText, Nesting.bound, hsplit, Scan.run_append]
    exact Scan.lt_bound_of_no_room hroom ns

/-- The scan gives up behind the second bracket, though both are closed later. -/
theorem fits_iff_brackets_closed_later :
    marks ' ' "((1))".toList = [.opening, .opening] ++ [.closing, .closing] ∧
      (Scan.run {} [.opening, .opening]).hasRoom 2 = false ∧
        2 < (Brackets.ofText "((1))".toList).bound := by
  have hmarks : marks ' ' "((1))".toList = [.opening, .opening] ++ [.closing, .closing] := by
    decide +kernel
  have hroom : (Scan.run {} [.opening, .opening]).hasRoom 2 = false := rfl
  exact ⟨hmarks, hroom, (fits_iff_brackets 2 _).2.2 _ _ hmarks hroom⟩

end Reckoner.Nesting
