import Reckoner.Proofs.Expr.Subterms
import Reckoner.Number.Binary
import Reckoner.Token

/-!
# The shape of a written expression

Not every tree is what some text says. The levels of precedence order the constructs,
from single pieces to assignments, and a tree is `shaped` if each operand has a level
that its place admits. A lambda reaches as far to the right as it can, so an expression
that ends in one (`endsOpen`) is no left operand and has no call, subscript or attribute.

A tree is `canonical` if moreover its leaves can be spelled: numbers are finite and have
no minus sign, names are names, and texts lack one of the two quotes.
-/

namespace Reckoner

/-! ### Levels -/

/-- The levels of precedence, the tightest first. -/
inductive Level where
  | primary
  | postfixed
  | power
  | factor
  | term
  | sum
  | comparison
  | negation
  | conjunction
  | expression
  | statement
  deriving DecidableEq

namespace Level

/-- The place of a level in the order. -/
def rank : Level → Nat
  | .primary => 0
  | .postfixed => 1
  | .power => 2
  | .factor => 3
  | .term => 4
  | .sum => 5
  | .comparison => 6
  | .negation => 7
  | .conjunction => 8
  | .expression => 9
  | .statement => 10

instance : LE Level := ⟨fun a b => a.rank ≤ b.rank⟩

instance : LT Level := ⟨fun a b => a.rank < b.rank⟩

instance (a b : Level) : Decidable (a ≤ b) := inferInstanceAs (Decidable (a.rank ≤ b.rank))

instance (a b : Level) : Decidable (a < b) := inferInstanceAs (Decidable (a.rank < b.rank))

theorem le_def {a b : Level} : a ≤ b ↔ a.rank ≤ b.rank := Iff.rfl

theorem lt_def {a b : Level} : a < b ↔ a.rank < b.rank := Iff.rfl

/-- The next tighter level. -/
def tighter : Level → Level
  | .primary | .postfixed => .primary
  | .power => .postfixed
  | .factor => .power
  | .term => .factor
  | .sum => .term
  | .comparison => .sum
  | .negation => .comparison
  | .conjunction => .negation
  | .expression => .conjunction
  | .statement => .expression

theorem tighter_le (a : Level) : a.tighter ≤ a := by
  cases a <;> decide

theorem le_tighter_iff {a b : Level} (h : b ≠ .primary) : a ≤ b.tighter ↔ a < b := by
  rw [le_def, lt_def]
  cases b <;> first | contradiction | exact Nat.lt_succ_iff.symm

theorem eq_of_tighter_lt {a b : Level} (h : a.tighter < b) (hle : b ≤ a) : b = a := by
  rw [lt_def] at h
  rw [le_def] at hle
  cases a <;> cases b <;> simp_all [tighter, rank]

end Level

/-- The level of an operator. -/
def Operator.level : Operator → Level
  | .sum | .difference => .sum
  | .product | .quotient | .remainder => .term
  | .power => .power

/-- The level of a connective. -/
def Connective.level : Connective → Level
  | .and => .conjunction
  | .or => .expression

namespace Expr

/-- The level of the root. -/
def level : Expr → Level
  | .number _ | .text _ | .name _ | .list _ | .group _ | .lambda .. => .primary
  | .call .. | .attribute .. | .subscript .. => .postfixed
  | .binary op _ _ => op.level
  | .signed .. => .factor
  | .compare .. => .comparison
  | .negate _ => .negation
  | .connect op _ _ => op.level
  | .assign .. => .statement

/-- Whether the right edge of the expression is a lambda without brackets around it. -/
def endsOpen : Expr → Bool
  | .lambda .. => true
  | .binary _ _ r | .compare _ _ r | .connect _ _ r => r.endsOpen
  | .signed _ e | .negate e | .assign _ e => e.endsOpen
  | _ => false

/-! ### Shape -/

/-- Whether something can follow the expression where a level is required. -/
def isBase (l : Level) (e : Expr) : Bool := e.level ≤ l && !e.endsOpen

/-- Whether the children of the root have levels that their places admit. -/
def rootShaped : Expr → Bool
  | .binary .power b x => b.isBase .postfixed && x.level ≤ .factor
  | .binary op l r => l.isBase op.level && r.level < op.level
  | .compare _ l r => l.isBase .comparison && r.level < .comparison
  | .connect op l r => l.isBase op.level && r.level < op.level
  | .signed _ e => e.level ≤ .factor
  | .negate e => e.level ≤ .negation
  | .group e | .lambda _ e | .assign _ e => e.level ≤ .expression
  | .list items => items.all (·.level ≤ .expression)
  | .call f args keywords =>
    f.isBase .postfixed && args.all (·.level ≤ .expression)
      && keywords.all (·.2.level ≤ .expression)
  | .subscript b i => b.isBase .postfixed && i.level ≤ .expression
  | .attribute b _ => b.isBase .postfixed
  | .number _ | .text _ | .name _ => true

/-- Whether all operands in the tree have levels that their places admit. -/
def shaped (e : Expr) : Bool := e.subterms.all rootShaped

theorem shaped_iff {e : Expr} :
    e.shaped = true ↔ e.rootShaped = true ∧ ∀ c ∈ e.children, c.shaped = true := by
  simp only [shaped, List.all_eq_true]
  exact forall_subterms_iff

/-- Assignments stand nowhere but at the root. -/
theorem level_le_of_mem_children {e c : Expr} (h : e.rootShaped = true) (hc : c ∈ e.children) :
    c.level ≤ .expression := by
  cases e with
  | number | text | name => cases hc
  | binary op l r =>
    cases op <;>
      simp only [rootShaped, isBase, Operator.level, Level.le_def, Level.lt_def, Level.rank,
        Bool.and_eq_true, decide_eq_true_eq, children, List.mem_cons, List.not_mem_nil,
        or_false] at h hc ⊢ <;>
      rcases hc with rfl | rfl <;> omega
  | connect op l r =>
    cases op <;>
      simp only [rootShaped, isBase, Connective.level, Level.le_def, Level.lt_def, Level.rank,
        Bool.and_eq_true, decide_eq_true_eq, children, List.mem_cons, List.not_mem_nil,
        or_false] at h hc ⊢ <;>
      rcases hc with rfl | rfl <;> omega
  | compare op l r | subscript l r =>
    simp only [rootShaped, isBase, Level.le_def, Level.lt_def, Level.rank, Bool.and_eq_true,
      decide_eq_true_eq, children, List.mem_cons, List.not_mem_nil, or_false] at h hc ⊢
    rcases hc with rfl | rfl <;> omega
  | signed s e | negate e | group e | lambda ps e | assign x e | «attribute» e p =>
    obtain rfl : c = e := by simpa [children] using hc
    simp only [rootShaped, isBase, Level.le_def, Level.rank, Bool.and_eq_true,
      decide_eq_true_eq] at h ⊢
    omega
  | list items =>
    simp only [rootShaped, List.all_eq_true, decide_eq_true_eq] at h
    exact h c hc
  | call f args keywords =>
    simp only [rootShaped, isBase, Bool.and_eq_true, List.all_eq_true, decide_eq_true_eq] at h
    simp only [children, List.mem_cons, List.mem_append, List.mem_map] at hc
    rcases hc with rfl | hc | ⟨ke, hke, rfl⟩
    · exact Nat.le_trans h.1.1.1 (by decide)
    · exact h.1.2 c hc
    · exact h.2 ke hke

end Expr

/-! ### Spelling -/

/-- Whether a double is finite and has no minus sign. -/
def Binary.isMagnitude : Binary → Bool
  | .finite false _ _ => true
  | _ => false

/-- Whether a word is a name and no keyword. -/
def Token.isName (id : String) : Bool :=
  match id.toList with
  | [] => false
  | c :: cs => startsWord c && cs.all continuesWord && (Keyword.ofWord? id).isNone

/-- A name is a word and no keyword. -/
theorem Token.exists_cons_of_isName {id : String} (h : isName id = true) :
    ∃ c cs, id.toList = c :: cs ∧ startsWord c = true ∧ cs.all continuesWord = true ∧
      Keyword.ofWord? id = none := by
  unfold isName at h
  split at h
  · cases h
  · rename_i c cs heq
    simp only [Bool.and_eq_true, Option.isNone_iff_eq_none] at h
    exact ⟨c, cs, heq, h.1.1, h.1.2, h.2⟩

/-- Whether a text can stand between quotes, as it lacks one of the two. -/
def Token.isQuotable (body : String) : Bool :=
  !body.toList.contains '\'' || !body.toList.contains '"'

namespace Expr

/-- Whether what the root holds apart from its children can be spelled. -/
def rootSpelled : Expr → Bool
  | .number x => (Binary.ofFloat x).isMagnitude
  | .text body => Token.isQuotable body
  | .name id => Token.isName id
  | .attribute _ property => Token.isName property
  | .call _ _ keywords => keywords.all (Token.isName ·.1)
  | .lambda params _ => params.all Token.isName
  | .assign target _ => Token.isName target
  | _ => true

/-- Whether everything in the tree can be spelled. -/
def spelled (e : Expr) : Bool := e.subterms.all rootSpelled

theorem spelled_iff {e : Expr} :
    e.spelled = true ↔ e.rootSpelled = true ∧ ∀ c ∈ e.children, c.spelled = true := by
  simp only [spelled, List.all_eq_true]
  exact forall_subterms_iff

/-- Whether the tree is what some text says. -/
def canonical (e : Expr) : Bool := e.shaped && e.spelled

theorem canonical_iff {e : Expr} : e.canonical = true ↔
    e.rootShaped = true ∧ e.rootSpelled = true ∧ ∀ c ∈ e.children, c.canonical = true := by
  simp only [canonical, Bool.and_eq_true]
  rw [shaped_iff, spelled_iff]
  simp only [forall_and]
  exact ⟨fun ⟨⟨a, b⟩, c, d⟩ => ⟨a, c, b, d⟩, fun ⟨a, c, b, d⟩ => ⟨⟨a, b⟩, c, d⟩⟩

end Expr

end Reckoner
