import Reckoner.Proofs.Expr.Acceptance
import Reckoner.Proofs.Nesting.Findings

/-!
# Linear expressions

For most trees the scan only bounds the depth from above. A tree is linear if no expression
in it has two children that are not leaves, as in chains of operators, signs, brackets, calls
and attributes. Such a tree is charged for its depth at most, so no text of it is refused
under a limit that the depth keeps to, unless a literal counts in the scan
(`parse_linear`).
-/

namespace Reckoner

open Nesting (Level)

/-! ### Plain literals -/

namespace Token

/-- Whether every number literal is plain digits with an optional fraction. A point at the end of
the digits is plain, too, if no keyword comes next. -/
def plain : List Token → Bool
  | [] => true
  | .number n :: ts =>
    n.exponent.isNone && !(n.fraction = some [] && ts.head?.any isKeyword) && plain ts
  | _ :: ts => plain ts

end Token

/-- At plain literals the scan finds nothing and misses nothing. -/
theorem Placed.found_of_plain {ps : List Placed} (h : Token.plain (ps.map token) = true)
    (behindNumber : Bool) :
    found false none ps = Nesting.tokenMarks false behindNumber (ps.map token) := by
  induction ps generalizing behindNumber with
  | nil => rfl
  | cons p ps ih =>
    have hstep : p.token.strays (ps.head?.map token) = [] ∧ p.token.swallows = false ∧
        Token.plain (ps.map token) = true := by
      rw [List.map_cons] at h
      generalize p.token = t at h ⊢
      cases t with
      | number n =>
        simp only [Token.plain, Bool.and_eq_true, Option.isNone_iff_eq_none, List.head?_map,
          Bool.not_eq_true'] at h
        obtain ⟨⟨hexponent, hpoint⟩, hrest⟩ := h
        refine ⟨?_, ?_, hrest⟩
        · simp only [Token.strays, Numeral.strays, hexponent, Option.isSome_none, Bool.false_or,
            hpoint]
          rfl
        · simp [Token.swallows, Numeral.swallows, hexponent]
      | text | name | keyword | symbol => exact ⟨rfl, rfl, h⟩
    obtain ⟨hstrays, hswallows, hrest⟩ := hstep
    rw [found_of_not_isHidden rfl, Option.or_none, hstrays, hswallows, ih hrest p.token.isNumber]
    rfl

/-- In a text with plain literals the scan counts what the tree is charged. -/
theorem Writes.bound_of_plain {cs : List Char} {ts : List Token} {e : Expr} (h : Writes ts e)
    (hts : Token.list? cs = some ts) (hplain : Token.plain ts = true) :
    Nesting.bound cs = (e.charge false).bound := by
  obtain ⟨ps, hps, rfl⟩ := Token.exists_laid hts
  rw [Nesting.bound, (Nesting.marks_laid hps h.joined).1, Placed.found_of_plain hplain false,
    h.bound_tokenMarks]

/-! ### Linear trees -/

namespace Nesting.Level

/-- Brackets that enclose nothing but leaves are charged like one more level of the base. -/
theorem bound_join_bracketed_le {a b : Level} {n : Nat} (hn : 1 ≤ n)
    (h : a = {} ∧ b.bound ≤ n ∨ b = {} ∧ a.bound ≤ n) : (a.join b.bracketed).bound ≤ n + 1 := by
  simp only [bound, join, bracketed] at h ⊢
  rcases h with ⟨rfl, h⟩ | ⟨rfl, h⟩
  · simp only
    omega
  · simp only
    omega

end Nesting.Level

namespace Expr

/-- Whether the expression is a number, a text or a name. -/
def isLeaf : Expr → Bool
  | .number _ | .text _ | .name _ => true
  | _ => false

/-- Whether at most one of the expressions is no leaf. -/
def oneBranch (es : List Expr) : Bool := (es.filter fun e => !e.isLeaf).length ≤ 1

/-- Whether the root has at most one child that is no leaf, no named arguments, and at least one
item if it is a list. -/
def rootLinear : Expr → Bool
  | .list items => !items.isEmpty && oneBranch items
  | .call f args keywords => keywords.isEmpty && oneBranch (f :: args)
  | e => oneBranch e.children

variable {hidden : Bool}

theorem charge_of_isLeaf {e : Expr} (h : e.isLeaf = true) : e.charge hidden = {} := by
  cases e <;> first | rfl | cases h

theorem joinAll_of_leaves {es : List Expr} (h : ∀ e ∈ es, e.isLeaf = true) :
    Level.joinAll (es.map (charge hidden)) = {} := by
  induction es with
  | nil => rfl
  | cons e es ih =>
    obtain ⟨he, hes⟩ := List.forall_mem_cons.mp h
    rw [List.map_cons, Level.joinAll_cons, charge_of_isLeaf he, ih hes, Level.join_empty]

theorem oneBranch_cons {e : Expr} {es : List Expr} (h : oneBranch (e :: es) = true) :
    e.isLeaf = true ∧ oneBranch es = true ∨ ∀ c ∈ es, c.isLeaf = true := by
  cases he : e.isLeaf with
  | true =>
    refine .inl ⟨rfl, ?_⟩
    simpa [oneBranch, he] using h
  | false =>
    refine .inr ?_
    simpa [oneBranch, he] using h

/-- Of expressions with one that is no leaf at most, only this one is charged. -/
theorem bound_joinAll_le {es : List Expr} {n : Nat} (hes : oneBranch es = true) (hn : 1 ≤ n)
    (h : ∀ e ∈ es, (e.charge hidden).bound ≤ n) :
    (Level.joinAll (es.map (charge hidden))).bound ≤ n := by
  induction es with
  | nil => exact hn
  | cons e es ih =>
    obtain ⟨he, hrest⟩ := List.forall_mem_cons.mp h
    rw [List.map_cons, Level.joinAll_cons]
    obtain ⟨hleaf, hone⟩ | hleaves := oneBranch_cons hes
    · rw [charge_of_isLeaf hleaf, Level.empty_join]
      exact ih hone hrest
    · rw [joinAll_of_leaves hleaves, Level.join_empty]
      exact he

/-- A linear tree is charged for its depth at most. -/
theorem charge_bound_le_depth {e : Expr} (h : ∀ s ∈ e.subterms, s.rootLinear = true) :
    (e.charge false).bound ≤ e.depth := by
  induction e using childrenInduction with
  | step e ih =>
    obtain ⟨hroot, hchildren⟩ := forall_subterms_iff.mp h
    obtain ⟨n, hn⟩ := Nat.exists_eq_add_of_le' e.depth_pos
    have hbelow (c : Expr) (hc : c ∈ e.children) : (c.charge false).bound ≤ n :=
      Nat.le_trans (ih c hc (hchildren c hc)) (depth_le_succ_iff.mp (Nat.le_of_eq hn) c hc)
    have hpos {c : Expr} (hc : c ∈ e.children) : 1 ≤ n :=
      Nat.le_trans (Nat.succ_pos _) (hbelow c hc)
    rw [hn]
    cases e with
    | number | text | name => exact Nat.succ_pos _
    | list items =>
      simp only [rootLinear, Bool.and_eq_true, Bool.not_eq_true', List.isEmpty_eq_false_iff] at hroot
      obtain ⟨c, cs, rfl⟩ := List.exists_cons_of_ne_nil hroot.1
      have := bound_joinAll_le hroot.2 (hpos List.mem_cons_self) hbelow
      rw [charge, allCharge_eq]
      simpa [Level.bracketed, Level.bound] using this
    | binary op l r | compare op l r | connect op l r =>
      have := bound_joinAll_le hroot (hpos List.mem_cons_self) hbelow
      simp only [children, List.map_cons, List.map_nil, Level.joinAll_cons, Level.joinAll_nil,
        Level.join, Level.bound] at this
      simp only [charge, Bool.false_and, Bool.false_eq_true, if_false, Level.join, Level.operator,
        Level.bound]
      omega
    | signed s e | negate e | lambda ps e | assign x e | «attribute» e p =>
      have := hbelow e List.mem_cons_self
      simp only [charge, Level.join, Level.operator, Level.bound] at this ⊢
      omega
    | group e =>
      have := hbelow e List.mem_cons_self
      simpa [charge, Level.bracketed, Level.bound] using this
    | subscript b i =>
      have hb := hbelow b List.mem_cons_self
      have hi := hbelow i (List.mem_cons_of_mem _ List.mem_cons_self)
      refine Level.bound_join_bracketed_le (hpos List.mem_cons_self) ?_
      obtain ⟨hleaf, -⟩ | hleaf := oneBranch_cons hroot
      · exact .inl ⟨charge_of_isLeaf hleaf, hi⟩
      · exact .inr ⟨charge_of_isLeaf (hleaf i List.mem_cons_self), hb⟩
    | call f args keywords =>
      simp only [rootLinear, Bool.and_eq_true, List.isEmpty_iff] at hroot
      obtain ⟨rfl, hone⟩ := hroot
      have hpos := hpos List.mem_cons_self
      obtain ⟨hf, hargs⟩ := List.forall_mem_cons.mp hbelow
      rw [List.map_nil, List.append_nil] at hargs
      rw [charge, keywordCharge, Level.join_empty, allCharge_eq]
      refine Level.bound_join_bracketed_le hpos ?_
      obtain ⟨hleaf, hone⟩ | hleaves := oneBranch_cons hone
      · exact .inl ⟨charge_of_isLeaf hleaf, bound_joinAll_le hone hpos hargs⟩
      · exact .inr ⟨joinAll_of_leaves hleaves, hf⟩

/-- **No linear expression is refused falsely.** A text of the grammar with finite, plain literals
whose tree is linear is read as this tree if the tree keeps to the limit, and refused for the limit
otherwise. -/
theorem parse_linear {text : String} {ts : List Token} {e : Expr}
    (hts : Token.list? text.toList = some ts) (he : Grammar.parse? ts = some e)
    (hfinite : Token.firstLarge? ts = none) (hplain : Token.plain ts = true)
    (hlinear : ∀ s ∈ e.subterms, s.rootLinear = true) (limit : Nat) :
    (e.depth ≤ limit → parse limit text = .ok e) ∧
      (limit < e.depth →
        ∃ fault, fault.isLimit = true ∧ parse limit text = .error (.unreadable text fault)) := by
  have hsaid := Says.of_parse? hts he hfinite
  have hbound : Nesting.bound text.toList ≤ e.depth := by
    rw [hsaid.writes.bound_of_plain hts hplain]
    exact charge_bound_le_depth hlinear
  rw [parse_of_writes hts hsaid.writes hsaid.canonical]
  refine ⟨fun hdepth => ?_, fun hdepth => ?_⟩
  · rw [if_pos (Nat.le_trans hbound hdepth), if_pos hdepth]
  · rw [if_neg (Nat.not_le_of_lt hdepth)]
    split
    · exact ⟨_, rfl, rfl⟩
    · exact ⟨_, rfl, rfl⟩

/-- A sign, brackets, operators, a subscript, a call and a list on one way down. -/
theorem parse_linear_mixed :
    let text := "-(f(2.5, ['a', not 3.])[0] < x) ** 2"
    ∃ (ts : List Token) (e : Expr), Token.list? text.toList = some ts ∧
      Grammar.parse? ts = some e ∧ Token.firstLarge? ts = none ∧ Token.plain ts = true ∧
      (∀ s ∈ e.subterms, s.rootLinear = true) ∧ e.depth = 9 ∧ parse 9 text = .ok e ∧
      ∃ fault, fault.isLimit = true ∧ parse 8 text = .error (.unreadable text fault) := by
  intro text
  have hts : Token.list? text.toList = some [.symbol .minus, .symbol .openParen, .name "f",
      .symbol .openParen, .number ⟨['2'], some ['5'], none⟩, .symbol .comma, .symbol .openBracket,
      .text "a", .symbol .comma, .keyword .not, .number ⟨['3'], some [], none⟩,
      .symbol .closeBracket, .symbol .closeParen, .symbol .openBracket, .number ⟨['0'], none, none⟩,
      .symbol .closeBracket, .symbol .less, .name "x", .symbol .closeParen, .symbol .power,
      .number ⟨['2'], none, none⟩] := by
    cbv
  have hread := parse_linear hts rfl (by decide +kernel) rfl (by decide)
  exact ⟨_, _, hts, rfl, by decide +kernel, rfl, by decide, rfl, (hread 9).1 (by decide),
    (hread 8).2 (by decide)⟩

end Expr

end Reckoner
