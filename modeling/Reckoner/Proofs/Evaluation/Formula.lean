import Reckoner.Proofs.Evaluation.Composition
import Reckoner.Proofs.Evaluation.Finite

/-!
# Formulas mean what they say

A `Formula` is an expression of the constants, literals, operators, signs, functions and
parentheses, written in full: every operation has its parentheses and single spaces around
the operator. Its text has the value that one gets by going through the formula part by
part (`Formula.value`), or it is too long or too deep. There is one exception to going part
by part, as a power binds tighter than a sign before its base: `(-3 ** 0)` is minus one.
-/

namespace Reckoner

/-! ### Signs before a base -/

/-- A power whose base has signs before it is a power with these signs before it. -/
def Expr.raise : Expr → Expr → Expr
  | .signed s b, x => .signed s (b.raise x)
  | b, x => .binary .power b x

theorem Expr.raise_eq {b : Expr} (h : ∀ s e, b ≠ .signed s e) (x : Expr) :
    b.raise x = .binary .power b x := by
  unfold raise
  split
  · exact (h _ _ rfl).elim
  · rfl

/-- The expression that an operator makes of what stands on both sides of it. -/
def Operator.combine : Operator → Expr → Expr → Expr
  | .power => Expr.raise
  | op => .binary op

theorem Operator.combine_eq {op : Operator} (h : op ≠ .power) (l r : Expr) :
    op.combine l r = .binary op l r := by
  cases op <;> first | rfl | contradiction

theorem Writes.exists_of_signed {ts : List Token} {s : Sign} {e : Expr}
    (h : Writes ts (.signed s e)) : ∃ us, ts = s.token :: us ∧ Writes us e := by
  generalize he : Expr.signed s e = f at h
  cases h with
  | signed s operand =>
    cases he
    exact ⟨_, rfl, operand⟩
  | join j => cases j <;> cases he
  | _ => cases he

/-- The tokens of a power write it with the signs of its base before it. -/
theorem Writes.raise {ts us : List Token} {b x : Expr} (hb : Writes ts b) (hx : Writes us x) :
    Writes (ts ++ .symbol .power :: us) (b.raise x) := by
  fun_induction Expr.raise b x generalizing ts with
  | case1 s b x ih =>
    obtain ⟨vs, rfl, hvs⟩ := hb.exists_of_signed
    exact .signed s (ih hvs hx)
  | case2 b x => exact .join (.arithmetic .power) hb hx

theorem Writes.combine {ts us : List Token} {l r : Expr} (op : Operator) (hl : Writes ts l)
    (hr : Writes us r) : Writes (ts ++ op.token :: us) (op.combine l r) := by
  by_cases hop : op = .power
  · subst hop
    exact hl.raise hr
  · rw [op.combine_eq hop]
    exact .join (.arithmetic op) hl hr

theorem Expr.canonical_signed_iff {s : Sign} {e : Expr} :
    (signed s e).canonical = true ↔ e.level ≤ .factor ∧ e.canonical = true := by
  rw [canonical_iff]
  simp [rootShaped, rootSpelled, children]

theorem Expr.level_raise_le (b x : Expr) : (b.raise x).level ≤ .factor := by
  unfold raise
  split
  · exact Nat.le_refl _
  · exact (by decide : Level.power ≤ .factor)

theorem Operator.level_combine_le (op : Operator) (l r : Expr) :
    (op.combine l r).level ≤ .expression := by
  cases op with
  | power => exact Nat.le_trans (l.level_raise_le r) (by decide)
  | sum | difference => exact (by decide : Level.sum ≤ .expression)
  | product | quotient | remainder => exact (by decide : Level.term ≤ .expression)

/-! ### References to functions -/

/-- What refers to a function: its name, behind the namespace or not. -/
def Elementary.reference (f : Elementary) : Bool → Expr
  | false => .name f.name
  | true => .attribute (.name mathNamespace) f.name

theorem Elementary.names_reference (f : Elementary) (qualified : Bool) :
    (f.reference qualified).Names f.name := by
  cases qualified with
  | false => exact .bare
  | true => exact .qualified

/-- The name of a function is read as a reference to it. -/
theorem Elementary.exists_text_reference (f : Elementary) (qualified : Bool) :
    ∃ ts, Says ((if qualified then "math." else "").toList ++ f.name.toList) ts
      (f.reference qualified) := by
  cases qualified with
  | false => exact ⟨_, .name f.isName_name⟩
  | true =>
    refine ⟨[.name mathNamespace, .symbol .dot, .name f.name], ?_, ?_, ?_⟩
    · cases f <;> cbv
    · exact .property f.name (.name mathNamespace)
    · have hnamespace : Token.isName mathNamespace = true := by decide
      refine Expr.canonical_iff.mpr ⟨rfl, f.isName_name, ?_⟩
      exact List.forall_mem_singleton.mpr (Says.name hnamespace).canonical

/-! ### Formulas and their values -/

/-- An expression that is written in full. -/
inductive Formula where
  | constant (c : Constant)
  | literal (n : Numeral) (wellFormed : n.isWellFormed = true) (finite : n.value.isFinite = true)
  | operation (op : Operator) (sp : String) (typed : sp ∈ op.spellings) (l r : Formula)
  | signed (s : Sign) (w : Formula)
  | call (qualified : Bool) (f : Elementary) (w : Formula)
  | group (w : Formula)

namespace Formula

/-- The text of the formula. -/
def text : Formula → String
  | constant c => c.name
  | literal n _ _ => String.ofList n.spelling
  | operation _ sp _ l r => "(" ++ l.text ++ " " ++ sp ++ " " ++ r.text ++ ")"
  | signed s w => s.symbol ++ w.text
  | call qualified f w => (if qualified then "math." else "") ++ f.name ++ "(" ++ w.text ++ ")"
  | group w => "(" ++ w.text ++ ")"

/-- The value of the formula when it is taken part by part. -/
def partwise : Formula → Except Refusal Float
  | constant c => .ok c.value
  | literal n _ _ => .ok n.value
  | operation op _ _ l r => do
    let x ← l.partwise
    let y ← r.partwise
    op.apply x y
  | signed s w => w.partwise.map s.apply
  | call _ f w => w.partwise >>= f.apply
  | group w => w.partwise

/-- The value of the formula: part by part, but the signs before a base apply to the power. -/
def value : Formula → Except Refusal Float
  | constant c => .ok c.value
  | literal n _ _ => .ok n.value
  | operation .power sp typed (signed s l) r => (operation .power sp typed l r).value.map s.apply
  | operation op _ _ l r => do
    let x ← l.value
    let y ← r.value
    op.apply x y
  | signed s w => w.value.map s.apply
  | call _ f w => w.value >>= f.apply
  | group w => w.value

/-- Whether no base of a power has a sign before it. -/
def bareBases : Formula → Bool
  | constant _ | literal _ _ _ => true
  | operation .power _ _ (signed _ _) _ => false
  | operation _ _ _ l r => l.bareBases && r.bareBases
  | signed _ w | call _ _ w | group w => w.bareBases

/-- Without signs before bases the value is that of the parts. -/
theorem value_eq_partwise {w : Formula} (h : w.bareBases = true) : w.value = w.partwise := by
  fun_induction value w with
  | case1 => rfl
  | case2 => rfl
  | case3 => cases h
  | case4 op sp typed l r hne ihl ihr =>
    have hboth : l.bareBases = true ∧ r.bareBases = true := by
      rw [bareBases] at h
      · exact Bool.and_eq_true_iff.mp h
      · exact hne
    rw [partwise, ihl hboth.1, ihr hboth.2]
  | case5 s w ih => rw [partwise, ih h]
  | case6 qualified f w ih => rw [partwise, ih h]
  | case7 w ih => rw [partwise, ih h]

theorem settled_value (w : Formula) : Settled w.value := by
  have map {a : Except Refusal Float} (ha : Settled a) (f : Float → Float) : Settled (a.map f) := by
    cases ha with
    | value x => exact .value (f x)
    | divisionByZero => exact .divisionByZero
    | undefined cause => exact .undefined cause
  fun_induction value w with
  | case1 c => exact .value _
  | case2 n => exact .value _
  | case3 sp typed s l r ih => exact map ih _
  | case4 op sp typed l r hne ihl ihr =>
    exact ihl.bind fun x => ihr.bind fun y => op.settled_apply x y
  | case5 s w ih => exact map ih _
  | case6 qualified f w ih => exact ih.bind f.settled_apply
  | case7 w ih => exact ih

/-! ### The tree of a formula -/

/-- What the text of the formula is read as. -/
def tree : Formula → Expr
  | constant c => .name c.name
  | literal n _ _ => .number n.value
  | operation op _ _ l r => .group (op.combine l.tree r.tree)
  | signed s w => .signed s w.tree
  | call qualified f w => .call (f.reference qualified) [w.tree] []
  | group w => .group w.tree

theorem tree_level_le (w : Formula) : w.tree.level ≤ .factor := by
  cases w with
  | call => exact (by decide : Level.postfixed ≤ .factor)
  | signed s w => exact Nat.le_refl _
  | _ => exact (by decide : Level.primary ≤ .factor)

theorem tree_endsOpen (w : Formula) : w.tree.endsOpen = false := by
  induction w with
  | signed s w ih => exact ih
  | _ => rfl

/-- What has no sign before it can be a base. -/
theorem tree_isBase {w : Formula} (h : ∀ s v, w ≠ signed s v) :
    w.tree.isBase .postfixed = true := by
  refine Bool.and_eq_true_iff.mpr ⟨decide_eq_true ?_, by rw [w.tree_endsOpen]; rfl⟩
  cases w with
  | signed s v => exact (h s v rfl).elim
  | call => exact Nat.le_refl _
  | _ => exact (by decide : Level.primary ≤ .postfixed)

theorem tree_ne_signed {w : Formula} (h : ∀ s v, w ≠ signed s v) (s : Sign) (e : Expr) :
    w.tree ≠ .signed s e := by
  intro heq
  have hbase := (Bool.and_eq_true_iff.mp (tree_isBase h)).1
  rw [heq] at hbase
  exact absurd (of_decide_eq_true hbase : Level.factor ≤ .postfixed) (by decide)

theorem combine_tree_eq {op : Operator} {l r : Formula}
    (h : ∀ s v, op = .power → l ≠ signed s v) :
    op.combine l.tree r.tree = .binary op l.tree r.tree := by
  by_cases hop : op = .power
  · subst hop
    exact Expr.raise_eq (tree_ne_signed fun s v => h s v rfl) r.tree
  · exact op.combine_eq hop l.tree r.tree

theorem bind_pure_eq_map (f : Float → Float) (a : Except Refusal Float) :
    (a >>= fun x => pure (f x)) = a.map f := by
  cases a <;> rfl

theorem evaluate_tree {p : Policy} (hp : p.strictBasic = false) (m : Mode) (w : Formula) :
    w.tree.evaluate p m = w.value := by
  have hcalls : p.forbidsCalls m = false := by simp [Policy.forbidsCalls, hp]
  fun_induction value w with
  | case1 c =>
    rw [tree, Expr.evaluate, Expr.resolveConstant_eq_ok_iff.mpr .bare]
    rfl
  | case2 n wellFormed finite => rw [tree, Expr.evaluate, if_pos finite]
  | case3 sp typed s l r ih =>
    rw [← ih, tree, tree, Expr.evaluate, Expr.evaluate, tree]
    show (Expr.signed s (l.tree.raise r.tree)).evaluate p m = _
    rw [Expr.evaluate]
    exact bind_pure_eq_map s.apply _
  | case4 op sp typed l r hne ihl ihr =>
    rw [tree, combine_tree_eq hne, Expr.evaluate, Expr.evaluate, ihl, ihr]
  | case5 s w ih =>
    rw [tree, Expr.evaluate, ih]
    exact bind_pure_eq_map s.apply _
  | case6 qualified f w ih =>
    rw [tree, Expr.evaluate, hcalls, if_neg Bool.false_ne_true,
      Expr.resolveFunction_eq_ok_iff.mpr (f.names_reference qualified)]
    show w.tree.evaluate p m >>= f.apply = _
    rw [ih]
  | case7 w ih => rw [tree, Expr.evaluate, ih]

theorem canonical_binary {op : Operator} {l r : Formula}
    (h : ∀ s v, op = .power → l ≠ signed s v) (hl : l.tree.canonical = true)
    (hr : r.tree.canonical = true) : (Expr.binary op l.tree r.tree).canonical = true := by
  refine Expr.canonical_iff.mpr ⟨?_, rfl, by simpa [Expr.children] using ⟨hl, hr⟩⟩
  have hleft := l.tree_level_le
  have hright := r.tree_level_le
  cases op with
  | power =>
    exact Bool.and_eq_true_iff.mpr
      ⟨tree_isBase fun s v => h s v rfl, decide_eq_true r.tree_level_le⟩
  | _ =>
    simp only [Expr.rootShaped, Expr.isBase, Operator.level, Level.le_def, Level.lt_def,
      Level.rank, Bool.and_eq_true, decide_eq_true_eq, l.tree_endsOpen] at hleft hright ⊢
    exact ⟨⟨by omega, rfl⟩, by omega⟩

theorem canonical_combine (op : Operator) {l r : Formula} (hl : l.tree.canonical = true)
    (hr : r.tree.canonical = true) : (op.combine l.tree r.tree).canonical = true := by
  by_cases hop : op = .power
  · subst hop
    induction l with
    | signed s v ih =>
      have hv : v.tree.canonical = true := (Expr.canonical_signed_iff.mp hl).2
      exact Expr.canonical_signed_iff.mpr ⟨v.tree.level_raise_le r.tree, ih hv⟩
    | _ =>
      rw [combine_tree_eq (by simp)]
      exact canonical_binary (by simp) hl hr
  · rw [op.combine_eq hop]
    exact canonical_binary (fun s v h => (hop h).elim) hl hr

/-! ### The text of a formula -/

/-- The characters of the formula, with the power signs for carets. -/
def chars : Formula → List Char
  | constant c => c.name.toList
  | literal n _ _ => n.spelling
  | operation op _ _ l r =>
    '(' :: (l.chars ++ ' ' :: (op.symbol.toList ++ ' ' :: r.chars) ++ [')'])
  | signed s w => s.symbol.toList ++ w.chars
  | call qualified f w =>
    (if qualified then "math." else "").toList ++ f.name.toList ++ '(' :: (w.chars ++ [')'])
  | group w => '(' :: (w.chars ++ [')'])

theorem expandCarets_text (w : Formula) : Text.expandCarets w.text.toList = w.chars := by
  induction w with
  | constant c => cases c <;> rfl
  | literal n wellFormed finite =>
    have hcaret : '^' ∉ n.spelling := by
      intro hmem
      rcases Numeral.mem_spelling wellFormed hmem with h | h <;> revert h <;> decide
    rw [text, String.toList_ofList, Text.expandCarets_of_notMem hcaret, chars]
  | operation op sp typed l r ihl ihr =>
    simp [text, chars, Text.expandCarets_append, Text.expandCarets, ihl, ihr,
      op.expandCarets_of_mem_spellings typed]
  | signed s w ih => cases s <;> simp [text, chars, Text.expandCarets, Sign.symbol, ih]
  | call qualified f w ih =>
    have hname : Text.expandCarets f.name.toList = f.name.toList := by
      cases f <;> rfl
    cases qualified <;>
      simp [text, chars, Text.expandCarets_append, Text.expandCarets, ih, hname]
  | group w ih => simp [text, chars, Text.expandCarets_append, Text.expandCarets, ih]

/-- The text of a formula says its tree. -/
theorem exists_text (w : Formula) : ∃ ts, Says w.chars ts w.tree := by
  induction w with
  | constant c => exact ⟨_, .name (by cases c <;> decide)⟩
  | literal n wellFormed finite =>
    refine ⟨[.number n], Token.list?_spaced (.cons (.number wellFormed) .nil), .number n, ?_⟩
    refine Expr.canonical_iff.mpr ⟨rfl, Numeral.isMagnitude_value finite, fun c hc => by cases hc⟩
  | operation op sp typed l r ihl ihr =>
    obtain ⟨ts, hl⟩ := ihl
    obtain ⟨us, hr⟩ := ihr
    have hinner : Says (l.chars ++ ' ' :: (op.symbol.toList ++ ' ' :: r.chars))
        (ts ++ op.token :: us) (op.combine l.tree r.tree) :=
      ⟨Token.list?_operation op hl.tokens hr.tokens, hl.writes.combine op hr.writes,
        canonical_combine op hl.canonical hr.canonical⟩
    exact ⟨_, hinner.group (op.level_combine_le _ _)⟩
  | signed s w ih =>
    obtain ⟨ts, hw⟩ := ih
    exact ⟨_, hw.signed s w.tree_level_le⟩
  | call qualified f w ih =>
    obtain ⟨ts, hw⟩ := ih
    obtain ⟨us, hf⟩ := f.exists_text_reference qualified
    exact ⟨_, hf.call (by cases qualified <;> rfl) hw (Nat.le_trans w.tree_level_le (by decide))⟩
  | group w ih =>
    obtain ⟨ts, hw⟩ := ih
    exact ⟨_, hw.group (Nat.le_trans w.tree_level_le (by decide))⟩

theorem isFinite_of_value_eq_ok {w : Formula} {x : Float} (h : w.value = .ok x) :
    x.isFinite = true := by
  rw [← evaluate_tree (p := {}) rfl .basic, ← Expr.result_record] at h
  exact (Expr.keeps_record {} .basic w.tree).result x h

end Formula

/-- **Formulas mean what they say**: where calls are open to both modes, the text of a formula has
its value in both, or it is refused for a limit. The value is a finite number or an arithmetical
refusal, and is that of the parts if no base of a power has a sign before it. -/
theorem evaluate_formula {p : Policy} (hp : p.strictBasic = false) (w : Formula) :
    (∀ m, p.evaluate m w.text = w.value ∨ ∃ fault, fault.isLimit = true ∧
      p.evaluate m w.text = .error (.unreadable w.text fault)) ∧
    p.evaluate .basic w.text = p.evaluate .advanced w.text ∧
    ((∃ x, w.value = .ok x ∧ x.isFinite = true) ∨ w.value = .error .divisionByZero ∨
      ∃ cause, w.value = .error (.undefined cause)) ∧
    (w.bareBases = true → w.value = w.partwise) ∧
    (w.text.length ≤ p.maxLength → 2 * w.text.length < p.maxDepth →
      ∀ m, p.evaluate m w.text = w.value) := by
  obtain ⟨ts, hsaid⟩ := w.exists_text
  rw [← w.expandCarets_text] at hsaid
  have hread (hparse : p.parse w.text = .ok w.tree) (m : Mode) :
      p.evaluate m w.text = w.value := by
    rw [Policy.evaluate_of_parse hparse, w.evaluate_tree hp]
  have hrefused {fault : Fault} (hparse : p.parse w.text = .error (.unreadable w.text fault))
      (m : Mode) : p.evaluate m w.text = .error (.unreadable w.text fault) := by
    rw [Policy.evaluate, hparse]
    rfl
  refine ⟨fun m => ?_, ?_, ?_, Formula.value_eq_partwise, fun hlength hdepth => ?_⟩
  · obtain hparse | ⟨fault, hlimit, hparse⟩ := hsaid.parse_eq_ok_or p
    · exact .inl (hread hparse m)
    · exact .inr ⟨fault, hlimit, hrefused hparse m⟩
  · obtain hparse | ⟨fault, -, hparse⟩ := hsaid.parse_eq_ok_or p
    · rw [hread hparse, hread hparse]
    · rw [hrefused hparse, hrefused hparse]
  · generalize hvalue : w.value = a
    have hsettled := w.settled_value
    rw [hvalue] at hsettled
    cases hsettled with
    | value x => exact .inl ⟨x, rfl, Formula.isFinite_of_value_eq_ok hvalue⟩
    | divisionByZero => exact .inr (.inl rfl)
    | undefined cause => exact .inr (.inr ⟨cause, rfl⟩)
  · exact hread (hsaid.parse_of_length hlength hdepth)

/-- The sign of a base goes before the power. -/
theorem evaluate_formula_signed_base :
    Policy.evaluate {} .basic "(-pi ^ e)" =
      (Operator.power.apply Constant.pi.value Constant.e.value).map Sign.minus.apply := by
  have hcaret : "^" ∈ Operator.power.spellings := by decide
  let w : Formula :=
    .operation .power "^" hcaret (.signed .minus (.constant .pi)) (.constant .e)
  have hlength : w.text.length = 9 := by
    rw [show w.text = "(-pi ^ e)" from rfl]
    rfl
  obtain ⟨-, -, -, -, hvalue⟩ := evaluate_formula (p := {}) rfl w
  refine (hvalue (by rw [hlength]; decide) (by rw [hlength]; decide) .basic).trans ?_
  simp only [w, Formula.value]
  rfl

/-- The parts of `(-3 ** 0)` would come to one. -/
theorem evaluate_formula_ne_partwise :
    let three : Formula := .literal ⟨['3'], none, none⟩ rfl (by decide +kernel)
    let zero : Formula := .literal ⟨['0'], none, none⟩ rfl (by decide +kernel)
    let w : Formula := .operation .power "**" (by decide) (.signed .minus three) zero
    w.text = "(-3 ** 0)" ∧
      ¬ (Policy.evaluate {} .basic w.text = w.partwise ∨ ∃ fault, fault.isLimit = true ∧
        Policy.evaluate {} .basic w.text = .error (.unreadable w.text fault)) := by
  intro three zero w
  have htext : w.text = "(-3 ** 0)" := rfl
  have hvalue : (Policy.evaluate {} .basic "(-3 ** 0)").toOption.map Float.toBits =
      some (-1 : Float).toBits := by decide +kernel
  have hparts : w.partwise.toOption.map Float.toBits = some (1 : Float).toBits := by decide +kernel
  refine ⟨htext, ?_⟩
  rw [htext]
  rintro (h | ⟨fault, -, h⟩)
  · rw [h, hparts] at hvalue
    exact absurd hvalue (by decide +kernel)
  · rw [h] at hvalue
    cases hvalue

end Reckoner
