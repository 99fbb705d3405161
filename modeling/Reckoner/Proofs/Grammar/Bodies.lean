import Reckoner.Proofs.Grammar.Soundness

/-!
# The grammar does not look into quoted texts

The body of a quoted text goes into the tree as it is and decides nothing. So changing the
bodies among the tokens changes them in the tree and nothing else (`parse?_map_mapText`). Each
reader has this property (`Blind`) if the readers that it enters again have it.
-/

namespace Reckoner

/-! ### Changing the bodies -/

/-- The token with another body, if it is a quoted text. -/
def Token.mapText (f : String → String) : Token → Token
  | .text body => .text (f body)
  | t => t

namespace Expr

mutual

/-- The tree with another body for each quoted text. -/
def mapTexts (f : String → String) : Expr → Expr
  | .number x => .number x
  | .text body => .text (f body)
  | .name id => .name id
  | .list items => .list (mapAllTexts f items)
  | .binary op l r => .binary op (l.mapTexts f) (r.mapTexts f)
  | .signed s e => .signed s (e.mapTexts f)
  | .compare op l r => .compare op (l.mapTexts f) (r.mapTexts f)
  | .connect op l r => .connect op (l.mapTexts f) (r.mapTexts f)
  | .negate e => .negate (e.mapTexts f)
  | .group e => .group (e.mapTexts f)
  | .call g args keywords =>
    .call (g.mapTexts f) (mapAllTexts f args) (mapKeywordTexts f keywords)
  | .attribute b p => .attribute (b.mapTexts f) p
  | .subscript b i => .subscript (b.mapTexts f) (i.mapTexts f)
  | .lambda params e => .lambda params (e.mapTexts f)
  | .assign x e => .assign x (e.mapTexts f)

/-- The trees of a list with other bodies. -/
def mapAllTexts (f : String → String) : List Expr → List Expr
  | [] => []
  | e :: es => e.mapTexts f :: mapAllTexts f es

/-- The trees behind keywords with other bodies. -/
def mapKeywordTexts (f : String → String) : List (String × Expr) → List (String × Expr)
  | [] => []
  | (k, e) :: es => (k, e.mapTexts f) :: mapKeywordTexts f es

end

variable {f : String → String}

theorem mapAllTexts_eq (es : List Expr) : mapAllTexts f es = es.map (mapTexts f) := by
  induction es with
  | nil => rfl
  | cons e es ih => rw [mapAllTexts, ih, List.map_cons]

theorem mapTexts_apply (j : Join) (l r : Expr) :
    (j.apply l r).mapTexts f = j.apply (l.mapTexts f) (r.mapTexts f) := by
  cases j <;> rfl

end Expr

namespace Grammar

variable {f : String → String}

/-- The argument with other bodies. -/
def Argument.mapTexts (f : String → String) : Argument → Argument
  | .positional e => .positional (e.mapTexts f)
  | .keyword k e => .keyword k (e.mapTexts f)

theorem positionals_map (as : List Argument) :
    positionals (as.map (Argument.mapTexts f)) = Expr.mapAllTexts f (positionals as) := by
  induction as with
  | nil => rfl
  | cons a as ih =>
    cases a with
    | positional e => exact congrArg (e.mapTexts f :: ·) ih
    | keyword k e => exact ih

theorem keywords_map (as : List Argument) :
    keywords (as.map (Argument.mapTexts f)) = Expr.mapKeywordTexts f (keywords as) := by
  induction as with
  | nil => rfl
  | cons a as ih =>
    cases a with
    | positional e => exact ih
    | keyword k e => exact congrArg ((k, e.mapTexts f) :: ·) ih

/-! ### Readers -/

/-- A result with other bodies, both in what was read and in the tokens that are left. -/
def mapResult (f : String → String) (F : α → β) : α × List Token → β × List Token :=
  Prod.map F (List.map (Token.mapText f))

/-- The bodies of quoted texts pass through the reader. -/
def Blind (f : String → String) (F : α → α) (r : Reader α) : Prop :=
  ∀ ts, r (ts.map (Token.mapText f)) = (r ts).map (mapResult f F)

theorem head?_map_eq_symbol_iff {ts : List Token} {s : Symbol} :
    (ts.map (Token.mapText f)).head? = some (.symbol s) ↔ ts.head? = some (.symbol s) := by
  cases ts with
  | nil => rfl
  | cons t ts => cases t <;> simp [Token.mapText]

theorem Level.join?_mapText (l : Level) (t : Token) : l.join? (t.mapText f) = l.join? t := by
  cases t <;> rfl

/-- The tokens that bound the rounds are changed as well; their number is the same. -/
theorem chain_map {l : Level} {operand : Reader Expr} (h : Blind f (Expr.mapTexts f) operand)
    (rounds ts : List Token) (left : Expr) :
    chain l.join? operand (rounds.map (Token.mapText f)) (left.mapTexts f)
        (ts.map (Token.mapText f)) =
      (chain l.join? operand rounds left ts).map (mapResult f (Expr.mapTexts f)) := by
  induction rounds generalizing left ts with
  | nil => cases ts <;> rfl
  | cons round rounds ih =>
    cases ts with
    | nil => rfl
    | cons t ts =>
      simp only [List.map_cons, chain, Level.join?_mapText]
      cases hj : l.join? t with
      | none => rfl
      | some join =>
        obtain ⟨j, -, rfl, -⟩ := Level.exists_of_join? hj
        simp only [h ts]
        cases operand ts with
        | none => rfl
        | some result =>
          obtain ⟨right, rest⟩ := result
          simp only [Option.map_some, mapResult, Prod.map, ← Expr.mapTexts_apply, ih]

theorem Blind.leftToRight {operand : Reader Expr} (l : Level)
    (h : Blind f (Expr.mapTexts f) operand) :
    Blind f (Expr.mapTexts f) (leftToRight l.join? operand) := by
  intro ts
  unfold Grammar.leftToRight
  rw [h ts]
  cases operand ts with
  | none => rfl
  | some result => exact chain_map h result.2 result.2 result.1

theorem items_map {item : Reader α} {F : α → α} (h : Blind f F item) (close : Symbol)
    (rounds ts : List Token) :
    items close item (rounds.map (Token.mapText f)) (ts.map (Token.mapText f)) =
      (items close item rounds ts).map (mapResult f (List.map F)) := by
  induction rounds generalizing ts with
  | nil =>
    unfold items
    by_cases hclose : ts.head? = some (.symbol close)
    · rw [if_pos hclose, if_pos (head?_map_eq_symbol_iff.mpr hclose), ← List.map_tail]
      rfl
    · rw [if_neg hclose, if_neg (mt head?_map_eq_symbol_iff.mp hclose)]
      rfl
  | cons round rounds ih =>
    unfold items
    by_cases hclose : ts.head? = some (.symbol close)
    · rw [if_pos hclose, if_pos (head?_map_eq_symbol_iff.mpr hclose), ← List.map_tail]
      rfl
    · rw [if_neg hclose, if_neg (mt head?_map_eq_symbol_iff.mp hclose), h ts]
      cases item ts with
      | none => rfl
      | some result =>
        obtain ⟨a, _ | ⟨t, rest⟩⟩ := result
        · rfl
        · cases t with
          | symbol s =>
            simp only [Option.map_some, mapResult, Prod.map, List.map_cons, Token.mapText, ih]
            split
            · rfl
            · split
              · cases items close item rounds rest <;> rfl
              · rfl
          | _ => rfl

theorem parameters_blind : Blind f id parameters := by
  intro ts
  fun_induction parameters ts with
  | case1 p ts => rfl
  | case2 p ts ih =>
    rw [List.map_cons, List.map_cons]
    simp only [Token.mapText, parameters, ih]
    cases parameters ts <;> rfl
  | case3 ts hlast hmore =>
    rcases ts with _ | ⟨t, _ | ⟨u, ts⟩⟩
    · rfl
    · cases t <;> rfl
    · cases t with
      | name p =>
        cases u with
        | symbol s =>
          cases s with
          | colon => exact (hlast p ts rfl).elim
          | comma => exact (hmore p ts rfl).elim
          | _ => rfl
        | _ => rfl
      | _ => rfl

theorem parameters?_blind : Blind f id parameters? := by
  intro ts
  rcases ts with _ | ⟨t, ts⟩
  · rfl
  · have hsome := parameters_blind (f := f) (t :: ts)
    cases t with
    | symbol s =>
      cases s with
      | colon => rfl
      | _ => exact hsome
    | _ => exact hsome

section

variable {again : Entry → Reader Expr} (hagain : ∀ k : Entry, Blind f (Expr.mapTexts f) (again k))

include hagain

/-- Entering the grammar again and putting the tree under a head. -/
theorem under_blind {F : α → α} (k : Entry) (head : Expr → α)
    (hhead : ∀ e, head (e.mapTexts f) = F (head e)) :
    Blind f F fun ts => (again k ts).map fun (e, r) => (head e, r) := by
  intro ts
  simp only [hagain k ts]
  cases again k ts with
  | none => rfl
  | some result => simp only [Option.map_some, mapResult, Prod.map, hhead]

theorem argument_blind : Blind f (Argument.mapTexts f) (argument again) := by
  have hpositional : Blind f (Argument.mapTexts f) _ :=
    under_blind hagain .expression .positional fun _ => rfl
  -- only a name and an assignment sign make a keyword, and neither is a quoted text
  intro ts
  rcases ts with _ | ⟨t, _ | ⟨u, ts⟩⟩
  · exact hpositional []
  · have hone := hpositional [t]
    cases t <;> exact hone
  · have hmany := hpositional (t :: u :: ts)
    cases t with
    | name k =>
      cases u with
      | symbol s =>
        cases s with
        | assign => exact under_blind hagain .expression (Argument.keyword k) (fun _ => rfl) ts
        | _ => exact hmany
      | _ => exact hmany
    | _ => exact hmany

theorem primary_blind : Blind f (Expr.mapTexts f) (primary again) := by
  intro ts
  rcases ts with _ | ⟨t, ts⟩
  · rfl
  · cases t with
    | keyword k =>
      cases k with
      | lambda =>
        simp only [List.map_cons, Token.mapText, primary, parameters?_blind ts]
        cases parameters? ts with
        | none => rfl
        | some result =>
          obtain ⟨params, rest⟩ := result
          simp only [Option.map_some, mapResult, Prod.map, hagain .expression rest]
          cases again .expression rest <;> rfl
      | _ => rfl
    | symbol s =>
      cases s with
      | openParen =>
        simp only [List.map_cons, Token.mapText, primary, hagain .expression ts]
        cases again .expression ts with
        | none => rfl
        | some result =>
          obtain ⟨e, _ | ⟨t, rest⟩⟩ := result
          · rfl
          · cases t with
            | symbol s => cases s <;> rfl
            | _ => rfl
      | openBracket =>
        simp only [List.map_cons, Token.mapText, primary,
          items_map (hagain .expression) .closeBracket ts ts]
        cases items .closeBracket (again .expression) ts ts with
        | none => rfl
        | some result =>
          simp only [Option.map_some, mapResult, Prod.map, Expr.mapTexts, Expr.mapAllTexts_eq]
      | _ => rfl
    | _ => rfl

theorem suffixes_map (rounds ts : List Token) (base : Expr) :
    suffixes again (rounds.map (Token.mapText f)) (base.mapTexts f) (ts.map (Token.mapText f)) =
      (suffixes again rounds base ts).map (mapResult f (Expr.mapTexts f)) := by
  induction rounds generalizing base ts with
  | nil => rfl
  | cons round rounds ih =>
    rcases ts with _ | ⟨t, ts⟩
    · rfl
    · cases t with
      | symbol s =>
        cases s with
        | openParen =>
          simp only [List.map_cons, Token.mapText, suffixes,
            items_map (argument_blind hagain) .closeParen ts ts]
          cases items .closeParen (argument again) ts ts with
          | none => rfl
          | some result =>
            simp only [Option.map_some, mapResult, Prod.map, positionals_map, keywords_map]
            exact ih result.2 (.call base (positionals result.1) (keywords result.1))
        | openBracket =>
          simp only [List.map_cons, Token.mapText, suffixes, hagain .expression ts]
          cases again .expression ts with
          | none => rfl
          | some result =>
            obtain ⟨i, _ | ⟨t, rest⟩⟩ := result
            · rfl
            · cases t with
              | symbol s =>
                cases s with
                | closeBracket => exact ih rest (.subscript base i)
                | _ => rfl
              | _ => rfl
        | dot =>
          rcases ts with _ | ⟨t, rest⟩
          · rfl
          · cases t with
            | name p => exact ih rest (.attribute base p)
            | _ => rfl
        | _ => rfl
      | _ => rfl

theorem postfixed_blind : Blind f (Expr.mapTexts f) (postfixed again) := by
  intro ts
  unfold postfixed
  rw [primary_blind hagain ts]
  cases primary again ts with
  | none => rfl
  | some result => exact suffixes_map hagain result.2 result.2 result.1

theorem power_blind : Blind f (Expr.mapTexts f) (power again) := by
  intro ts
  unfold power
  rw [postfixed_blind hagain ts]
  cases postfixed again ts with
  | none => rfl
  | some result =>
    obtain ⟨base, _ | ⟨t, rest⟩⟩ := result
    · rfl
    · cases t with
      | symbol s =>
        cases s with
        | power =>
          simp only [Option.map_some, mapResult, Prod.map, List.map_cons, Token.mapText,
            hagain .factor rest]
          cases again .factor rest <;> rfl
        | _ => rfl
      | _ => rfl

theorem factor_blind : Blind f (Expr.mapTexts f) (factor again) := by
  intro ts
  induction ts with
  | nil => exact power_blind hagain []
  | cons t ts ih =>
    have hpower := power_blind hagain (t :: ts)
    cases t with
    | symbol s =>
      cases s with
      | plus =>
        simp only [List.map_cons, Token.mapText, factor, ih]
        cases factor again ts <;> rfl
      | minus =>
        simp only [List.map_cons, Token.mapText, factor, ih]
        cases factor again ts <;> rfl
      | _ => exact hpower
    | _ => exact hpower

theorem comparison_blind : Blind f (Expr.mapTexts f) (comparison again) := by
  unfold comparison sum term
  rw [productOperator?_eq, sumOperator?_eq, comparisonOperator?_eq]
  exact .leftToRight _ (.leftToRight _ (.leftToRight _ (factor_blind hagain)))

theorem negation_blind : Blind f (Expr.mapTexts f) (negation again) := by
  intro ts
  rcases ts with _ | ⟨t, ts⟩
  · exact comparison_blind hagain []
  · have hcomparison := comparison_blind hagain (t :: ts)
    cases t with
    | keyword k =>
      cases k with
      | not => exact under_blind hagain .negation Expr.negate (fun _ => rfl) ts
      | _ => exact hcomparison
    | _ => exact hcomparison

theorem expression_blind : Blind f (Expr.mapTexts f) (expression again) := by
  unfold expression conjunction
  rw [andOperator?_eq, orOperator?_eq]
  exact .leftToRight _ (.leftToRight _ (negation_blind hagain))

theorem statement_blind : Blind f (Expr.mapTexts f) (statement again) := by
  intro ts
  rcases ts with _ | ⟨t, _ | ⟨u, ts⟩⟩
  · exact expression_blind hagain []
  · have hone := expression_blind hagain [t]
    cases t <;> exact hone
  · have hmany := expression_blind hagain (t :: u :: ts)
    cases t with
    | name x =>
      cases u with
      | symbol s =>
        cases s with
        | assign => exact under_blind hagain .expression (Expr.assign x) (fun _ => rfl) ts
        | _ => exact hmany
      | _ => exact hmany
    | _ => exact hmany

end

/-! ### The whole grammar -/

theorem read_blind (n : Nat) (k : Entry) : Blind f (Expr.mapTexts f) (read n k) := by
  induction n generalizing k with
  | zero => exact fun _ => rfl
  | succ n ih =>
    cases k with
    | expression => exact expression_blind ih
    | negation => exact negation_blind ih
    | factor => exact factor_blind ih

/-- Changing the bodies of quoted texts changes them in the tree and nothing else. -/
theorem parse?_map_mapText (ts : List Token) :
    parse? (ts.map (Token.mapText f)) = (parse? ts).map (Expr.mapTexts f) := by
  unfold parse? parseWithin
  rw [List.length_map, statement_blind (read_blind ts.length) ts]
  cases statement (read ts.length) ts with
  | none => rfl
  | some result => obtain ⟨e, _ | ⟨t, rest⟩⟩ := result <;> rfl

end Grammar

end Reckoner
