import Reckoner.Proofs.Grammar.Writing

/-!
# Other numbers in the same places

The grammar does not look at the values of number literals: tokens with other literals write
the same tree with other numbers (`Writes.mapNumbers`), which has the same depth and the same
shape.
-/

namespace Reckoner

/-! ### The tokens -/

/-- The token with another literal if it is a number. -/
def Token.respelled (f : Numeral → Numeral) : Token → Token
  | .number n => .number (f n)
  | t => t

theorem map_commaJoined (g : Token → Token) (hcomma : g (.symbol .comma) = .symbol .comma)
    (trailing : Bool) (tss : List (List Token)) :
    (commaJoined trailing tss).map g = commaJoined trailing (tss.map (List.map g)) := by
  induction tss with
  | nil => rfl
  | cons ts tss ih =>
    cases tss with
    | nil => cases trailing <;> simp [commaJoined, hcomma]
    | cons us tss => simpa [commaJoined, hcomma] using ih

/-! ### The tree -/

namespace Expr

mutual

/-- The tree with other numbers. -/
def mapNumbers (g : Float → Float) : Expr → Expr
  | .number x => .number (g x)
  | .text body => .text body
  | .name id => .name id
  | .list items => .list (mapAllNumbers g items)
  | .binary op l r => .binary op (l.mapNumbers g) (r.mapNumbers g)
  | .signed s e => .signed s (e.mapNumbers g)
  | .compare op l r => .compare op (l.mapNumbers g) (r.mapNumbers g)
  | .connect op l r => .connect op (l.mapNumbers g) (r.mapNumbers g)
  | .negate e => .negate (e.mapNumbers g)
  | .group e => .group (e.mapNumbers g)
  | .call f args keywords =>
    .call (f.mapNumbers g) (mapAllNumbers g args) (mapKeywordNumbers g keywords)
  | .attribute b p => .attribute (b.mapNumbers g) p
  | .subscript b i => .subscript (b.mapNumbers g) (i.mapNumbers g)
  | .lambda params e => .lambda params (e.mapNumbers g)
  | .assign x e => .assign x (e.mapNumbers g)

/-- The trees of a list with other numbers. -/
def mapAllNumbers (g : Float → Float) : List Expr → List Expr
  | [] => []
  | e :: es => e.mapNumbers g :: mapAllNumbers g es

/-- The trees behind keywords with other numbers. -/
def mapKeywordNumbers (g : Float → Float) : List (String × Expr) → List (String × Expr)
  | [] => []
  | (k, e) :: es => (k, e.mapNumbers g) :: mapKeywordNumbers g es

end

variable {g : Float → Float}

theorem mapAllNumbers_eq (es : List Expr) : mapAllNumbers g es = es.map (mapNumbers g) := by
  induction es with
  | nil => rfl
  | cons e es ih => rw [mapAllNumbers, ih, List.map_cons]

theorem mapKeywordNumbers_eq (es : List (String × Expr)) :
    mapKeywordNumbers g es = es.map fun ke => (ke.1, ke.2.mapNumbers g) := by
  induction es with
  | nil => rfl
  | cons ke es ih => rw [mapKeywordNumbers, ih, List.map_cons]

theorem children_mapNumbers (e : Expr) :
    (e.mapNumbers g).children = e.children.map (mapNumbers g) := by
  cases e <;> simp [mapNumbers, children, mapAllNumbers_eq, mapKeywordNumbers_eq]

theorem mapNumbers_id (e : Expr) : e.mapNumbers id = e := by
  induction e using childrenInduction with
  | step e ih =>
    cases e with
    | number | text | name => rfl
    | list items =>
      replace ih : ∀ e ∈ items, e.mapNumbers id = e := ih
      rw [mapNumbers, mapAllNumbers_eq, List.map_congr_left ih, List.map_id']
    | call f args keywords =>
      obtain ⟨hf, hrest⟩ := List.forall_mem_cons.mp ih
      obtain ⟨hargs, hkeywords⟩ := List.forall_mem_append.mp hrest
      have hpairs : ∀ ke ∈ keywords, (ke.1, ke.2.mapNumbers id) = ke :=
        fun ke hke => congrArg (ke.1, ·) (hkeywords _ (List.mem_map_of_mem hke))
      rw [mapNumbers, mapAllNumbers_eq, mapKeywordNumbers_eq, hf, List.map_congr_left hargs,
        List.map_congr_left hpairs, List.map_id', List.map_id']
    | _ => simp_all [mapNumbers, children]

theorem mapNumbers_apply (j : Join) (l r : Expr) :
    (j.apply l r).mapNumbers g = j.apply (l.mapNumbers g) (r.mapNumbers g) := by
  cases j <;> rfl

@[simp] theorem depth_mapNumbers (e : Expr) : (e.mapNumbers g).depth = e.depth :=
  depth_eq_of_children children_mapNumbers e

@[simp] theorem level_mapNumbers (e : Expr) : (e.mapNumbers g).level = e.level := by
  cases e <;> rfl

@[simp] theorem endsOpen_mapNumbers (e : Expr) : (e.mapNumbers g).endsOpen = e.endsOpen := by
  induction e using childrenInduction with
  | step e ih => cases e <;> simp_all [mapNumbers, children, endsOpen]

@[simp] theorem isBase_mapNumbers (l : Level) (e : Expr) :
    (e.mapNumbers g).isBase l = e.isBase l := by
  simp [isBase]

theorem rootShaped_mapNumbers (e : Expr) : (e.mapNumbers g).rootShaped = e.rootShaped := by
  cases e with
  | binary op l r => cases op <;> simp [mapNumbers, rootShaped]
  | _ => simp [mapNumbers, rootShaped, mapAllNumbers_eq, mapKeywordNumbers_eq, Function.comp_def]

theorem shaped_mapNumbers (e : Expr) : (e.mapNumbers g).shaped = e.shaped := by
  induction e using childrenInduction with
  | step e ih =>
    rw [Bool.eq_iff_iff, shaped_iff, shaped_iff, rootShaped_mapNumbers, children_mapNumbers,
      List.forall_mem_map]
    exact and_congr_right fun _ => forall₂_congr fun c hc => by rw [ih c hc]

end Expr

/-! ### Writing -/

/-- The item with other numbers. -/
def Piece.mapNumbers (f : Numeral → Numeral) (g : Float → Float) (p : Piece) : Piece :=
  ⟨p.label, p.body.map (Token.respelled f), p.value.mapNumbers g⟩

namespace Piece

variable {f : Numeral → Numeral} {g : Float → Float}

theorem tokens_mapNumbers (p : Piece) :
    (p.mapNumbers f g).tokens = p.tokens.map (Token.respelled f) := by
  cases hl : p.label <;> simp [tokens, mapNumbers, hl, Token.respelled]

theorem positionals_mapNumbers (ps : List Piece) :
    Grammar.positionals ((ps.map (mapNumbers f g)).map argument) =
      Expr.mapAllNumbers g (Grammar.positionals (ps.map argument)) := by
  induction ps with
  | nil => rfl
  | cons p ps ih =>
    cases hl : p.label <;>
      simp_all [argument, mapNumbers, Grammar.positionals, Expr.mapAllNumbers]

theorem keywords_mapNumbers (ps : List Piece) :
    Grammar.keywords ((ps.map (mapNumbers f g)).map argument) =
      Expr.mapKeywordNumbers g (Grammar.keywords (ps.map argument)) := by
  induction ps with
  | nil => rfl
  | cons p ps ih =>
    cases hl : p.label <;>
      simp_all [argument, mapNumbers, Grammar.keywords, Expr.mapKeywordNumbers]

end Piece

/-- **Other literals** write the same tree with other numbers. -/
theorem Writes.mapNumbers {f : Numeral → Numeral} {g : Float → Float}
    (hfg : ∀ n, (f n).value = g n.value) {ts : List Token} {e : Expr} (h : Writes ts e) :
    Writes (ts.map (Token.respelled f)) (e.mapNumbers g) := by
  have hjoined := map_commaJoined (Token.respelled f) rfl
  have forall_mapNumbers {ps : List Piece} :
      (∀ q ∈ ps.map (Piece.mapNumbers f g), Writes q.body q.value) ↔
        ∀ p ∈ ps, Writes (p.body.map (Token.respelled f)) (p.value.mapNumbers g) :=
    List.forall_mem_map
  induction h with
  | number n =>
    have := Writes.number (f n)
    rwa [hfg] at this
  | text body => exact .text body
  | name id => exact .name id
  | @list trailing ps items ih =>
    have := Writes.list trailing (forall_mapNumbers.mpr ih)
    simpa [hjoined, Function.comp_def, Token.respelled, Piece.mapNumbers, Expr.mapNumbers,
      Expr.mapAllNumbers_eq] using this
  | group inner ih => simpa [Token.respelled, Expr.mapNumbers] using Writes.group ih
  | lambda params body ih =>
    have := Writes.lambda params ih
    simpa [hjoined, parameterTokens, Function.comp_def, Token.respelled, Expr.mapNumbers] using this
  | @call trailing ts e ps callee arguments ihf iha =>
    have := Writes.call trailing ihf (forall_mapNumbers.mpr iha)
    rw [Piece.positionals_mapNumbers, Piece.keywords_mapNumbers] at this
    simpa [hjoined, Function.comp_def, Token.respelled, Piece.tokens_mapNumbers,
      Expr.mapNumbers] using this
  | subscript base index ihb ihi => simpa [Token.respelled, Expr.mapNumbers] using Writes.subscript ihb ihi
  | property p base ih => simpa [Token.respelled, Expr.mapNumbers] using Writes.property p ih
  | join j left right ihl ihr =>
    have hj : Token.respelled f j.token = j.token := by
      cases j with
      | arithmetic op | comparison op | connective op => cases op <;> rfl
    have := Writes.join j ihl ihr
    rw [List.map_append, List.map_cons, hj, Expr.mapNumbers_apply]
    exact this
  | signed s operand ih =>
    cases s with
    | plus => exact .signed .plus ih
    | minus => exact .signed .minus ih
  | negate operand ih => exact .negate ih
  | assign x value ih => exact .assign x ih

end Reckoner
