import Reckoner.Evaluation
import Reckoner.Proofs.Grammar.Bodies
import Reckoner.Proofs.Grammar.Completeness
import Mathlib.Data.Finset.Basic
import Mathlib.Data.Fintype.EquivFin
import Mathlib.Data.List.Perm.Basic

/-!
# The quoted texts of a tree

The bodies of the quoted texts in a tree (`Expr.texts`) are those among the tokens that write
it (`Writes.texts_perm`). They decide nothing else: with other bodies a tree is as deep as it
was, and it has the same value or the same refusal (`evaluate_mapTexts`).
-/

namespace Reckoner

/-- The body of the token, if it is a quoted text. -/
def Token.body? : Token → Option String
  | .text body => some body
  | _ => none

theorem Token.firstLarge?_map_mapText {f : String → String} (ts : List Token) :
    firstLarge? (ts.map (mapText f)) = firstLarge? ts := by
  induction ts with
  | nil => rfl
  | cons t ts ih =>
    cases t with
    | number n => simp only [List.map_cons, mapText, firstLarge?, ih]
    | _ => exact ih

namespace Expr

/-- The body of the root, if it is a quoted text. -/
def body? : Expr → Option String
  | .text body => some body
  | _ => none

/-- The bodies of the quoted texts in a tree. -/
def texts (e : Expr) : List String := e.subterms.filterMap body?

theorem texts_eq (e : Expr) : e.texts = e.body?.toList ++ e.children.flatMap texts := by
  have hchildren : (e.children.flatMap subterms).filterMap body? = e.children.flatMap texts :=
    List.filterMap_flatMap
  rw [texts, subterms_eq, List.filterMap_cons, hchildren]
  cases e.body? <;> rfl

/-! ### Other bodies -/

variable {f : String → String}

theorem mapKeywordTexts_eq (es : List (String × Expr)) :
    mapKeywordTexts f es = es.map fun ke => (ke.1, ke.2.mapTexts f) := by
  induction es with
  | nil => rfl
  | cons ke es ih => rw [mapKeywordTexts, ih, List.map_cons]

theorem children_mapTexts (e : Expr) : (e.mapTexts f).children = e.children.map (mapTexts f) := by
  cases e <;> simp [mapTexts, children, mapAllTexts_eq, mapKeywordTexts_eq]

theorem texts_mapTexts (e : Expr) : (e.mapTexts f).texts = e.texts.map f := by
  induction e using childrenInduction with
  | step e ih =>
    have hbody : (e.mapTexts f).body? = e.body?.map f := by
      cases e <;> rfl
    have hchildren : e.children.flatMap (fun c => (c.mapTexts f).texts)
        = e.children.flatMap fun c => c.texts.map f := by
      rw [List.flatMap_def, List.flatMap_def, List.map_congr_left ih]
    rw [texts_eq, texts_eq, hbody, children_mapTexts, List.flatMap_map, hchildren,
      List.map_append, List.map_flatMap]
    cases e.body? <;> rfl

@[simp] theorem depth_mapTexts (e : Expr) : (e.mapTexts f).depth = e.depth :=
  depth_eq_of_children children_mapTexts e

/-! ### Evaluation -/

/-- An expression names the same whatever its quoted texts are. -/
theorem resolveName_mapTexts (e : Expr) : (e.mapTexts f).resolveName = e.resolveName := by
  cases e with
  | «attribute» base property => cases base <;> rfl
  | _ => rfl

/-- **Quoted texts have no bearing on evaluation.** -/
theorem evaluate_mapTexts (e : Expr) (p : Policy) (m : Mode) :
    (e.mapTexts f).evaluate p m = e.evaluate p m := by
  induction e using childrenInduction with
  | step e ih =>
    cases e with
    | binary op l r =>
      rw [mapTexts, evaluate, evaluate, ih l (by simp [children]), ih r (by simp [children])]
    | signed s e => rw [mapTexts, evaluate, evaluate, ih e (by simp [children])]
    | group e => rw [mapTexts, evaluate, evaluate, ih e (by simp [children])]
    | «attribute» base property =>
      have hname := resolveName_mapTexts (f := f) (.attribute base property)
      rw [mapTexts] at hname ⊢
      rw [evaluate, evaluate, resolveConstant, resolveConstant, hname]
    | call callee args keywords =>
      have hcallee : (callee.mapTexts f).resolveFunction = callee.resolveFunction := by
        rw [resolveFunction, resolveFunction, resolveName_mapTexts]
      rw [mapTexts, evaluate, evaluate, hcallee, mapAllTexts_eq, mapKeywordTexts_eq]
      -- only the one argument without a name is evaluated
      rcases args with _ | ⟨arg, _ | ⟨_, args⟩⟩
      · rfl
      · cases keywords with
        | nil =>
          simp only [List.map_cons, List.map_nil, ih arg (by simp [children])]
        | cons => rfl
      · simp only [List.map_cons, List.length_cons, List.length_map]
    | _ => rfl

end Expr

/-! ### Writing -/

/-- The bodies of the quoted texts among the tokens. -/
def Token.bodies (ts : List Token) : List String := ts.filterMap body?

namespace Token

@[simp] theorem bodies_nil : bodies [] = [] := rfl

@[simp] theorem bodies_append (ts us : List Token) : bodies (ts ++ us) = bodies ts ++ bodies us :=
  List.filterMap_append

/-- Only a quoted text has a body. -/
theorem bodies_cons {t : Token} (h : t.body? = none) (ts : List Token) :
    bodies (t :: ts) = bodies ts :=
  List.filterMap_cons_none h

@[simp] theorem bodies_symbol (s : Symbol) (ts : List Token) :
    bodies (.symbol s :: ts) = bodies ts :=
  bodies_cons rfl ts

@[simp] theorem bodies_name (id : String) (ts : List Token) : bodies (.name id :: ts) = bodies ts :=
  bodies_cons rfl ts

@[simp] theorem bodies_keyword (k : Keyword) (ts : List Token) :
    bodies (.keyword k :: ts) = bodies ts :=
  bodies_cons rfl ts

@[simp] theorem bodies_commaJoined (trailing : Bool) (tss : List (List Token)) :
    bodies (commaJoined trailing tss) = tss.flatMap bodies := by
  induction tss with
  | nil => rfl
  | cons ts tss ih =>
    cases tss with
    | nil => cases trailing <;> simp [commaJoined]
    | cons us tss =>
      rw [commaJoined, bodies_append, bodies_symbol, ih]
      rfl

@[simp] theorem bodies_parameterTokens (params : List String) :
    bodies (parameterTokens params) = [] := by
  rw [parameterTokens, bodies_commaJoined, List.flatMap_map, List.flatMap_eq_nil_iff]
  exact fun _ _ => rfl

@[simp] theorem bodies_piece (p : Piece) : bodies p.tokens = bodies p.body := by
  cases hl : p.label <;> simp [Piece.tokens, hl]

end Token

open Token (bodies)

/-- **The quoted texts among the tokens are those of the tree**, perhaps in another order. -/
theorem Writes.texts_perm {ts : List Token} {e : Expr} (h : Writes ts e) :
    (bodies ts).Perm e.texts := by
  have hpieces {ps : List Piece} (h : ∀ p ∈ ps, (bodies p.body).Perm p.value.texts) :
      (ps.flatMap fun p => bodies p.body).Perm ((ps.map Piece.value).flatMap Expr.texts) := by
    rw [List.flatMap_map]
    exact List.Perm.flatMap_left ps h
  induction h with
  | number | text | name => exact .refl _
  | @list trailing ps items ih =>
    rw [Expr.texts_eq]
    simpa [List.flatMap_map, Expr.body?, Expr.children] using hpieces ih
  | @call trailing ts f ps callee arguments ihf iha =>
    have harguments := (Piece.perm_arguments ps).flatMap_right Expr.texts
    rw [Expr.texts_eq]
    simpa [List.flatMap_map, Expr.body?, Expr.children] using
      ihf.append ((hpieces iha).trans harguments.symm)
  | subscript base index ihb ihi =>
    rw [Expr.texts_eq]
    simpa [Expr.body?, Expr.children] using ihb.append ihi
  | join j left right ihl ihr =>
    have hj : j.token.body? = none := by
      cases j with
      | arithmetic op | comparison op | connective op => cases op <;> rfl
    have hbody (l r : Expr) : (j.apply l r).body? = none := by
      cases j <;> rfl
    rw [Expr.texts_eq, hbody, Join.children_apply, Token.bodies_append, Token.bodies_cons hj]
    simpa using ihl.append ihr
  | signed s operand ih =>
    rw [Expr.texts_eq]
    cases s <;> simpa [Sign.token, Expr.body?, Expr.children] using ih
  | group _ ih | lambda _ _ ih | property _ _ ih | negate _ ih | assign _ _ ih =>
    rw [Expr.texts_eq]
    simpa [Expr.body?, Expr.children] using ih

/-! ### One body -/

namespace Grammar

theorem map_mapText_of_forall {f : String → String} {ts : List Token}
    (h : ∀ s ∈ bodies ts, f s = s) : ts.map (Token.mapText f) = ts := by
  induction ts with
  | nil => rfl
  | cons t ts ih =>
    cases t with
    | text body =>
      obtain ⟨hbody, hts⟩ := List.forall_mem_cons.mp h
      rw [List.map_cons, ih hts, Token.mapText, hbody]
    | _ => exact congrArg (_ :: ·) (ih h)

/-- **The body of one quoted text** stands in one place of the tree, whatever it is. -/
theorem exists_texts {ts us : List Token} {body : String} {e : Expr}
    (h : parse? (ts ++ .text body :: us) = some e) :
    ∃ before after, e.texts = before ++ body :: after ∧
      ∀ {body' : String} {d : Expr}, parse? (ts ++ .text body' :: us) = some d →
        d.texts = before ++ body' :: after := by
  -- a body that is not among the others marks the place
  obtain ⟨mark, hmark⟩ := Infinite.exists_notMem_finset (bodies (ts ++ us)).toFinset
  rw [List.mem_toFinset, Token.bodies_append, List.mem_append, not_or] at hmark
  obtain ⟨m, hm⟩ : ∃ m, parse? (ts ++ .text mark :: us) = some m := by
    have hsame := parse?_map_mapText (f := fun _ => "") (ts ++ .text mark :: us)
    have hblank : (ts ++ .text mark :: us).map (Token.mapText fun _ => "")
        = (ts ++ .text body :: us).map (Token.mapText fun _ => "") := by
      simp [Token.mapText]
    rw [hblank, parse?_map_mapText, h] at hsame
    obtain ⟨m, hm, -⟩ := Option.map_eq_some_iff.mp hsame.symm
    exact ⟨m, hm⟩
  have hperm : (bodies ts ++ mark :: bodies us).Perm m.texts := by
    have := (parse?_eq_some_iff.mp hm).1.texts_perm
    rwa [Token.bodies_append] at this
  have hmem : mark ∈ m.texts := hperm.mem_iff.mp (by simp)
  obtain ⟨before, after, hsplit⟩ := List.append_of_mem hmem
  have honce : mark ∉ before ∧ mark ∉ after := by
    have hcount := hperm.count_eq mark
    rw [hsplit, List.count_append, List.count_append, List.count_cons_self, List.count_cons_self,
      List.count_eq_zero_of_not_mem hmark.1, List.count_eq_zero_of_not_mem hmark.2] at hcount
    constructor <;> refine List.count_eq_zero.mp ?_ <;> omega
  have hfill {b : String} {d : Expr} (hd : parse? (ts ++ .text b :: us) = some d) :
      d.texts = before ++ b :: after := by
    let f : String → String := fun s => if s = mark then b else s
    have hkept {l : List String} (hl : mark ∉ l) (s : String) (hs : s ∈ l) : f s = s := by
      refine if_neg ?_
      rintro rfl
      exact hl hs
    have hbody : f mark = b := if_pos rfl
    have htokens : (ts ++ .text mark :: us).map (Token.mapText f) = ts ++ .text b :: us := by
      rw [List.map_append, List.map_cons, map_mapText_of_forall (hkept hmark.1),
        map_mapText_of_forall (hkept hmark.2), Token.mapText, hbody]
    have hparse := parse?_map_mapText (f := f) (ts ++ .text mark :: us)
    rw [htokens, hd, hm] at hparse
    cases hparse
    rw [Expr.texts_mapTexts, hsplit, List.map_append, List.map_cons, hbody,
      List.map_congr_left (hkept honce.1), List.map_congr_left (hkept honce.2), List.map_id',
      List.map_id']
  exact ⟨before, after, hfill h, hfill⟩

end Grammar

end Reckoner
