import Reckoner.Presentation
import Reckoner.Proofs.Evaluation.Alphabet
import Reckoner.Proofs.Evaluation.Composition
import Reckoner.Proofs.Evaluation.Modes

/-!
# A text mentions the functions it calls

The mode for a text is chosen before the text is read, by looking for the names of functions
among its characters. Every part of a tree is written by a stretch of the tokens, every token is
spelled by a stretch of the text, and a name stood in the text before its carets were rewritten.
So a text with a value that calls a function mentions it, and the chosen mode loses no value
(`evaluate_forText`).
-/

namespace Reckoner

/-! ### Stretches of a text -/

theorem occursIn_eq_true_iff {word cs : List Char} : occursIn word cs = true ↔ word <:+: cs := by
  induction cs with
  | nil => simp [occursIn]
  | cons c cs ih =>
    rw [occursIn, Bool.or_eq_true, ih, List.isPrefixOf_iff_prefix, List.infix_cons_iff]

/-- A prefix without a star does not begin at a star. -/
theorem Text.infix_of_infix_star {word cs : List Char} (hword : '*' ∉ word)
    (h : word <:+: '*' :: cs) : word <:+: cs := by
  rcases List.infix_cons_iff.mp h with hprefix | hinfix
  · cases word with
    | nil => exact List.nil_infix
    | cons w word =>
      obtain ⟨rfl, -⟩ := List.cons_prefix_cons.mp hprefix
      exact (hword List.mem_cons_self).elim
  · exact hinfix

/-- What has no star and stands in a text stood there before the carets were rewritten. -/
theorem Text.infix_of_infix_expandCarets {word cs : List Char} (hword : '*' ∉ word)
    (h : word <:+: expandCarets cs) : word <:+: cs := by
  induction cs with
  | nil => exact h
  | cons c cs ih =>
    by_cases hc : c = '^'
    · subst hc
      rw [expandCarets_caret] at h
      exact (ih (infix_of_infix_star hword (infix_of_infix_star hword h))).trans
        (List.suffix_cons _ _).isInfix
    · have hsplit := h
      rw [expandCarets_cons hc, List.infix_cons_iff, ← expandCarets_cons hc] at hsplit
      rcases hsplit with ⟨rest, hrest⟩ | hinfix
      · obtain ⟨cs', hcs', -⟩ := exists_of_expandCarets_eq_append hrest.symm hword
        exact ⟨[], cs', hcs'.symm⟩
      · exact (ih hinfix).trans (List.suffix_cons _ _).isInfix

/-- Every token of a text is spelled by a stretch of it. -/
theorem Token.Spaced.exists_spelling {cs : List Char} {ts : List Token} {t : Token}
    (h : Spaced cs ts) (ht : t ∈ ts) : ∃ sp, Spells sp t ∧ sp <:+: cs := by
  induction h with
  | blank => cases ht
  | @cons bs sp cs u us hbs hsp _ ih =>
    rcases List.mem_cons.mp ht with rfl | ht
    · exact ⟨sp, hsp, bs, cs, by simp⟩
    · obtain ⟨sp', hsp', hinfix⟩ := ih ht
      exact ⟨sp', hsp', hinfix.trans ⟨bs ++ sp, [], by simp⟩⟩

/-! ### Stretches of tokens -/

theorem infix_commaJoined (trailing : Bool) {ts : List Token} {tss : List (List Token)}
    (h : ts ∈ tss) : ts <:+: commaJoined trailing tss := by
  fun_induction commaJoined trailing tss with
  | case1 => cases h
  | case2 us htrailing =>
    obtain rfl := List.mem_singleton.mp h
    exact (List.prefix_append _ _).isInfix
  | case3 us htrailing =>
    obtain rfl := List.mem_singleton.mp h
    exact List.infix_refl _
  | case4 us vs rest ih =>
    rcases List.mem_cons.mp h with rfl | h
    · exact (List.prefix_append _ _).isInfix
    · exact (ih h).trans ⟨us ++ [.symbol .comma], [], by simp⟩

theorem Piece.body_infix_tokens (p : Piece) : p.body <:+: p.tokens := by
  unfold tokens
  split
  · exact List.infix_refl _
  · rename_i k _
    exact ⟨[.name k, .symbol .assign], [], by simp⟩

namespace Writes

variable {ts : List Token} {e s c : Expr}

/-- Each child of a tree is written by a stretch of the tokens. -/
theorem exists_tokens_of_child (h : Writes ts e) (hc : c ∈ e.children) :
    ∃ us, us <:+: ts ∧ Writes us c := by
  cases h with
  | number | text | name => cases hc
  | @list trailing ps items =>
    obtain ⟨p, hp, rfl⟩ := List.mem_map.mp hc
    refine ⟨p.body, (infix_commaJoined trailing (List.mem_map_of_mem hp)).trans ?_, items p hp⟩
    exact ⟨[.symbol .openBracket], [.symbol .closeBracket], by simp⟩
  | @group us inner h =>
    obtain rfl := List.mem_singleton.mp hc
    exact ⟨us, ⟨[.symbol .openParen], [.symbol .closeParen], by simp⟩, h⟩
  | @lambda params us body h =>
    obtain rfl := List.mem_singleton.mp hc
    exact ⟨us, ⟨.keyword .lambda :: (parameterTokens params ++ [.symbol .colon]), [], by simp⟩, h⟩
  | @call trailing us f ps callee arguments =>
    rcases List.mem_cons.mp hc with rfl | hc
    · exact ⟨us, (List.prefix_append _ _).isInfix, callee⟩
    · refine Piece.forall_argument_iff (P := fun c => ∃ us, us <:+: _ ∧ Writes us c).mpr
        (fun p hp => ?_) c hc
      refine ⟨p.body, p.body_infix_tokens.trans ?_, arguments p hp⟩
      refine (infix_commaJoined trailing (List.mem_map_of_mem hp)).trans ?_
      exact ⟨us ++ [.symbol .openParen], [.symbol .closeParen], by simp⟩
  | @subscript us vs b i base index =>
    simp only [Expr.children, List.mem_cons, List.not_mem_nil, or_false] at hc
    rcases hc with rfl | rfl
    · exact ⟨us, (List.prefix_append _ _).isInfix, base⟩
    · exact ⟨vs, ⟨us ++ [.symbol .openBracket], [.symbol .closeBracket], by simp⟩, index⟩
  | @property p us b base =>
    obtain rfl := List.mem_singleton.mp hc
    exact ⟨us, (List.prefix_append _ _).isInfix, base⟩
  | @join j us vs l r left right =>
    rw [Join.children_apply] at hc
    simp only [List.mem_cons, List.not_mem_nil, or_false] at hc
    rcases hc with rfl | rfl
    · exact ⟨us, (List.prefix_append _ _).isInfix, left⟩
    · exact ⟨vs, ⟨us ++ [j.token], [], by simp⟩, right⟩
  | @signed sign us e operand =>
    obtain rfl := List.mem_singleton.mp hc
    exact ⟨us, ⟨[sign.token], [], by simp⟩, operand⟩
  | @negate us e operand =>
    obtain rfl := List.mem_singleton.mp hc
    exact ⟨us, ⟨[.keyword .not], [], by simp⟩, operand⟩
  | @assign x us e value =>
    obtain rfl := List.mem_singleton.mp hc
    exact ⟨us, ⟨[.name x, .symbol .assign], [], by simp⟩, value⟩

/-- Every part of a tree is written by a stretch of the tokens. -/
theorem exists_tokens (h : Writes ts e) (hs : s ∈ e.subterms) :
    ∃ us, us <:+: ts ∧ Writes us s := by
  induction e using Expr.childrenInduction generalizing ts with
  | step e ih =>
    rw [Expr.subterms_eq] at hs
    rcases List.mem_cons.mp hs with rfl | hs
    · exact ⟨ts, List.infix_refl _, h⟩
    · obtain ⟨c, hc, hs⟩ := List.mem_flatMap.mp hs
      obtain ⟨us, hus, hw⟩ := h.exists_tokens_of_child hc
      obtain ⟨vs, hvs, hv⟩ := ih c hc hw hs
      exact ⟨vs, hvs.trans hus, hv⟩

end Writes

/-! ### Calls -/

namespace Expr

variable {p : Policy} {m : Mode} {e : Expr}

theorem mem_subterms_of_mem_children {c : Expr} (h : c ∈ e.children) : c ∈ e.subterms := by
  have hself : c ∈ c.subterms := by
    rw [subterms_eq]
    exact List.mem_cons_self
  rw [subterms_eq]
  exact List.mem_cons_of_mem _ (List.mem_flatMap.mpr ⟨c, h, hself⟩)

/-- Every call in the tree is one of a function of the catalogue. -/
def CallsNamed (e : Expr) : Prop :=
  ∀ s ∈ e.subterms, s.kind = .call → ∃ f : Elementary, ∃ callee ∈ s.children, callee.Names f.name

theorem callsNamed_of_children (hkind : e.kind ≠ .call) (h : ∀ c ∈ e.children, c.CallsNamed) :
    e.CallsNamed :=
  forall_subterms_iff.mpr ⟨fun hcall => (hkind hcall).elim, h⟩

theorem HoldsNoCall.callsNamed (h : e.HoldsNoCall) : e.CallsNamed :=
  fun s hs hcall => (h s hs hcall).elim

theorem Whitelisted.callsNamed (h : Whitelisted p m e) : e.CallsNamed := by
  induction h with
  | number => exact callsNamed_of_children (by simp [kind]) (by simp [children])
  | binary op _ _ ihl ihr =>
    exact callsNamed_of_children (by simp [kind]) (by simpa [children] using ⟨ihl, ihr⟩)
  | signed s _ ih => exact callsNamed_of_children (by simp [kind]) (by simpa [children] using ih)
  | group _ ih => exact callsNamed_of_children (by simp [kind]) (by simpa [children] using ih)
  | constant c names => exact names.holdsNoCall.callsNamed
  | @call f callee arg allowed names _ ih =>
    refine forall_subterms_iff.mpr ⟨fun _ => ⟨f, callee, List.mem_cons_self, names⟩, ?_⟩
    simpa [children] using ⟨names.holdsNoCall.callsNamed, ih⟩

/-- What may be evaluated and holds a call is written with the name of a function. -/
theorem Whitelisted.exists_name_mem (h : Whitelisted p m e) {ts : List Token} (hw : Writes ts e)
    (hcall : ¬ e.HoldsNoCall) : ∃ f : Elementary, .name f.name ∈ ts := by
  obtain ⟨s, hs, hkind⟩ : ∃ s ∈ e.subterms, s.kind = .call := by
    simpa [HoldsNoCall] using hcall
  obtain ⟨f, callee, hcallee, hnames⟩ := h.callsNamed s hs hkind
  obtain ⟨us, hus, hws⟩ := hw.exists_tokens hs
  obtain ⟨vs, hvs, hwc⟩ := hws.exists_tokens_of_child hcallee
  refine ⟨f, (hvs.trans hus).subset ?_⟩
  obtain rfl | rfl := hwc.eq_of_names hnames
  · exact List.mem_cons_self
  · exact List.mem_cons_of_mem _ (List.mem_cons_of_mem _ List.mem_cons_self)

end Expr

/-! ### The chosen mode -/

theorem Elementary.star_notMem_name (f : Elementary) : '*' ∉ f.name.toList := by
  cases f <;> decide

/-- A text that says a tree written with a name holds this name. -/
theorem Says.name_occurs {text id : String} {ts : List Token} {e : Expr}
    (h : Says (Text.expandCarets text.toList) ts e) (hid : .name id ∈ ts)
    (hstar : '*' ∉ id.toList) : id.toList <:+: text.toList := by
  obtain ⟨sp, hsp, hinfix⟩ := (Token.spaced_of_list? h.tokens).exists_spelling hid
  cases hsp with
  | name => exact Text.infix_of_infix_expandCarets hstar hinfix

theorem Mode.forText_eq_advanced {text : String} {f : Elementary}
    (h : f.name.toList <:+: text.toList) : forText text = .advanced := by
  have hany : (Elementary.all.any fun f => occursIn f.name.toList text.toList) = true := by
    refine List.any_eq_true.mpr ⟨f, ?_, occursIn_eq_true_iff.mpr h⟩
    cases f <;> decide
  rw [forText, if_pos hany]

/-- **The mode that is chosen for a text loses no value**: a text with a value in the advanced mode
has the same value in the mode chosen for it, whether the policy is strict or not. If its tree
holds a call, the name of a function stands in the text as it was given, and the chosen mode is
the advanced one. -/
theorem evaluate_forText {p : Policy} {text : String} {x : Float}
    (h : p.evaluate .advanced text = .ok x) :
    p.evaluate (Mode.forText text) text = .ok x ∧
      ∀ e, p.parse text = .ok e → ¬ e.HoldsNoCall →
        (∃ f : Elementary, f.name.toList <:+: text.toList) ∧ Mode.forText text = .advanced := by
  obtain ⟨e, hparse, he⟩ := bind_eq_ok_iff.mp h
  obtain ⟨-, ts, hsaid, -⟩ := Policy.parse_eq_ok_iff.mp hparse
  have hmentioned (hcall : ¬ e.HoldsNoCall) :
      ∃ f : Elementary, f.name.toList <:+: text.toList := by
    obtain ⟨f, hf⟩ := (Expr.whitelisted_of_evaluate he).exists_name_mem hsaid.writes hcall
    exact ⟨f, hsaid.name_occurs hf f.star_notMem_name⟩
  constructor
  · by_cases hcall : e.HoldsNoCall
    · -- without a call the tree has the same value in both modes
      rw [Policy.evaluate_of_parse hparse, ← he]
      exact Expr.evaluate_congr fun s hs hkind => (hcall s hs hkind).elim
    · obtain ⟨f, hf⟩ := hmentioned hcall
      rwa [Mode.forText_eq_advanced hf]
  · intro e' hparse' hcall
    rw [hparse] at hparse'
    cases hparse'
    obtain ⟨f, hf⟩ := hmentioned hcall
    exact ⟨⟨f, hf⟩, Mode.forText_eq_advanced hf⟩

/-- Under a strict policy a root behind the namespace, with blanks and a caret around its name. -/
theorem evaluate_forText_strict :
    let strict : Policy := { strictBasic := true }
    let text := "e^(pi-pi)*math . sqrt (pi)"
    (∃ x, strict.evaluate (Mode.forText text) text = .ok x) ∧ Mode.forText text = .advanced := by
  intro strict text
  have hparse : strict.parse text = .ok (.binary .product
      (.binary .power (.name "e") (.group (.binary .difference (.name "pi") (.name "pi"))))
      (.call (.attribute (.name "math") "sqrt") [.name "pi"] [])) := by cbv
  have hok : (strict.evaluate .advanced text).toBool = true := by decide +kernel
  cases h : strict.evaluate .advanced text with
  | error r =>
    rw [h] at hok
    cases hok
  | ok x =>
    obtain ⟨hvalue, hmode⟩ := evaluate_forText h
    refine ⟨⟨x, hvalue⟩, (hmode _ hparse fun hcall => ?_).2⟩
    exact hcall _ (Expr.mem_subterms_of_mem_children (List.mem_cons_of_mem _ List.mem_cons_self))
      rfl

end Reckoner
