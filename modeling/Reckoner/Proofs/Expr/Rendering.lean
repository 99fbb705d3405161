import Reckoner.Expr.Reading
import Reckoner.Proofs.Grammar.Completeness
import Reckoner.Proofs.Nesting.Scan
import Reckoner.Proofs.Number.Literals
import Reckoner.Proofs.Token.Spelling

/-!
# Reading inverts rendering

A canonical tree is written by its tokens (`Expr.tokens`), and any text with tokens that
write it is read as this tree, unless it nests too deeply (`parse_of_writes`). So the
text that renders the tree, and every other text with single blanks between spellings of
such tokens, is read as the tree it came from.
-/

namespace Reckoner

/-! ### Tokens that can be spelled -/

namespace Token

/-- Whether the token can be spelled, and stands for a finite number if it is one. -/
def isLegible : Token → Bool
  | .number n => (Binary.ofFloat n.value).isMagnitude
  | .text body => isQuotable body
  | .name id => isName id
  | .keyword _ | .symbol _ => true

@[simp] theorem isLegible_name (id : String) : (Token.name id).isLegible = isName id := rfl

@[simp] theorem isLegible_keyword (k : Keyword) : (Token.keyword k).isLegible = true := rfl

@[simp] theorem isLegible_symbol (s : Symbol) : (Token.symbol s).isLegible = true := rfl

theorem isFinite_of_isMagnitude {x : Float} (h : (Binary.ofFloat x).isMagnitude = true) :
    x.isFinite = true := by
  show x.toModel.unpack.isFinite = true
  unfold Binary.ofFloat at h
  cases hx : x.toModel.unpack with
  | notANumber => simp [hx, Binary.isMagnitude] at h
  | infinity s => simp [hx, Binary.isMagnitude] at h
  | zero s => rfl
  | finite s m e hm => rfl

/-- No literal is too large if all tokens are legible. -/
theorem firstLarge?_eq_none {ts : List Token} (h : ∀ t ∈ ts, t.isLegible = true) :
    firstLarge? ts = none := by
  induction ts with
  | nil => rfl
  | cons t ts ih =>
    obtain ⟨ht, hts⟩ := List.forall_mem_cons.mp h
    cases t with
    | number n => rw [firstLarge?, if_pos (isFinite_of_isMagnitude ht), ih hts]
    | _ => exact ih hts

/-- A spelled token is legible if it is no literal that is too large. -/
theorem Spells.isLegible {sp : List Char} {t : Token} (h : Spells sp t)
    (hfinite : firstLarge? [t] = none) : t.isLegible = true := by
  cases h with
  | @number n _ =>
    refine Numeral.isMagnitude_value ?_
    unfold firstLarge? at hfinite
    split at hfinite
    · assumption
    · cases hfinite
  | @text q body hq hbody =>
    have hquotes : q = '\'' ∨ q = '"' := by simpa [isQuote] using hq
    rcases hquotes with rfl | rfl <;> simp [Token.isLegible, isQuotable, hbody]
  | name h => exact h
  | keyword k => rfl
  | symbol s => rfl

/-- A spelling of the token; a text stands between double quotes only if it needs them. -/
def spelling : Token → List Char
  | .number n => n.spelling
  | .text body =>
    let quote := if body.toList.contains '\'' then '"' else '\''
    quote :: (body.toList ++ [quote])
  | .name id => id.toList
  | .keyword k => k.spelling.toList
  | .symbol s => s.spelling

theorem spells_spelling_text {body : String} (h : isQuotable body = true) :
    Spells (spelling (.text body)) (.text body) := by
  have hspells {q : Char} (hq : isQuote q = true) (hbody : q ∉ body.toList) :
      Spells (q :: (body.toList ++ [q])) (.text body) := by
    have := Spells.text hq hbody
    rwa [String.ofList_toList] at this
  unfold spelling
  by_cases hmem : '\'' ∈ body.toList
  · have hdouble : '"' ∉ body.toList := by simpa [isQuotable, hmem] using h
    simpa [hmem] using hspells rfl hdouble
  · simpa [hmem] using hspells rfl hmem

end Token

/-! ### The tokens of a tree -/

namespace Expr

mutual

/-- The tokens that write the tree, arguments without names first and no comma at an end. -/
def tokens : Expr → List Token
  | .number x => [.number (Numeral.ofFloat x)]
  | .text body => [.text body]
  | .name id => [.name id]
  | .list items =>
    .symbol .openBracket :: (commaJoined false (allTokens items) ++ [.symbol .closeBracket])
  | .binary op l r => l.tokens ++ op.token :: r.tokens
  | .compare op l r => l.tokens ++ op.token :: r.tokens
  | .connect op l r => l.tokens ++ op.token :: r.tokens
  | .signed s e => s.token :: e.tokens
  | .negate e => .keyword .not :: e.tokens
  | .group e => .symbol .openParen :: (e.tokens ++ [.symbol .closeParen])
  | .call f args keywords =>
    f.tokens ++ .symbol .openParen ::
      (commaJoined false (allTokens args ++ keywordTokens keywords) ++ [.symbol .closeParen])
  | .attribute b p => b.tokens ++ [.symbol .dot, .name p]
  | .subscript b i => b.tokens ++ .symbol .openBracket :: (i.tokens ++ [.symbol .closeBracket])
  | .lambda params b => .keyword .lambda :: (parameterTokens params ++ .symbol .colon :: b.tokens)
  | .assign x e => .name x :: .symbol .assign :: e.tokens

/-- The tokens of each tree. -/
def allTokens : List Expr → List (List Token)
  | [] => []
  | e :: es => e.tokens :: allTokens es

/-- The tokens of each tree behind its keyword. -/
def keywordTokens : List (String × Expr) → List (List Token)
  | [] => []
  | (k, e) :: es => (.name k :: .symbol .assign :: e.tokens) :: keywordTokens es

end

theorem allTokens_eq (es : List Expr) : allTokens es = es.map tokens := by
  induction es with
  | nil => rfl
  | cons e es ih => rw [allTokens, ih, List.map_cons]

theorem keywordTokens_eq (es : List (String × Expr)) :
    keywordTokens es = es.map fun ke => .name ke.1 :: .symbol .assign :: ke.2.tokens := by
  induction es with
  | nil => rfl
  | cons e es ih => rw [keywordTokens, ih, List.map_cons]

theorem tokens_apply (j : Join) (l r : Expr) :
    (j.apply l r).tokens = l.tokens ++ j.token :: r.tokens := by
  cases j <;> rfl

/-- The tree as an item of a list or as an argument without a name. -/
def piece (e : Expr) : Piece := ⟨none, e.tokens, e⟩

/-- The tree behind a keyword. -/
def keywordPiece (ke : String × Expr) : Piece := ⟨some ke.1, ke.2.tokens, ke.2⟩

/-- The arguments of a call as pieces, those with names last. -/
def pieces (args : List Expr) (keywords : List (String × Expr)) : List Piece :=
  args.map piece ++ keywords.map keywordPiece

theorem tokens_pieces (args : List Expr) (keywords : List (String × Expr)) :
    (pieces args keywords).map Piece.tokens = allTokens args ++ keywordTokens keywords := by
  rw [pieces, List.map_append, List.map_map, List.map_map, allTokens_eq, keywordTokens_eq]
  rfl

theorem positionals_pieces (args : List Expr) (keywords : List (String × Expr)) :
    Grammar.positionals ((pieces args keywords).map Piece.argument) = args := by
  induction args with
  | nil =>
    induction keywords with
    | nil => rfl
    | cons ke keywords ih => exact ih
  | cons e args ih => exact congrArg (e :: ·) ih

theorem keywords_pieces (args : List Expr) (keywords : List (String × Expr)) :
    Grammar.keywords ((pieces args keywords).map Piece.argument) = keywords := by
  induction args with
  | nil =>
    induction keywords with
    | nil => rfl
    | cons ke keywords ih => exact congrArg (ke :: ·) ih
  | cons e args ih => exact ih

/-- A tree that can be spelled is written by its tokens. -/
theorem writes_tokens {e : Expr} (h : e.spelled = true) : Writes e.tokens e := by
  induction e using childrenInduction with
  | step e ih =>
    obtain ⟨hroot, hchildren⟩ := spelled_iff.mp h
    have hc (c : Expr) (hmem : c ∈ e.children) : Writes c.tokens c := ih c hmem (hchildren c hmem)
    cases e with
    | number x =>
      have := Writes.number (Numeral.ofFloat x)
      rwa [Numeral.value_ofFloat hroot] at this
    | text body => exact .text body
    | name id => exact .name id
    | list items =>
      have hitems : ∀ p ∈ items.map piece, Writes p.body p.value := List.forall_mem_map.mpr hc
      have := Writes.list false hitems
      rw [List.map_map, List.map_map] at this
      rw [tokens, allTokens_eq]
      simpa [piece, Function.comp_def] using this
    | binary op l r =>
      exact .join (.arithmetic op) (hc l (by simp [children])) (hc r (by simp [children]))
    | compare op l r =>
      exact .join (.comparison op) (hc l (by simp [children])) (hc r (by simp [children]))
    | connect op l r =>
      exact .join (.connective op) (hc l (by simp [children])) (hc r (by simp [children]))
    | signed s e => exact .signed s (hc e (by simp [children]))
    | negate e => exact .negate (hc e (by simp [children]))
    | group e => exact .group (hc e (by simp [children]))
    | call f args keywords =>
      have harguments : ∀ p ∈ pieces args keywords, Writes p.body p.value := by
        intro p hp
        rcases List.mem_append.mp hp with hp | hp
        · obtain ⟨a, ha, rfl⟩ := List.mem_map.mp hp
          exact hc a (by simp [children, ha])
        · obtain ⟨ke, hke, rfl⟩ := List.mem_map.mp hp
          exact hc ke.2 (List.mem_cons_of_mem _ (List.mem_append_right _ (List.mem_map_of_mem hke)))
      have := Writes.call false (hc f (by simp [children])) harguments
      rwa [tokens_pieces, positionals_pieces, keywords_pieces] at this
    | «attribute» b p => exact .property p (hc b (by simp [children]))
    | subscript b i => exact .subscript (hc b (by simp [children])) (hc i (by simp [children]))
    | lambda params b => exact .lambda params (hc b (by simp [children]))
    | assign x e => exact .assign x (hc e (by simp [children]))

end Expr

/-! ### What is written by legible tokens -/

/-- A property of all tokens is one of all tokens of the parts, if commas have it. -/
theorem forall_mem_commaJoined {P : Token → Prop} (hcomma : P (.symbol .comma)) {trailing : Bool}
    {tss : List (List Token)} :
    (∀ t ∈ commaJoined trailing tss, P t) ↔ ∀ ts ∈ tss, ∀ t ∈ ts, P t := by
  induction tss with
  | nil => simp [commaJoined]
  | cons ts tss ih =>
    cases tss with
    | nil => cases trailing <;> simp [commaJoined, hcomma, or_imp, forall_and]
    | cons us tss =>
      rw [commaJoined, List.forall_mem_append, List.forall_mem_cons, ih,
        List.forall_mem_cons (a := ts)]
      exact and_congr_right fun _ => and_iff_right hcomma

namespace Piece

theorem forall_tokens_iff {p : Piece} : (∀ t ∈ p.tokens, t.isLegible = true) ↔
    (∀ k ∈ p.label, Token.isName k = true) ∧ ∀ t ∈ p.body, t.isLegible = true := by
  unfold tokens
  cases p.label with
  | none => simp
  | some k => simp [Token.isLegible]

theorem forall_keywords_iff {ps : List Piece} {P : String → Prop} :
    (∀ ke ∈ Grammar.keywords (ps.map argument), P ke.1) ↔ ∀ p ∈ ps, ∀ k ∈ p.label, P k := by
  induction ps with
  | nil => simp [Grammar.keywords]
  | cons p ps ih =>
    rw [List.forall_mem_cons, ← ih]
    cases hl : p.label <;> simp [argument, hl, Grammar.keywords]

end Piece

/-- Tokens are legible if and only if the tree that they write can be spelled. -/
theorem Writes.forall_isLegible_iff {ts : List Token} {e : Expr} (h : Writes ts e) :
    (∀ t ∈ ts, t.isLegible = true) ↔ e.spelled = true := by
  have hjoined := @forall_mem_commaJoined (fun t => t.isLegible = true) rfl
  induction h with
  | number | text | name =>
    rw [Expr.spelled_iff]
    simp only [Token.isLegible, Expr.rootSpelled, Expr.children, List.forall_mem_singleton]
    simp
  | @list trailing ps items ih =>
    rw [Expr.spelled_iff]
    have hitems : (∀ p ∈ ps, ∀ t ∈ p.body, t.isLegible = true) ↔ ∀ p ∈ ps, p.value.spelled = true :=
      forall₂_congr ih
    simp [hjoined, hitems, Expr.rootSpelled, Expr.children, or_imp, forall_and]
  | group inner ih | negate operand ih =>
    rw [Expr.spelled_iff]
    simp [← ih, Expr.rootSpelled, Expr.children, or_imp, forall_and]
  | lambda params body ih =>
    rw [Expr.spelled_iff]
    simp [← ih, parameterTokens, hjoined, Expr.rootSpelled, Expr.children, or_imp, forall_and]
  | @call trailing ts f ps callee arguments hf ih =>
    rw [Expr.spelled_iff]
    have hbodies : (∀ p ∈ ps, ∀ t ∈ p.body, t.isLegible = true) ↔
        ∀ p ∈ ps, p.value.spelled = true := forall₂_congr ih
    have hnames := @Piece.forall_keywords_iff ps (fun k => Token.isName k = true)
    have hvalues := @Piece.forall_argument_iff ps (fun e => e.spelled = true)
    rw [← hbodies] at hvalues
    simp only [Expr.rootSpelled, Expr.children, List.forall_mem_cons, List.all_eq_true, hvalues,
      hnames]
    simp only [List.forall_mem_append, List.forall_mem_cons, hjoined, List.forall_mem_map,
      Piece.forall_tokens_iff, forall_and, hf, Token.isLegible_symbol, true_and,
      List.not_mem_nil, false_implies, implies_true, and_true]
    exact and_left_comm
  | subscript base index hb hi =>
    rw [Expr.spelled_iff]
    simp [← hb, ← hi, Expr.rootSpelled, Expr.children, or_imp, forall_and]
  | property p base ih =>
    rw [Expr.spelled_iff]
    simp [← ih, Expr.rootSpelled, Expr.children, or_imp, forall_and, and_comm]
  | join j left right hl hr =>
    rw [Expr.spelled_iff]
    cases j with
    | arithmetic op | comparison op | connective op =>
      cases op <;>
        simp [← hl, ← hr, Join.apply, Join.token, Operator.token, Comparison.token,
          Connective.token, Expr.rootSpelled, Expr.children, or_imp, forall_and]
  | signed s operand ih =>
    rw [Expr.spelled_iff]
    cases s <;> simp [← ih, Sign.token, Expr.rootSpelled, Expr.children]
  | assign x value ih =>
    rw [Expr.spelled_iff]
    simp [← ih, Expr.rootSpelled, Expr.children]

/-! ### Texts -/

/-- A text with a token is not blank. -/
theorem Token.Spaced.not_all_isWhite {cs : List Char} {t : Token} {ts : List Token}
    (h : Spaced cs (t :: ts)) : cs.all Text.isWhite = false := by
  cases h with
  | @cons bs sp cs t ts hbs hsp rest =>
    obtain ⟨c, sp, rfl, hc, hc'⟩ := hsp.exists_cons
    simp [not_isWhite_of_toNat hc hc']

namespace Expr

/-- How a text is read whose tokens write a canonical tree. -/
theorem ofChars_of_writes {cs : List Char} {ts : List Token} {e : Expr}
    (hcs : Token.list? cs = some ts) (hw : Writes ts e) (he : e.canonical = true) (limit : Nat) :
    ofChars limit cs =
      if Nesting.bound cs ≤ limit then
        if e.depth ≤ limit then .ok e else .error (.deep e.depth limit)
      else .error (.nested limit) := by
  obtain ⟨hshaped, hspelled⟩ := Bool.and_eq_true_iff.mp he
  have hvisible : cs.all Text.isWhite = false := by
    obtain ⟨t, ts, rfl⟩ := List.exists_cons_of_ne_nil hw.ne_nil
    exact (Token.spaced_of_list? hcs).not_all_isWhite
  have hparse : Grammar.parse? ts = some e := Grammar.parse?_eq_some_iff.mpr ⟨hw, hshaped⟩
  have hlarge : Token.firstLarge? ts = none :=
    Token.firstLarge?_eq_none (hw.forall_isLegible_iff.mpr hspelled)
  have hfits : Nesting.fits limit cs = decide (Nesting.bound cs ≤ limit) :=
    Bool.eq_iff_iff.mpr (by rw [Nesting.fits_iff, decide_eq_true_eq])
  unfold ofChars
  simp only [hvisible, hfits, hcs, hparse, hlarge, Bool.false_eq_true, if_false]
  by_cases hbound : Nesting.bound cs ≤ limit
  · by_cases hdepth : e.depth ≤ limit
    · simp [hbound, hdepth]
    · simp [hbound, hdepth]
  · simp [hbound]

theorem parse_of_writes {text : String} {ts : List Token} {e : Expr}
    (htext : Token.list? text.toList = some ts) (hw : Writes ts e) (he : e.canonical = true)
    (limit : Nat) : parse limit text =
      if Nesting.bound text.toList ≤ limit then
        if e.depth ≤ limit then .ok e else .error (.unreadable text (.deep e.depth limit))
      else .error (.unreadable text (.nested limit)) := by
  rw [parse, ofChars_of_writes htext hw he]
  split
  · split <;> rfl
  · rfl

end Expr

/-- A tree that is written has at most as many levels as there are tokens. -/
theorem Writes.depth_le {ts : List Token} {e : Expr} (h : Writes ts e) : e.depth ≤ ts.length := by
  induction h with
  | number | text | name => exact Nat.le_refl _
  | @list trailing ps items ih =>
    rw [List.length_cons, Expr.depth_le_succ_iff, Expr.children, List.forall_mem_map]
    intro p hp
    have := ih p hp
    have := length_le_of_mem_commaJoined trailing (List.mem_map_of_mem (f := Piece.body) hp)
    rw [List.length_append]
    omega
  | @call trailing ts f ps callee arguments hf ih =>
    rw [List.length_append, List.length_cons, ← Nat.add_assoc, Expr.depth_le_succ_iff,
      Expr.children, List.forall_mem_cons, Piece.forall_argument_iff (P := fun e => e.depth ≤ _)]
    refine ⟨Nat.le_add_right_of_le hf, fun p hp => ?_⟩
    have := ih p hp
    have := p.body_length_le
    have := length_le_of_mem_commaJoined trailing (List.mem_map_of_mem (f := Piece.tokens) hp)
    rw [List.length_append]
    omega
  | join j left right hl hr =>
    rw [List.length_append, List.length_cons, ← Nat.add_assoc, Expr.depth_le_succ_iff,
      Join.children_apply]
    simp only [List.forall_mem_cons, List.not_mem_nil, false_implies, implies_true, and_true]
    omega
  | subscript base index hb hi =>
    simp only [Expr.depth, List.length_append, List.length_cons]
    omega
  | group inner ih | lambda params inner ih | property p inner ih | signed s inner ih
  | negate inner ih | assign x inner ih =>
    simp only [Expr.depth, List.length_append, List.length_cons]
    omega

namespace Token

theorem Spells.length_pos {sp : List Char} {t : Token} (h : Spells sp t) : 0 < sp.length := by
  obtain ⟨c, cs, rfl, -⟩ := h.exists_cons
  exact Nat.succ_pos _

/-- A text has at least as many characters as tokens. -/
theorem length_le_spaced {sps : List (List Char)} {ts : List Token}
    (h : List.Forall₂ Spells sps ts) : ts.length ≤ (spaced sps).length := by
  induction h with
  | nil => exact Nat.zero_le _
  | @cons sp t sps ts hsp hsps ih =>
    have := hsp.length_pos
    cases sps with
    | nil =>
      cases hsps
      exact this
    | cons sq sps =>
      rw [spaced, List.length_append, List.length_cons, List.length_cons]
      omega

end Token

/-! ### Rendering -/

namespace Expr

/-- The text holds the tokens of some way to write the tree, with single blanks between them. -/
def Renders (text : String) (e : Expr) : Prop :=
  ∃ ts sps, Writes ts e ∧ List.Forall₂ Token.Spells sps ts ∧ text.toList = Token.spaced sps

/-- The text with the tokens of the tree and single blanks between them. -/
def render (e : Expr) : String := String.ofList (Token.spaced (e.tokens.map Token.spelling))

/-- The tokens of a tree hold no number but the literals of its numbers. -/
theorem exists_ofFloat_of_mem_tokens (e : Expr) :
    ∀ t ∈ e.tokens, ∀ n, t = .number n → ∃ x, n = Numeral.ofFloat x := by
  have hjoined := @forall_mem_commaJoined (fun t => ∀ n, t = .number n → ∃ x, n = Numeral.ofFloat x)
    (by simp)
  induction e using childrenInduction with
  | step e ih =>
    cases e with
    | number x =>
      intro t ht n hn
      obtain rfl : t = .number (Numeral.ofFloat x) := by simpa [tokens] using ht
      exact ⟨x, (Token.number.inj hn).symm⟩
    | text body | name id => simp [tokens]
    | list items =>
      simp only [children] at ih
      simp only [tokens, allTokens_eq, List.forall_mem_cons, List.forall_mem_append, hjoined,
        List.forall_mem_map]
      simpa using ih
    | binary op l r | compare op l r | connect op l r =>
      have hl := ih l (by simp [children])
      have hr := ih r (by simp [children])
      cases op <;>
        simpa [tokens, Operator.token, Comparison.token, Connective.token, or_imp, forall_and]
          using ⟨hl, hr⟩
    | subscript l r =>
      have hl := ih l (by simp [children])
      have hr := ih r (by simp [children])
      simpa [tokens, or_imp, forall_and] using ⟨hl, hr⟩
    | signed s e =>
      have he := ih e (by simp [children])
      cases s <;> simpa [tokens, Sign.token] using he
    | negate e | assign x e =>
      simpa [tokens] using ih e (by simp [children])
    | group e | «attribute» e p =>
      have he := ih e (by simp [children])
      simpa [tokens, or_imp, forall_and] using he
    | lambda params e =>
      have he := ih e (by simp [children])
      simp only [tokens, parameterTokens, List.forall_mem_cons, List.forall_mem_append, hjoined,
        List.forall_mem_map]
      simpa using he
    | call f args keywords =>
      simp only [children, List.forall_mem_cons, List.forall_mem_append, List.forall_mem_map] at ih
      simp only [tokens, allTokens_eq, keywordTokens_eq, List.forall_mem_cons,
        List.forall_mem_append, hjoined, List.forall_mem_map]
      simpa using ih

/-- The tokens of a tree that can be spelled are spelled by their spellings. -/
theorem spells_tokens {e : Expr} (h : e.spelled = true) :
    ∀ t ∈ e.tokens, Token.Spells t.spelling t := by
  intro t ht
  have hlegible := (writes_tokens h).forall_isLegible_iff.mpr h t ht
  cases t with
  | number n =>
    obtain ⟨x, rfl⟩ := exists_ofFloat_of_mem_tokens e _ ht n rfl
    exact .number (Numeral.isWellFormed_ofDecimal _)
  | text body => exact Token.spells_spelling_text hlegible
  | name id => exact .name hlegible
  | keyword k => exact .keyword k
  | symbol s => exact .symbol s

theorem renders_render {e : Expr} (h : e.spelled = true) : Renders e.render e := by
  refine ⟨e.tokens, e.tokens.map Token.spelling, writes_tokens h, ?_, String.toList_ofList⟩
  rw [List.forall₂_map_left_iff, List.forall₂_same]
  exact spells_tokens h

/-- **Reading inverts rendering.** A canonical tree is read from its own text and from every
other text that renders it, unless the scan or the depth of the tree exceeds the limit, which
neither does if the limit exceeds the length of the text. -/
theorem parse_renders {e : Expr} (h : e.canonical = true) :
    Renders e.render e ∧ ∀ text, Renders text e → ∀ limit,
      parse limit text =
        (if Nesting.bound text.toList ≤ limit then
          if e.depth ≤ limit then .ok e else .error (.unreadable text (.deep e.depth limit))
        else .error (.unreadable text (.nested limit))) ∧
      (text.length < limit → parse limit text = .ok e) := by
  refine ⟨renders_render (Bool.and_eq_true_iff.mp h).2, ?_⟩
  rintro text ⟨ts, sps, hw, hsps, htext⟩ limit
  have hlist : Token.list? text.toList = some ts := htext ▸ Token.list?_spaced hsps
  have hread := parse_of_writes hlist hw h limit
  refine ⟨hread, fun hlimit => ?_⟩
  have hbound := Nesting.bound_le_length text.toList
  have hdepth := hw.depth_le
  have hlength := Token.length_le_spaced hsps
  rw [← htext] at hlength
  rw [String.length_toList] at hbound hlength
  rw [hread, if_pos (by omega), if_pos (by omega)]

/-- A sign before a power, and a lambda behind a keyword. -/
theorem parse_render_call :
    let e := call (.name "f") [.signed .minus (.binary .power (.name "x") (.name "y"))]
      [("key", .lambda ["a"] (.name "a"))]
    e.canonical = true ∧ parse 50 "f ( - x ** y , key = lambda a : a )" = .ok e := by
  intro e
  have hcanonical : e.canonical = true := by decide +kernel
  have hrender : e.render = "f ( - x ** y , key = lambda a : a )" := by decide +kernel
  have hrenders : Renders "f ( - x ** y , key = lambda a : a )" e :=
    hrender ▸ (parse_renders hcanonical).1
  exact ⟨hcanonical, ((parse_renders hcanonical).2 _ hrenders 50).2 (by decide)⟩

end Expr

end Reckoner
