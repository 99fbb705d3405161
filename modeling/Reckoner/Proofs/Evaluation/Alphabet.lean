import Reckoner.Proofs.Evaluation.Whitelist
import Reckoner.Proofs.Expr.Acceptance
import Reckoner.Proofs.Token.Typing

/-!
# The alphabet of what has a value

The grammar reads far more than can be evaluated, and what it drops from the tree, such as
the comma behind a last argument, is never evaluated. So the tokens of a text are looked
at and not only its tree: if the text has a value they are those of plain arithmetic
(`Plain`), the text consists of what is typed for them, and no quote, bracket, comparison
or assignment stands anywhere in it (`evaluate_alphabet`).
-/

namespace Reckoner

/-- The names of the constants and functions. -/
def catalogue : List String := Constant.all.map Constant.name ++ Elementary.all.map Elementary.name

example : catalogue = ["pi", "e", "sqrt", "sin", "cos", "tan", "log", "log10"] := rfl

theorem Constant.name_mem_catalogue (c : Constant) : c.name ∈ catalogue := by
  cases c <;> decide

theorem Elementary.name_mem_catalogue (f : Elementary) : f.name ∈ catalogue := by
  cases f <;> decide

/-! ### Places in a list -/

/-- Wherever the element stands, what is before it and what is behind it are so related. -/
def Everywhere (x : α) (R : List α → List α → Prop) (l : List α) : Prop :=
  ∀ before behind, l = before ++ x :: behind → R before behind

namespace Everywhere

variable {x : α} {R : List α → List α → Prop} {l k : List α}

theorem of_notMem (h : x ∉ l) : Everywhere x R l := by
  rintro before behind rfl
  exact (h (by simp)).elim

theorem single (h : R [] []) : Everywhere x R [x] := by
  intro before behind hsplit
  cases before with
  | nil =>
    obtain rfl := (List.cons.inj hsplit).2
    exact h
  | cons y before => simp at hsplit

theorem append_iff : Everywhere x R (l ++ k) ↔
    Everywhere x (fun before behind => R before (behind ++ k)) l ∧
      Everywhere x (fun before behind => R (l ++ before) behind) k := by
  constructor
  · intro h
    refine ⟨?_, ?_⟩
    · rintro before behind rfl
      exact h before (behind ++ k) (by simp)
    · rintro before behind rfl
      exact h (l ++ before) behind (by simp)
  · rintro ⟨hl, hk⟩ before behind h
    obtain ⟨middle, rfl, hk'⟩ | ⟨middle, rfl, hl'⟩ := List.append_eq_append_iff.mp h
    · exact hk middle behind hk'
    · cases middle with
      | nil =>
        have := hk [] behind hl'.symm
        rwa [List.append_nil, List.append_nil] at this
      | cons y middle =>
        obtain ⟨rfl, rfl⟩ := List.cons.inj hl'
        exact hl before middle rfl

/-- Places that may lie deeper inside a list do so in both halves of a longer one. -/
theorem append (hR : ∀ m n before behind, R before behind → R (m ++ before) (behind ++ n))
    (hl : Everywhere x R l) (hk : Everywhere x R k) : Everywhere x R (l ++ k) := by
  refine append_iff.mpr ⟨fun before behind h => ?_, fun before behind h => ?_⟩
  · exact hR [] k before behind (hl before behind h)
  · have := hR l [] before behind (hk before behind h)
    rwa [List.append_nil] at this

theorem between (hR : ∀ m n before behind, R before behind → R (m ++ before) (behind ++ n))
    (h : Everywhere x R l) {before behind : List α} (hbefore : x ∉ before) (hbehind : x ∉ behind) :
    Everywhere x R (before ++ (l ++ behind)) :=
  (of_notMem hbefore).append hR (h.append hR (of_notMem hbehind))

end Everywhere

namespace Token

/-- The parentheses among the tokens match. -/
inductive Balanced : List Token → Prop
  | nil : Balanced []
  | cons {t : Token} {ts : List Token} (hopen : t ≠ .symbol .openParen)
      (hclose : t ≠ .symbol .closeParen) (rest : Balanced ts) : Balanced (t :: ts)
  | enclosed {ts us : List Token} (inner : Balanced ts) (rest : Balanced us) :
      Balanced (.symbol .openParen :: (ts ++ .symbol .closeParen :: us))

theorem Balanced.append {ts us : List Token} (h : Balanced ts) (hus : Balanced us) :
    Balanced (ts ++ us) := by
  induction h with
  | nil => exact hus
  | cons hopen hclose _ ih => exact .cons hopen hclose ih
  | @enclosed ts vs inner _ _ ih =>
    have := Balanced.enclosed inner ih
    simpa using this

/-- Whether plain arithmetic has the token. -/
def isPlain : Token → Bool
  | .number _ => true
  | .name id => id = mathNamespace || catalogue.contains id
  | .symbol .plus | .symbol .minus | .symbol .star | .symbol .slash | .symbol .percent
  | .symbol .power => true
  | .symbol .openParen | .symbol .closeParen | .symbol .comma | .symbol .dot => true
  | _ => false

/-- The namespace is before and a catalogued name behind. -/
def Qualifies (before behind : List Token) : Prop :=
  before.getLast? = some (.name mathNamespace) ∧ ∃ id ∈ catalogue, behind.head? = some (.name id)

/-- The one argument of a function is before, and the parenthesis that closes the call behind. -/
def EndsCall (before behind : List Token) : Prop :=
  (∃ ts us, ∃ f : Elementary, before = ts ++ .name f.name :: .symbol .openParen :: us ∧
      us ≠ [] ∧ Balanced us) ∧
    behind.head? = some (.symbol .closeParen)

/-- The tokens are those of plain arithmetic, and the points and commas have their places. -/
structure Plain (ts : List Token) : Prop where
  tokens : ∀ t ∈ ts, t.isPlain = true
  points : Everywhere (.symbol .dot) Qualifies ts
  commas : Everywhere (.symbol .comma) EndsCall ts
  balanced : Balanced ts

theorem Qualifies.append (ts us before behind : List Token) (h : Qualifies before behind) :
    Qualifies (ts ++ before) (behind ++ us) := by
  obtain ⟨hbefore, id, hid, hbehind⟩ := h
  refine ⟨?_, id, hid, ?_⟩
  · rw [List.getLast?_append, hbefore]
    rfl
  · rw [List.head?_append, hbehind]
    rfl

theorem EndsCall.append (ts us before behind : List Token) (h : EndsCall before behind) :
    EndsCall (ts ++ before) (behind ++ us) := by
  obtain ⟨⟨vs, ws, f, rfl, hne, hws⟩, hbehind⟩ := h
  refine ⟨⟨ts ++ vs, ws, f, (List.append_assoc ..).symm, hne, hws⟩, ?_⟩
  rw [List.head?_append, hbehind]
  rfl

namespace Plain

variable {ts us : List Token}

theorem append (hts : Plain ts) (hus : Plain us) : Plain (ts ++ us) where
  tokens t ht := (List.mem_append.mp ht).elim (hts.tokens t) (hus.tokens t)
  points := hts.points.append Qualifies.append hus.points
  commas := hts.commas.append EndsCall.append hus.commas
  balanced := hts.balanced.append hus.balanced

/-- A token that no other one belongs to. -/
theorem single {t : Token} (h : t.isPlain = true) (hdot : t ≠ .symbol .dot)
    (hcomma : t ≠ .symbol .comma) (hopen : t ≠ .symbol .openParen)
    (hclose : t ≠ .symbol .closeParen) : Plain [t] where
  tokens u hu := by rwa [List.mem_singleton.mp hu]
  points := .of_notMem fun hmem => hdot (List.mem_singleton.mp hmem).symm
  commas := .of_notMem fun hmem => hcomma (List.mem_singleton.mp hmem).symm
  balanced := .cons hopen hclose .nil

theorem number (n : Numeral) : Plain [.number n] := by
  apply single <;> simp [isPlain]

theorem name {id : String} (h : id ∈ catalogue) : Plain [.name id] := by
  apply single <;> simp [isPlain, h]

theorem operator (op : Operator) : Plain [op.token] := by
  cases op <;> apply single <;> simp [isPlain, Operator.token]

theorem sign (s : Sign) : Plain [s.token] := by
  cases s <;> apply single <;> simp [isPlain, Sign.token]

theorem enclosed (h : Plain ts) :
    Plain (.symbol .openParen :: (ts ++ [.symbol .closeParen])) where
  tokens := List.forall_mem_cons.mpr
    ⟨rfl, List.forall_mem_append.mpr ⟨h.tokens, List.forall_mem_singleton.mpr rfl⟩⟩
  points := by
    have hopen : .symbol .dot ∉ [Token.symbol .openParen] := by simp
    exact h.points.between Qualifies.append hopen (by simp)
  commas := by
    have hopen : .symbol .comma ∉ [Token.symbol .openParen] := by simp
    exact h.commas.between EndsCall.append hopen (by simp)
  balanced := .enclosed h.balanced .nil

/-- A comma behind the only argument of a call is in its place. -/
theorem call_comma (f : Elementary) (h : Plain ts) (hne : ts ≠ []) :
    Plain (.name f.name :: .symbol .openParen ::
      (ts ++ [.symbol .comma, .symbol .closeParen])) where
  tokens := by
    have hname := (name f.name_mem_catalogue).tokens
    refine List.forall_mem_cons.mpr ⟨hname _ List.mem_cons_self, ?_⟩
    refine List.forall_mem_cons.mpr ⟨rfl, List.forall_mem_append.mpr ⟨h.tokens, ?_⟩⟩
    simp [isPlain]
  points := by
    have hopen : .symbol .dot ∉ [Token.name f.name, .symbol .openParen] := by simp
    exact h.points.between Qualifies.append hopen (by simp)
  commas := by
    have hinner : Everywhere (.symbol .comma) EndsCall
        ([Token.name f.name, .symbol .openParen] ++ ts) :=
      (Everywhere.of_notMem (by simp)).append EndsCall.append h.commas
    refine (Everywhere.append_iff (l := [Token.name f.name, .symbol .openParen] ++ ts)).mpr
      ⟨fun before behind hsplit => ?_, ?_⟩
    · exact EndsCall.append [] _ before behind (hinner before behind hsplit)
    · refine (Everywhere.append_iff (l := [Token.symbol .comma])).mpr
        ⟨.single ⟨⟨[], ts, f, ?_, hne, h.balanced⟩, rfl⟩, .of_notMem (by simp)⟩
      simp
  balanced := by
    have hcomma : Balanced [.symbol .comma] := .cons (by simp) (by simp) .nil
    have := Balanced.enclosed (h.balanced.append hcomma) .nil
    rw [List.append_assoc] at this
    exact .cons (by simp) (by simp) this

/-- A call of one argument, which a comma may follow. -/
theorem call (f : Elementary) (trailing : Bool) (h : Plain ts) (hne : ts ≠ []) :
    Plain (.name f.name :: .symbol .openParen ::
      (commaJoined trailing [ts] ++ [.symbol .closeParen])) := by
  cases trailing with
  | false => exact (name f.name_mem_catalogue).append h.enclosed
  | true =>
    have := h.call_comma f hne
    rwa [commaJoined, if_pos rfl, List.append_assoc]

/-- A name of the catalogue behind the namespace. -/
theorem qualified {id : String} (hid : id ∈ catalogue) (h : Plain (.name id :: ts)) :
    Plain (.name mathNamespace :: .symbol .dot :: .name id :: ts) where
  tokens := List.forall_mem_cons.mpr ⟨rfl, List.forall_mem_cons.mpr ⟨rfl, h.tokens⟩⟩
  points := by
    refine (Everywhere.append_iff (l := [Token.name mathNamespace])).mpr ⟨.of_notMem (by simp), ?_⟩
    refine (Everywhere.append_iff (l := [Token.symbol .dot])).mpr
      ⟨.single ⟨rfl, id, hid, rfl⟩, ?_⟩
    intro before behind hsplit
    have := Qualifies.append [.name mathNamespace, .symbol .dot] [] _ _
      (h.points before behind hsplit)
    simpa using this
  commas := by
    have hbefore : Everywhere (.symbol .comma) EndsCall [.name mathNamespace, .symbol .dot] :=
      .of_notMem (by simp)
    exact hbefore.append EndsCall.append h.commas
  balanced := .cons (by simp) (by simp) (.cons (by simp) (by simp) h.balanced)

end Plain

end Token

/-! ### Trees on the whitelist -/

theorem Writes.eq_of_name {ts : List Token} {id : String} (h : Writes ts (.name id)) :
    ts = [.name id] := by
  generalize he : Expr.name id = e at h
  cases h with
  | name => cases he; rfl
  | join j => cases j <;> cases he
  | _ => cases he

theorem Writes.eq_of_names {ts : List Token} {e : Expr} {id : String} (h : Writes ts e)
    (he : e.Names id) :
    ts = [.name id] ∨ ts = [.name mathNamespace, .symbol .dot, .name id] := by
  cases he with
  | bare => exact .inl h.eq_of_name
  | qualified =>
    generalize he : Expr.attribute (.name "math") id = e at h
    cases h with
    | property p base =>
      cases he
      rw [base.eq_of_name]
      exact .inr rfl
    | join j => cases j <;> cases he
    | _ => cases he

theorem Grammar.length_positionals_add (as : List Argument) :
    (positionals as).length + (keywords as).length = as.length := by
  induction as with
  | nil => rfl
  | cons a as ih =>
    cases a with
    | positional e =>
      simp only [positionals, keywords, List.length_cons]
      omega
    | keyword k e =>
      simp only [positionals, keywords, List.length_cons]
      omega

theorem Piece.eq_singleton {ps : List Piece} {arg : Expr}
    (hargs : Grammar.positionals (ps.map argument) = [arg])
    (hkeywords : Grammar.keywords (ps.map argument) = []) :
    ∃ p, ps = [p] ∧ p.label = none ∧ p.value = arg := by
  have hlength := Grammar.length_positionals_add (ps.map argument)
  rw [hargs, hkeywords, List.length_map] at hlength
  obtain ⟨p, rfl⟩ := List.length_eq_one_iff.mp hlength.symm
  refine ⟨p, rfl, ?_⟩
  cases hlabel : p.label with
  | none => simpa [argument, hlabel, Grammar.positionals] using hargs
  | some k => simp [argument, hlabel, Grammar.positionals] at hargs

namespace Expr.Whitelisted

variable {p : Policy} {m : Mode}

theorem exists_of_call {callee : Expr} {args : List Expr} {keywords : List (String × Expr)}
    (h : Whitelisted p m (.call callee args keywords)) :
    ∃ f : Elementary, ∃ arg, callee.Names f.name ∧ args = [arg] ∧ keywords = [] ∧
      Whitelisted p m arg := by
  cases h with
  | constant c names => cases names
  | call f allowed names argument => exact ⟨f, _, names, rfl, rfl, argument⟩

/-- The tokens of what is on the whitelist are those of plain arithmetic. -/
theorem plain {ts : List Token} {e : Expr} (hw : Writes ts e) (he : Whitelisted p m e) :
    Token.Plain ts := by
  induction hw with
  | number n => exact .number n
  | name id =>
    cases he with
    | constant c names =>
      cases names
      exact .name c.name_mem_catalogue
  | group inner ih =>
    cases he with
    | constant c names => cases names
    | group inner => exact (ih inner).enclosed
  | @call trailing ts f ps callee arguments ihf iha =>
    obtain ⟨g, arg, hnames, hargs, hkeywords, harg⟩ := he.exists_of_call
    obtain ⟨q, rfl, hlabel, rfl⟩ := Piece.eq_singleton hargs hkeywords
    have hq := arguments q List.mem_cons_self
    have hcall := (iha q List.mem_cons_self harg).call g trailing hq.ne_nil
    have htokens : q.tokens = q.body := by rw [Piece.tokens, hlabel]
    rw [List.map_singleton, htokens]
    obtain rfl | rfl := callee.eq_of_names hnames
    · exact hcall
    · exact .qualified g.name_mem_catalogue hcall
  | property id base ih =>
    cases he with
    | constant c names =>
      cases names
      rw [base.eq_of_name]
      exact .qualified c.name_mem_catalogue (.name c.name_mem_catalogue)
  | join j left right ihl ihr =>
    cases j with
    | arithmetic op =>
      cases he with
      | constant c names => cases names
      | binary op hl hr => exact (ihl hl).append ((Token.Plain.operator op).append (ihr hr))
    | comparison op =>
      cases he with
      | constant c names => cases names
    | connective op =>
      cases he with
      | constant c names => cases names
  | signed s operand ih =>
    cases he with
    | constant c names => cases names
    | signed s he => exact (Token.Plain.sign s).append (ih he)
  | _ =>
    cases he with
    | constant c names => cases names

end Expr.Whitelisted

/-! ### Characters -/

/-- The quotes, the brackets and the characters of comparisons, assignments and lambdas. -/
def foreign : List Char := ['\'', '"', '[', ']', '=', '<', '>', '!', ':']

theorem notMem_foreign_of_all (cs : List Char)
    (h : (cs.all fun c => !foreign.contains c) = true) : ∀ c ∈ cs, c ∉ foreign := by
  simpa using h

namespace Token

theorem notMem_foreign_of {p : Char → Bool} (hp : ∀ d ∈ foreign, p d = false) {c : Char}
    (h : p c = true) : c ∉ foreign := by
  intro hmem
  rw [hp c hmem] at h
  cases h

theorem notMem_foreign_of_isBlank {c : Char} (h : isBlank c = true) : c ∉ foreign :=
  notMem_foreign_of (by simp [foreign, isBlank]) h

theorem notMem_foreign_of_isDigit {c : Char} (h : c.isDigit = true) : c ∉ foreign :=
  notMem_foreign_of (by simp [foreign]) h

theorem Types.notMem_foreign {sp : List Char} {t : Token} (h : Types sp t)
    (ht : t.isPlain = true) : ∀ c ∈ sp, c ∉ foreign := by
  cases h with
  | caret => exact notMem_foreign_of_all _ rfl
  | spelling h =>
    cases h with
    | number hn =>
      intro c hc
      rcases Numeral.mem_spelling hn hc with hdigit | hc
      · exact notMem_foreign_of_isDigit hdigit
      · exact notMem_foreign_of_all ['.', 'e', 'E', '+', '-'] rfl c hc
    | @name id hid =>
      have hnames : ∀ id ∈ mathNamespace :: catalogue,
          (id.toList.all fun c => !foreign.contains c) = true := by decide
      exact notMem_foreign_of_all _ (hnames id (by simpa [isPlain] using ht))
    | text => cases ht
    | keyword => cases ht
    | symbol s => cases s <;> first | exact notMem_foreign_of_all _ rfl | cases ht

theorem Typed.notMem_foreign {cs : List Char} {ts : List Token} (h : Typed cs ts)
    (hts : ∀ t ∈ ts, t.isPlain = true) : ∀ c ∈ cs, c ∉ foreign := by
  induction h with
  | blank hbs => exact fun c hc => notMem_foreign_of_isBlank (List.all_eq_true.mp hbs c hc)
  | cons hbs hsp _ ih =>
    obtain ⟨ht, hts⟩ := List.forall_mem_cons.mp hts
    refine List.forall_mem_append.mpr ⟨fun c hc => ?_, ?_⟩
    · exact notMem_foreign_of_isBlank (List.all_eq_true.mp hbs c hc)
    · exact List.forall_mem_append.mpr ⟨hsp.notMem_foreign ht, ih hts⟩

theorem isText_eq_false_of_isPlain {t : Token} (h : t.isPlain = true) : t.isText = false := by
  cases t with
  | text => cases h
  | _ => rfl

end Token

/-- **What has a value is plain arithmetic**: the tokens of a text with a value are numbers,
catalogued names, operators and parentheses, points stand behind the namespace and before a name
of the catalogue, commas before the parenthesis that closes a call of one argument, and the text
consists of what is typed for these tokens and of blanks. -/
theorem evaluate_alphabet {p : Policy} {m : Mode} {text : String} {x : Float}
    (h : p.evaluate m text = .ok x) :
    ∃ ts, Token.list? (Text.expandCarets text.toList) = some ts ∧
      Token.Typed text.toList ts ∧ Token.Plain ts ∧ ∀ c ∈ text.toList, c ∉ foreign := by
  obtain ⟨e, hparse, he⟩ := bind_eq_ok_iff.mp h
  obtain ⟨-, ts, hsaid, -⟩ := Policy.parse_eq_ok_iff.mp hparse
  have hplain := Expr.Whitelisted.plain hsaid.writes (Expr.whitelisted_of_evaluate he)
  have htext : ∀ t ∈ ts, t.isText = false :=
    fun t ht => Token.isText_eq_false_of_isPlain (hplain.tokens t ht)
  have htyped := Token.typed_of_list? hsaid.tokens hsaid.writes.joined htext
  exact ⟨ts, hsaid.tokens, htyped, hplain, htyped.notMem_foreign hplain.tokens⟩

/-- Blanks, a caret, a namespace and a comma behind an argument, all in their places. -/
theorem evaluate_alphabet_spaced :
    let text := "sqrt( math . pi^0 , ) % -4"
    (∃ x, Policy.evaluate {} .basic text = .ok x) ∧
      ∃ ts, Token.Typed text.toList ts ∧ Token.Plain ts := by
  intro text
  have hok : (Policy.evaluate {} .basic text).toBool = true := by decide +kernel
  cases h : Policy.evaluate {} .basic text with
  | error r =>
    rw [h] at hok
    cases hok
  | ok x =>
    obtain ⟨ts, -, htyped, hplain, -⟩ := evaluate_alphabet h
    exact ⟨⟨x, rfl⟩, ts, htyped, hplain⟩

end Reckoner
