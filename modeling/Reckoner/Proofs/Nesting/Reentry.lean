import Reckoner.Proofs.Grammar.Recognition
import Reckoner.Proofs.Nesting.Places

/-!
# The scan bounds the recursion of the grammar

A rule that is entered again stands behind an opening bracket, a keyword, `**` or an assignment
sign. The scan has counted each of them on the way from the root to the place, also in
alternatives that fail later and in texts that are no expressions (`Safe`). So on a text that
passes the scan no more rules are ever open than the limit says: a recogniser that gives up
otherwise answers like one that never does (`reentries_within_limit`).
-/

namespace Reckoner.Nesting

open Grammar (Outcome Pattern Terminal enter recognize)
open Token (read? isBlank)

/-- The recogniser does not give up, and where it matches, the scan has stayed at its level and has
come to such a place. -/
inductive Leads (s : Scan) (post : Scan → List Char → Prop) : Outcome → Prop
  | failed : Leads s post .failed
  | matched {t : Scan} {rest : List Char} (hlater : s.Later t) (hpost : post t rest) :
      Leads s post (.matched rest)

theorem Leads.trans {s t : Scan} {post : Scan → List Char → Prop} {o : Outcome}
    (h : s.Later t) (ho : Leads t post o) : Leads s post o := by
  cases ho with
  | failed => exact .failed
  | matched hlater hpost => exact .matched (h.trans hlater) hpost

/-- From the places before, an expression leads to the places behind, if the rules that may still
be opened make up for what the way lacks to the limit, with some to spare. -/
def Safe (limit n spare : Nat) (p : Pattern) (pre post : Scan → List Char → Prop) : Prop :=
  ∀ ⦃s : Scan⦄ ⦃cs : List Char⦄, limit + spare ≤ n + s.path → pre s cs →
    Leads s post (p.run (enter n) cs)

variable {limit n spare : Nat} {p q : Pattern} {pre mid post : Scan → List Char → Prop}

/-! ### Composition -/

namespace Safe

theorem spare_mono {a b : Nat} (h : Safe limit n a p pre post) (hab : a ≤ b) :
    Safe limit n b p pre post :=
  fun _ _ hspare hpre => h (Nat.le_trans (Nat.add_le_add_left hab limit) hspare) hpre

theorem of_pre (h : Safe limit n spare p pre post) (hle : ∀ s cs, mid s cs → pre s cs) :
    Safe limit n spare p mid post :=
  fun s cs hspare hmid => h hspare (hle s cs hmid)

theorem to_post (h : Safe limit n spare p pre mid) (hle : ∀ s cs, mid s cs → post s cs) :
    Safe limit n spare p pre post := by
  intro s cs hspare hpre
  have hleads := h hspare hpre
  generalize p.run (enter n) cs = o at hleads ⊢
  cases hleads with
  | failed => exact .failed
  | matched hlater hmid => exact .matched hlater (hle _ _ hmid)

theorem sequence (hp : Safe limit n spare p pre mid) (hq : Safe limit n spare q mid post) :
    Safe limit n spare (.sequence p q) pre post := by
  intro s cs hspare hpre
  have hleads := hp hspare hpre
  rw [Pattern.run_sequence]
  generalize p.run (enter n) cs = o at hleads
  cases hleads with
  | failed => exact .failed
  | matched hlater hmid =>
    have hpath := hlater.path_le
    exact .trans hlater (hq (by omega) hmid)

theorem choice (hp : Safe limit n spare p pre post) (hq : Safe limit n spare q pre post) :
    Safe limit n spare (.choice p q) pre post := by
  intro s cs hspare hpre
  have hleads := hp hspare hpre
  rw [Pattern.run_choice]
  generalize p.run (enter n) cs = o at hleads
  cases hleads with
  | failed => exact hq hspare hpre
  | matched hlater hpost => exact .matched hlater hpost

theorem optional (hp : Safe limit n spare p pre post) (hle : ∀ s cs, pre s cs → post s cs) :
    Safe limit n spare (.optional p) pre post := by
  intro s cs hspare hpre
  have hleads := hp hspare hpre
  rw [Pattern.run_optional]
  generalize p.run (enter n) cs = o at hleads
  cases hleads with
  | failed => exact .matched (.refl s) (hle s cs hpre)
  | matched hlater hpost => exact .matched hlater hpost

/-- A repetition keeps what each round keeps. -/
theorem repeated (hp : Safe limit n spare p pre pre) :
    Safe limit n spare (.repeated p) pre pre := by
  intro s cs hspare hpre
  rw [Pattern.run_repeated]
  fun_induction Grammar.repeatWhile (p.run (enter n)) cs generalizing s with
  | case1 cs rest hrun _ ih =>
    have hleads := hp hspare hpre
    rw [hrun] at hleads
    cases hleads with
    | matched hlater hmid =>
      have hpath := hlater.path_le
      exact .trans hlater (ih (by omega) hmid)
  | case2 cs rest hrun _ =>
    rw [← hrun]
    exact hp hspare hpre
  | case3 cs _ => exact .matched (.refl s) hpre
  | case4 cs hrun =>
    have hleads := hp hspare hpre
    rw [hrun] at hleads
    cases hleads

theorem notBefore (c : Char) : Safe limit n spare (.notBefore c) pre pre := by
  intro s cs _ hpre
  rw [Pattern.run_notBefore]
  split
  · exact .failed
  · exact .matched (.refl s) hpre

theorem terminal {u : Terminal}
    (hu : ∀ ⦃s cs rest t⦄, pre s cs → read? (cs.dropWhile isBlank) = some (t, rest) →
      u.accepts t = true → ∃ s', s.Later s' ∧ post s' rest) :
    Safe limit n spare (.terminal u) pre post := by
  intro s cs _ hpre
  rw [Pattern.run]
  cases hrun : u.run cs with
  | failed => exact .failed
  | exhausted => exact absurd hrun Terminal.run_ne_exhausted
  | matched rest =>
    obtain ⟨t, hread, haccepts⟩ := Terminal.exists_read?_of_run hrun
    obtain ⟨s', hlater, hpost⟩ := hu hpre hread haccepts
    exact .matched hlater hpost

/-- Behind a token that counts one more rule may be opened. -/
theorem charged {u : Terminal}
    (hu : ∀ ⦃s cs rest t⦄, pre s cs → read? (cs.dropWhile isBlank) = some (t, rest) →
      u.accepts t = true → mid (s.step .operator) rest)
    (hq : Safe limit n (spare + 1) q mid post) :
    Safe limit n spare (.sequence (.terminal u) q) pre post := by
  intro s cs hspare hpre
  rw [Pattern.run_sequence, Pattern.run]
  cases hrun : u.run cs with
  | failed => exact .failed
  | exhausted => exact absurd hrun Terminal.run_ne_exhausted
  | matched rest =>
    obtain ⟨t, hread, haccepts⟩ := Terminal.exists_read?_of_run hrun
    have hpath := s.path_step_operator
    exact .trans (.step_operator s) (hq (by omega) (hu hpre hread haccepts))

end Safe

/-- Between brackets one more rule may be opened. Behind them the scan is at its level again. -/
theorem Safe.bracketed {o close : Symbol} (ho : o.marks = [.opening])
    (hclose : close.marks = [.closing])
    (hp : Safe limit n (spare + 1) p (AtOperand limit) (AtToken limit)) :
    Safe limit n spare (.bracketed o p close) (AtToken limit) (AtOperator limit) := by
  intro s cs hspare hpre
  rw [Pattern.bracketed, Pattern.run_sequence]
  cases hopen : (Pattern.symbol o).run (enter n) cs with
  | failed => exact .failed
  | exhausted => exact absurd hopen Terminal.run_ne_exhausted
  | matched inside =>
    have hinside := hpre.bracket (Pattern.read?_of_run_symbol hopen) ho (.inl rfl)
    have hpath := s.path_step_opening
    have hleads := hp (by omega) ⟨' ', hinside⟩
    show Leads s _ ((Pattern.sequence p (.symbol close)).run (enter n) inside)
    rw [Pattern.run_sequence]
    generalize p.run (enter n) inside = outcome at hleads
    cases hleads with
    | failed => exact .failed
    | @matched t last hlater hlast =>
      show Leads s _ ((Pattern.symbol close).run (enter n) last)
      cases hrun : (Pattern.symbol close).run (enter n) last with
      | failed => exact .failed
      | exhausted => exact absurd hrun Terminal.run_ne_exhausted
      | matched rest =>
        have hbehind := hlast.bracket (Pattern.read?_of_run_symbol hrun) hclose (.inr rfl)
        exact .matched hlater.closing (.inl hbehind)

/-! ### Tokens -/

theorem AtOperand.atToken (s : Scan) (cs : List Char) (h : AtOperand limit s cs) :
    AtToken limit s cs := .inl h

theorem AtOperator.atToken (s : Scan) (cs : List Char) (h : AtOperator limit s cs) :
    AtToken limit s cs := .inr h

/-- A number, a text or a name. -/
theorem operand_safe {u : Terminal} (hu : u = .number ∨ u = .text ∨ u = .name) :
    Safe limit n spare (.terminal u) (AtOperand limit) (AtOperator limit) := by
  refine Safe.terminal fun s cs rest t hpre hread haccepts => ?_
  cases t with
  | number m => exact hpre.number hread
  | text body => exact ⟨s, .refl s, hpre.text hread⟩
  | name id => exact ⟨s, .refl s, hpre.name hread⟩
  | keyword | symbol => rcases hu with rfl | rfl | rfl <;> cases haccepts

/-- A sign that is no bracket. -/
theorem symbol_safe {b : Symbol} (hb : b.marks = [.operator] ∨ b.marks = []) :
    Safe limit n spare (.symbol b) (AtToken limit) (AtOperand limit) := by
  intro s cs _ hpre
  cases hrun : (Pattern.symbol b).run (enter n) cs with
  | failed => exact .failed
  | exhausted => exact absurd hrun Terminal.run_ne_exhausted
  | matched rest =>
    obtain ⟨t, hlater, hrest⟩ := hpre.operator (Pattern.read?_of_run_symbol hrun) hb
    exact .matched hlater hrest

/-- The word between two operands. -/
theorem connective_safe (k : Keyword) :
    Safe limit n spare (.keyword k) (AtOperator limit) (AtOperand limit) := by
  refine Safe.terminal fun s cs rest t hpre hread haccepts => ?_
  cases t with
  | keyword => exact hpre.keyword hread
  | _ => cases haccepts

/-- What stands behind a keyword in front of it. -/
theorem keyword_safe (k : Keyword)
    (hq : Safe limit n (spare + 1) q (AtOperand limit) post) :
    Safe limit n spare (.sequence (.keyword k) q) (AtOperand limit) post := by
  refine Safe.charged (fun s cs rest t hpre hread haccepts => ?_) hq
  cases t with
  | keyword => exact hpre.keyword hread
  | _ => cases haccepts

/-- What stands behind `**` or an assignment sign. -/
theorem charged_safe {b : Symbol} (hb : b = .power ∨ b = .assign)
    (hq : Safe limit n (spare + 1) q (AtOperand limit) post) :
    Safe limit n spare (.sequence (.symbol b) q) (AtOperator limit) post := by
  refine Safe.charged (fun s cs rest t hpre hread haccepts => ?_) hq
  cases t with
  | symbol c =>
    have heq : b = c := by simpa [Terminal.accepts] using haccepts
    subst heq
    exact hpre.charged hread hb
  | _ => cases haccepts

/-! ### Rules -/

theorem chain_safe (hp : Safe limit n spare p (AtOperand limit) (AtOperator limit))
    (hq : Safe limit n spare q (AtOperator limit) (AtOperand limit)) :
    Safe limit n spare (.chain p q) (AtOperand limit) (AtOperator limit) :=
  hp.sequence (hq.sequence hp).repeated

theorem comma_safe : Safe limit n spare (.symbol .comma) (AtOperator limit) (AtOperand limit) :=
  (symbol_safe (.inr rfl)).of_pre AtOperator.atToken

theorem commaSeparated_safe (hp : Safe limit n spare p (AtOperand limit) (AtOperator limit)) :
    Safe limit n spare (.commaSeparated p) (AtOperand limit) (AtOperator limit) :=
  hp.sequence (comma_safe.sequence hp).repeated

theorem enclosedItems_safe {o close : Symbol} (ho : o.marks = [.opening])
    (hclose : close.marks = [.closing])
    (hp : Safe limit n (spare + 1) p (AtOperand limit) (AtOperator limit)) :
    Safe limit n spare (.enclosedItems o p close) (AtToken limit) (AtOperator limit) := by
  have hcomma : Safe limit n (spare + 1) (.optional (.symbol .comma)) (AtOperator limit)
      (AtToken limit) :=
    (comma_safe.to_post AtOperand.atToken).optional AtOperator.atToken
  exact Safe.bracketed ho hclose
    (((commaSeparated_safe hp).sequence hcomma).optional AtOperand.atToken)

section

variable (hagain : ∀ k, Safe limit n 1 (.again k) (AtOperand limit) (AtOperator limit))

include hagain

theorem labelled_safe : Safe limit n 0 .labelled (AtOperand limit) (AtOperator limit) :=
  (operand_safe (.inr (.inr rfl))).sequence (charged_safe (.inr rfl) (hagain .expression))

theorem lambda_safe : Safe limit n 0 .lambda (AtOperand limit) (AtOperator limit) := by
  have hnames : Safe limit n 1 (.optional (.commaSeparated (.terminal .name)))
      (AtOperand limit) (AtToken limit) :=
    ((commaSeparated_safe (operand_safe (.inr (.inr rfl)))).to_post AtOperator.atToken).optional
      AtOperand.atToken
  exact keyword_safe .lambda ((hnames.sequence (symbol_safe (.inr rfl))).sequence
    (hagain .expression))

theorem primary_safe : Safe limit n 0 .primary (AtOperand limit) (AtOperator limit) := by
  have hlist : Safe limit n 0 .list (AtToken limit) (AtOperator limit) :=
    enclosedItems_safe rfl rfl (hagain .expression)
  have hgroup : Safe limit n 0 .group (AtToken limit) (AtOperator limit) :=
    Safe.bracketed rfl rfl ((hagain .expression).to_post AtOperator.atToken)
  exact (operand_safe (.inl rfl)).choice ((operand_safe (.inr (.inl rfl))).choice
    ((lambda_safe hagain).choice ((hlist.of_pre AtOperand.atToken).choice
      ((hgroup.of_pre AtOperand.atToken).choice (operand_safe (.inr (.inr rfl)))))))

theorem suffix_safe : Safe limit n 0 .suffix (AtOperator limit) (AtOperator limit) := by
  have hargument : Safe limit n 1 .argument (AtOperand limit) (AtOperator limit) :=
    ((labelled_safe hagain).spare_mono (Nat.zero_le 1)).choice (hagain .expression)
  have hcall : Safe limit n 0 (.enclosedItems .openParen .argument .closeParen) (AtToken limit)
      (AtOperator limit) := enclosedItems_safe rfl rfl hargument
  have hsubscript : Safe limit n 0 (.bracketed .openBracket (.again .expression) .closeBracket)
      (AtToken limit) (AtOperator limit) :=
    Safe.bracketed rfl rfl ((hagain .expression).to_post AtOperator.atToken)
  have hattribute : Safe limit n 0 (.sequence (.symbol .dot) (.terminal .name)) (AtToken limit)
      (AtOperator limit) := (symbol_safe (.inl rfl)).sequence (operand_safe (.inr (.inr rfl)))
  exact (hcall.choice (hsubscript.choice hattribute)).of_pre AtOperator.atToken

theorem factor_safe : Safe limit n 0 .factor (AtOperand limit) (AtOperator limit) := by
  have hpostfixed : Safe limit n 0 .postfixed (AtOperand limit) (AtOperator limit) :=
    (primary_safe hagain).sequence (suffix_safe hagain).repeated
  have hexponent : Safe limit n 0 .exponent (AtOperator limit) (AtOperator limit) :=
    charged_safe (.inl rfl) (hagain .factor)
  have hpower : Safe limit n 0 .power (AtOperand limit) (AtOperator limit) :=
    hpostfixed.sequence (hexponent.optional fun _ _ => id)
  have hsign : Safe limit n 0 .sign (AtToken limit) (AtOperand limit) :=
    (symbol_safe (.inl rfl)).choice (symbol_safe (.inl rfl))
  exact (hsign.of_pre AtOperand.atToken).repeated.sequence hpower

theorem comparison_safe : Safe limit n 0 .comparison (AtOperand limit) (AtOperator limit) := by
  have hsymbol {b : Symbol} (hb : b.marks = [.operator]) :
      Safe limit n 0 (.symbol b) (AtOperator limit) (AtOperand limit) :=
    (symbol_safe (.inl hb)).of_pre AtOperator.atToken
  have hproduct : Safe limit n 0 .productOperator (AtOperator limit) (AtOperand limit) :=
    (hsymbol rfl).choice (((hsymbol rfl).sequence (.notBefore '/')).choice (hsymbol rfl))
  have hsign : Safe limit n 0 .sign (AtOperator limit) (AtOperand limit) :=
    (hsymbol rfl).choice (hsymbol rfl)
  have hcomparison : Safe limit n 0 .comparisonOperator (AtOperator limit) (AtOperand limit) :=
    (hsymbol rfl).choice ((hsymbol rfl).choice ((hsymbol rfl).choice ((hsymbol rfl).choice
      ((hsymbol rfl).choice (hsymbol rfl)))))
  exact chain_safe (chain_safe (chain_safe (factor_safe hagain) hproduct) hsign) hcomparison

theorem negation_safe : Safe limit n 0 .negation (AtOperand limit) (AtOperator limit) :=
  (keyword_safe .not (hagain .negation)).choice (comparison_safe hagain)

theorem expression_safe : Safe limit n 0 .expression (AtOperand limit) (AtOperator limit) :=
  chain_safe (chain_safe (negation_safe hagain) (connective_safe .and)) (connective_safe .or)

theorem entry_safe (k : Grammar.Entry) :
    Safe limit n 0 k.pattern (AtOperand limit) (AtOperator limit) := by
  cases k with
  | expression => exact expression_safe hagain
  | negation => exact negation_safe hagain
  | factor => exact factor_safe hagain

end

/-- A rule may be entered again where the scan has counted a token for it. -/
theorem again_safe (k : Grammar.Entry) :
    Safe limit n 1 (.again k) (AtOperand limit) (AtOperator limit) := by
  induction n generalizing k with
  | zero =>
    intro s cs hspare hpre
    have hpath := AtToken.path_lt (.inl hpre)
    omega
  | succ n ih => exact fun s cs hspare hpre => entry_safe ih k (by omega) hpre

theorem statement_safe : Safe limit n 0 .statement (AtOperand limit) (AtOperator limit) :=
  (labelled_safe again_safe).choice (expression_safe again_safe)

/-! ### The whole text -/

/-- On a text that passes the scan no more rules are open at once than the limit says. -/
theorem recognize_ne_exhausted {cs : List Char} (h : fits limit cs = true) :
    recognize limit cs ≠ .exhausted := by
  have hbound : AtOperand limit {} cs := ⟨' ', fits_iff.mp h⟩
  have hleads := statement_safe (n := limit) (Nat.le_refl limit) hbound
  rw [recognize]
  generalize Pattern.statement.run (enter limit) cs = o at hleads
  cases hleads with
  | failed => decide
  | @matched t rest hlater hpost =>
    show (if rest.all isBlank then Outcome.matched [] else .failed) ≠ .exhausted
    split <;> decide

/-- With more allowance than the text has characters the recogniser never gives up, and recognises the
texts of the grammar. -/
theorem recognize_of_length_lt {cs : List Char} (h : cs.length < n) : recognize n cs =
    if ((Token.list? cs).bind Grammar.parse?).isSome then .matched [] else .failed :=
  Grammar.recognize_eq_parse?
    (recognize_ne_exhausted (fits_iff.mpr (Nat.le_trans (bound_le_length cs) h)))

/-- **The recursion of the grammar is bounded by the limit.** On a text that passes the scan, be it
an expression or not, the recogniser never has more rules open at once than the limit says. So its
answer is that of one with any greater allowance and that of the grammar without a limit, and the
reader with this allowance finds the same tree. -/
theorem reentries_within_limit {cs : List Char} (h : fits limit cs = true) :
    recognize limit cs ≠ .exhausted ∧
      (∀ m, limit ≤ m → recognize m cs = recognize limit cs) ∧
      recognize limit cs =
        (if ((Token.list? cs).bind Grammar.parse?).isSome then .matched [] else .failed) ∧
      ∀ ts, Token.list? cs = some ts → Grammar.parseWithin limit ts = Grammar.parse? ts := by
  have hne := recognize_ne_exhausted h
  exact ⟨hne, fun m hm => Grammar.recognize_eq_of_le hm hne, Grammar.recognize_eq_parse? hne,
    fun ts hts => Grammar.parseWithin_eq_parse? hne hts⟩

/-- Five rules are open at once in a text with brackets that are never closed. -/
theorem reentries_within_limit_unclosed :
    fits 7 "f(k=not [2 ** (x".toList = true ∧ recognize 4 "f(k=not [2 ** (x".toList = .exhausted ∧
      recognize 7 "f(k=not [2 ** (x".toList ≠ .exhausted ∧
      (∀ m, 7 ≤ m → recognize m "f(k=not [2 ** (x".toList =
        recognize 7 "f(k=not [2 ** (x".toList) := by
  have hfits : fits 7 "f(k=not [2 ** (x".toList = true := by decide +kernel
  obtain ⟨hne, hmore, -⟩ := reentries_within_limit hfits
  refine ⟨hfits, ?_, hne, hmore⟩
  decide +kernel

end Reckoner.Nesting
