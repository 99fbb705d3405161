import Reckoner.Proofs.Grammar.Trees
import Reckoner.Proofs.Nesting.Reentry

/-!
# Reading in stages

A text is scanned, matched by the rules of the grammar, built from the pairs that they leave, and
measured. Reading it token by token comes to the same (`Expr.inStages_eq`). So the builder reports
nothing but a number that is too large, and the text is to blame for every refusal.
-/

namespace Reckoner

/-! ### Large numbers -/

theorem Token.of_firstLarge? {ts : List Token} {n : Numeral} (h : firstLarge? ts = some n) :
    .number n ∈ ts ∧ n.value.isFinite = false := by
  induction ts with
  | nil => cases h
  | cons t ts ih =>
    cases t with
    | number m =>
      simp only [firstLarge?] at h
      split at h
      · exact (ih h).imp_left (List.mem_cons_of_mem _)
      · rename_i hfinite
        cases h
        exact ⟨List.mem_cons_self, by simpa using hfinite⟩
    | _ => exact (ih h).imp_left (List.mem_cons_of_mem _)

theorem Token.firstLarge?_ne_none {ts : List Token} {n : Numeral} (hn : .number n ∈ ts)
    (hfinite : n.value.isFinite = false) : firstLarge? ts ≠ none := by
  obtain ⟨before, after, rfl⟩ := List.append_of_mem hn
  rw [firstLarge?_append, firstLarge?, hfinite]
  cases firstLarge? before <;> rintro ⟨⟩

/-! ### The pairs of a text -/

namespace Grammar

variable {cs : List Char} {ts : List Token} {e : Expr}

/-- The rules match the texts of the grammar. -/
theorem isSome_pairs? (cs : List Char) :
    (pairs? cs).isSome = ((Token.list? cs).bind parse?).isSome := by
  have hrecognize := Nesting.recognize_of_length_lt (Nat.lt_succ_self cs.length)
  rw [recognize, ← Scheme.pattern_statement, ← Scheme.outcome_run_emit] at hrecognize
  unfold pairs?
  generalize ((Token.list? cs).bind parse?).isSome = b at hrecognize ⊢
  cases hrun : Scheme.statement.run (emit (cs.length + 1)) cs with
  | matched rest ps =>
    rw [hrun] at hrecognize
    cases hblank : rest.all Token.isBlank <;> cases b <;> simp_all [Emission.outcome]
  | failed =>
    rw [hrun] at hrecognize
    cases b
    · rfl
    · cases hrecognize
  | exhausted =>
    rw [hrun] at hrecognize
    cases b <;> cases hrecognize

/-- With an allowance of the characters the reader reads the whole text. -/
theorem statement_eq_some (hts : Token.list? cs = some ts) (he : parse? ts = some e) :
    statement (read (cs.length + 1)) ts = some (e, []) := by
  have hne : recognize (cs.length + 1) cs ≠ .exhausted := by
    rw [Nesting.recognize_of_length_lt (Nat.lt_succ_self cs.length)]
    split <;> nofun
  have hwithin := parseWithin_eq_parse? hne hts
  rw [he, parseWithin] at hwithin
  split at hwithin
  · rename_i hread
    cases hwithin
    exact hread
  · cases hwithin

/-- The builder makes the tree of a text from its pairs, unless a number is too large. -/
theorem buildAll_pairs? {ps : List Pair} (hps : pairs? cs = some ps)
    (hts : Token.list? cs = some ts) (he : parse? ts = some e) :
    buildAll ps = verdict ((Token.firstLarge? ts).map fun n => .ofList n.spelling) e := by
  have hbuilds := statement_builds hts (statement_eq_some hts he)
  unfold pairs? at hps
  generalize hrun : Scheme.statement.run (emit (cs.length + 1)) cs = o at hps hbuilds
  cases hbuilds with
  | exhausted => cases hps
  | @matched rest qs hrest hqs =>
    obtain ⟨read, hread, hlarge⟩ := accounts_statement _ _ _ _ _ hrun hrest
    rw [List.append_nil] at hread
    obtain rfl := Option.some_inj.mp (hts.symm.trans hread)
    simp only [all_isBlank_eq hrest, List.isEmpty_nil, if_true] at hps
    cases hps
    exact (hqs _ _).trans (by rw [hlarge])

end Grammar

/-! ### The stages -/

/-- Why a text is refused in one of the stages: for what it says, or for what the builder finds. -/
inductive Report where
  | fault (f : Fault)
  | flaw (f : Grammar.Flaw)

namespace Report

/-- What is wrong. -/
def message : Report → String
  | .fault f => f.message
  | .flaw f => f.message

/-- A number that is too large is found by the builder. -/
def ofFault : Fault → Report
  | .large spelling => .flaw (.large spelling)
  | f => .fault f

@[simp] theorem message_ofFault (f : Fault) : (ofFault f).message = f.message := by
  cases f <;> rfl

end Report

namespace Expr

/-- The tree of a text, at most `limit` levels deep, from the pairs that the rules leave. -/
def inStages (limit : Nat) (cs : List Char) : Except Report Expr :=
  if cs.all Text.isWhite then .error (.fault .empty)
  else if !Nesting.fits limit cs then .error (.fault (.nested limit))
  else
    match Grammar.pairs? cs with
    | none => .error (.fault .malformed)
    | some ps =>
      match Grammar.buildAll ps with
      | .error flaw => .error (.flaw flaw)
      | .ok e => if limit < e.depth then .error (.fault (.deep e.depth limit)) else .ok e

/-- Reading in stages comes to reading token by token. -/
theorem inStages_eq (limit : Nat) (cs : List Char) :
    inStages limit cs = (ofChars limit cs).mapError .ofFault := by
  have hsome := Grammar.isSome_pairs? cs
  rw [inStages, ofChars]
  split
  · rfl
  split
  · rfl
  cases hts : Token.list? cs with
  | none =>
    rw [hts, Option.bind_none, Option.isSome_none, Option.isSome_eq_false_iff,
      Option.isNone_iff_eq_none] at hsome
    rw [hsome]
    rfl
  | some ts =>
    rw [hts, Option.bind_some] at hsome
    cases he : Grammar.parse? ts with
    | none =>
      rw [he, Option.isSome_none, Option.isSome_eq_false_iff, Option.isNone_iff_eq_none] at hsome
      simp only [hsome, he]
      rfl
    | some e =>
      rw [he] at hsome
      obtain ⟨ps, hps⟩ := Option.isSome_iff_exists.mp hsome
      simp only [hps, he, Grammar.buildAll_pairs? hps hts he]
      cases Token.firstLarge? ts with
      | none =>
        simp only [Option.map_none, Grammar.verdict]
        split <;> rfl
      | some n => rfl

end Expr

/-! ### What is never reported -/

/-- Whether the report is about the pairs of the rules and not about a number of the text. -/
def Grammar.Flaw.isInternal : Grammar.Flaw → Bool
  | .large _ => false
  | _ => true

/-- The first letter of a wording. -/
def initial? (message : String) : Option Char := message.toList.head?

theorem initial?_append {s : String} {c : Char} (h : initial? s = some c) (t : String) :
    initial? (s ++ t) = some c := by
  rw [initial?] at h
  rw [initial?, String.toList_append, List.head?_append, h, Option.some_or]

/-- The wordings of the reports on pairs begin with one of four letters. -/
theorem Grammar.Flaw.initial?_message {f : Grammar.Flaw} (h : f.isInternal = true) :
    ∃ c ∈ ['E', 'U', 'I', 'F'], initial? f.message = some c := by
  cases f with
  | expected what => exact ⟨'E', by decide, initial?_append (by decide +kernel) _⟩
  | unexpected place rule =>
    exact ⟨'U', by decide,
      initial?_append (initial?_append (initial?_append (by decide +kernel) _) _) _⟩
  | unknown u =>
    exact ⟨'U', by decide,
      initial?_append (initial?_append (initial?_append (by decide +kernel) _) _) _⟩
  | invalidNumber text reason =>
    exact ⟨'I', by decide,
      initial?_append (initial?_append (initial?_append (by decide +kernel) _) _) _⟩
  | large text => cases h
  | nothing => exact ⟨'F', by decide, by decide +kernel⟩

theorem Fault.initial?_message (f : Fault) :
    ∃ c ∈ ['e', 'P', 'N'], initial? f.message = some c := by
  cases f with
  | empty => exact ⟨'e', by decide, by decide +kernel⟩
  | long n limit =>
    exact ⟨'e', by decide,
      initial?_append (initial?_append (initial?_append (by decide +kernel) _) _) _⟩
  | nested limit =>
    exact ⟨'e', by decide, initial?_append (initial?_append (by decide +kernel) _) _⟩
  | deep depth limit =>
    exact ⟨'e', by decide, initial?_append (initial?_append (initial?_append (initial?_append
      (by decide +kernel) _) _) _) _⟩
  | malformed => exact ⟨'P', by decide, by decide +kernel⟩
  | large spelling => exact ⟨'N', by decide, initial?_append (by decide +kernel) _⟩

/-- No refusal of a text reads like a report on pairs. -/
theorem Fault.message_ne (fault : Fault) {f : Grammar.Flaw} (h : f.isInternal = true) :
    fault.message ≠ f.message := by
  have hapart : ∀ c ∈ ['E', 'U', 'I', 'F'], c ∉ ['e', 'P', 'N'] := by simp
  obtain ⟨c, hc, hhead⟩ := fault.initial?_message
  obtain ⟨d, hd, hhead'⟩ := f.initial?_message h
  intro heq
  rw [heq, hhead'] at hhead
  exact hapart d hd (Option.some_inj.mp hhead ▸ hc)

/-- The wordings of the refusals of a text under a limit. -/
def Expr.IsWording (limit : Nat) (text message : String) : Prop :=
  message = "empty expression" ∨
  message = "expression nested too deeply (limit is " ++ toString limit ++ " levels)" ∨
  (∃ depth : Nat, message = "expression nested too deeply (" ++ toString depth
    ++ " levels, limit is " ++ toString limit ++ ")") ∨
  message = "Parse error" ∨
  ∃ ts n, Token.list? text.toList = some ts ∧ .number n ∈ ts ∧ n.value.isFinite = false ∧
    message = "Numeric literal out of range: " ++ .ofList n.spelling

theorem Expr.isWording_of_ofChars {limit : Nat} {text : String} {fault : Fault}
    (h : ofChars limit text.toList = .error fault) : IsWording limit text fault.message := by
  unfold ofChars at h
  split at h
  · cases h
    exact .inl rfl
  split at h
  · cases h
    exact .inr (.inl rfl)
  split at h
  · cases h
    exact .inr (.inr (.inr (.inl rfl)))
  rename_i ts hts
  split at h
  · cases h
    exact .inr (.inr (.inr (.inl rfl)))
  split at h
  · rename_i n hn
    cases h
    obtain ⟨hmem, hfinite⟩ := Token.of_firstLarge? hn
    exact .inr (.inr (.inr (.inr ⟨ts, n, hts, hmem, hfinite, rfl⟩)))
  split at h
  · cases h
    exact .inr (.inr (.inl ⟨_, rfl⟩))
  · cases h

/-- **The rules and the builder agree.** Reading a text in stages and reading it token by token
give the same tree or the same refusal, in one of five wordings and in none of the builder's reports
on pairs. And of the pairs of a text that the rules match the builder makes a tree, unless one of
its numbers is not finite. -/
theorem Expr.parse_inStages (limit : Nat) (text : String) :
    ((∃ e, inStages limit text.toList = .ok e ∧ parse limit text = .ok e) ∨
      ∃ report fault, inStages limit text.toList = .error report ∧
        parse limit text = .error (.unreadable text fault) ∧ report.message = fault.message ∧
        IsWording limit text fault.message ∧
        ∀ flaw : Grammar.Flaw, flaw.isInternal = true → report.message ≠ flaw.message) ∧
    ((Grammar.pairs? text.toList).isSome =
      ((Token.list? text.toList).bind Grammar.parse?).isSome) ∧
    ∀ ps, Grammar.pairs? text.toList = some ps →
      ((∃ flaw, Grammar.buildAll ps = .error flaw) ↔
        ∃ ts n, Token.list? text.toList = some ts ∧ .number n ∈ ts ∧
          n.value.isFinite = false) := by
  refine ⟨?_, Grammar.isSome_pairs? _, fun ps hps => ?_⟩
  · rw [inStages_eq, parse]
    cases hread : ofChars limit text.toList with
    | ok e => exact .inl ⟨e, rfl, rfl⟩
    | error fault =>
      refine .inr ⟨.ofFault fault, fault, rfl, rfl, Report.message_ofFault fault,
        isWording_of_ofChars hread, fun flaw hflaw => ?_⟩
      rw [Report.message_ofFault]
      exact fault.message_ne hflaw
  · have hsome := Grammar.isSome_pairs? text.toList
    rw [hps, Option.isSome_some] at hsome
    obtain ⟨e, he⟩ := Option.isSome_iff_exists.mp hsome.symm
    obtain ⟨ts, hts, he⟩ := Option.bind_eq_some_iff.mp he
    rw [Grammar.buildAll_pairs? hps hts he]
    constructor
    · rintro ⟨flaw, hflaw⟩
      cases hlarge : Token.firstLarge? ts with
      | none =>
        rw [hlarge] at hflaw
        cases hflaw
      | some n => exact ⟨ts, n, hts, Token.of_firstLarge? hlarge⟩
    · rintro ⟨ts', n, hts', hn, hfinite⟩
      obtain rfl := Option.some_inj.mp (hts.symm.trans hts')
      cases hlarge : Token.firstLarge? ts with
      | none => exact absurd hlarge (Token.firstLarge?_ne_none hn hfinite)
      | some m => exact ⟨_, rfl⟩

/-- A number that is too large, in a list that is an argument. -/
theorem Expr.parse_inStages_large : ∃ ps, Grammar.pairs? "f(-x, [1e999])".toList = some ps ∧
    ∃ flaw, Grammar.buildAll ps = .error flaw := by
  obtain ⟨-, -, hbuild⟩ := parse_inStages 9 "f(-x, [1e999])"
  have hsome : (Grammar.pairs? "f(-x, [1e999])".toList).isSome = true := by decide +kernel
  obtain ⟨ps, hps⟩ := Option.isSome_iff_exists.mp hsome
  let large : Numeral := ⟨['1'], none, some ⟨'e', none, ['9', '9', '9']⟩⟩
  have hts : Token.list? "f(-x, [1e999])".toList = some [.name "f", .symbol .openParen,
      .symbol .minus, .name "x", .symbol .comma, .symbol .openBracket, .number large,
      .symbol .closeBracket, .symbol .closeParen] := by decide +kernel
  have hlarge : large.value.isFinite = false := by decide +kernel
  exact ⟨ps, hps, (hbuild ps hps).mpr ⟨_, large, hts, by simp, hlarge⟩⟩

end Reckoner
