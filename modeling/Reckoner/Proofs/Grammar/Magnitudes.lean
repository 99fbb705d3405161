import Reckoner.Expr.Reading
import Reckoner.Proofs.Grammar.Builder
import Reckoner.Proofs.Token.Spelling

/-!
# The numbers of a match

The builder reads a number again from the text of its pair, and finds the value of the token
(`readFloat_spelling`). A match leaves the numbers of the tokens that it has read, in their order
and no others; so the first large number among its pairs is the first among its tokens
(`accounts_statement`).
-/

namespace Reckoner

/-! ### Numbers -/

theorem Numeral.toLower_ne {c : Char} (h : c.isDigit = true ∨ c = '.') :
    c.toLower ≠ 'i' ∧ c.toLower ≠ 'n' := by
  rcases h with h | rfl
  · have hlower : c.toLower = c := by
      simp only [Char.isDigit, Bool.and_eq_true, decide_eq_true_eq] at h
      unfold Char.toLower
      split
      · rename_i hupper
        exact absurd (UInt32.le_trans hupper.1 h.2) (by decide)
      · rfl
    rw [hlower]
    constructor <;> rintro rfl <;> cases h
  · decide

namespace Grammar

theorem readFloat_spelling {n : Numeral} (h : n.isWellFormed = true) :
    readFloat n.spelling = .ok n.value := by
  obtain ⟨c, cs, heq, hc⟩ := Numeral.exists_cons_of_isWellFormed h
  have hread : Numeral.read? n.spelling = some (n, []) := by
    simpa only [List.append_nil] using Numeral.read?_spelling h (.nil : EndsRun _ [])
  obtain ⟨hi, hn⟩ := Numeral.toLower_ne hc
  have hsign : Exponent.readSign n.spelling = (none, n.spelling) := by
    rw [heq]
    unfold Exponent.readSign
    split
    · rename_i hplus
      cases hplus
      simp at hc
    · rename_i hminus
      cases hminus
      simp at hc
    · rfl
  have hword {d : Char} {ds : List Char} (hd : c.toLower ≠ d) :
      String.ofList (n.spelling.map Char.toLower) ≠ String.ofList (d :: ds) := by
    rw [heq]
    intro hw
    have := String.ofList_injective hw
    simp at this
    exact hd this.1
  unfold readFloat
  rw [if_neg (by simp [heq]), hsign]
  dsimp only
  rw [if_neg, if_neg, hread]
  · simp
  · exact hword hn
  · exact not_or.mpr ⟨hword hi, hword hi⟩

mutual

/-- The first number in a pair that is beyond the largest double. -/
def Pair.large? : Pair → Option String
  | ⟨rule, text, inner⟩ =>
    if rule = .number then
      match readFloat text.toList with
      | .ok x => if x.isFinite then none else some text
      | .error _ => none
    else largeAmong? inner

/-- The first number among some pairs that is beyond the largest double. -/
def largeAmong? : List Pair → Option String
  | [] => none
  | p :: ps => p.large?.or (largeAmong? ps)

end

theorem Pair.large?_of_ne_number {r : Rule} (hr : r ≠ .number) (text : String) (ps : List Pair) :
    Pair.large? ⟨r, text, ps⟩ = largeAmong? ps := by
  rw [large?, if_neg hr]

@[simp] theorem largeAmong?_nil : largeAmong? [] = none := rfl

@[simp] theorem largeAmong?_cons (p : Pair) (ps : List Pair) :
    largeAmong? (p :: ps) = p.large?.or (largeAmong? ps) := rfl

@[simp] theorem largeAmong?_append (ps qs : List Pair) :
    largeAmong? (ps ++ qs) = (largeAmong? ps).or (largeAmong? qs) := by
  induction ps with
  | nil => rfl
  | cons p ps ih => rw [List.cons_append, largeAmong?_cons, ih, largeAmong?_cons, Option.or_assoc]

end Grammar

theorem Token.firstLarge?_append (ts us : List Token) :
    firstLarge? (ts ++ us) = (firstLarge? ts).or (firstLarge? us) := by
  induction ts with
  | nil => rfl
  | cons t ts ih =>
    cases t with
    | number n =>
      simp only [List.cons_append, firstLarge?, ih]
      split <;> rfl
    | _ => exact ih

namespace Grammar

/-! ### The numbers of a match -/

/-- The tokens that a match has read, and the large numbers among its pairs. -/
def Emission.Accounts (cs : List Char) (o : Emission) : Prop :=
  ∀ rest ps us, o = .matched rest ps → Token.list? rest = some us →
    ∃ read, Token.list? cs = some (read ++ us) ∧
      largeAmong? ps = (Token.firstLarge? read).map fun n => .ofList n.spelling

theorem stretch_eq {cs sp rest : List Char} (h : cs.dropWhile Token.isBlank = sp ++ rest) :
    stretch cs rest = .ofList sp := by
  simp [stretch, h]

/-- The token in front, its spelling and the pairs it leaves. -/
theorem Terminal.exists_of_emit {u : Terminal} {cs rest : List Char} {ps : List Pair}
    (h : u.emit cs = .matched rest ps) :
    ∃ t sp, Token.read? (cs.dropWhile Token.isBlank) = some (t, rest) ∧ u.accepts t = true ∧
      Token.Spells sp t ∧ ps = u.pairs sp := by
  unfold emit at h
  cases hread : Token.read? (cs.dropWhile Token.isBlank) with
  | none =>
    rw [hread] at h
    cases h
  | some read =>
    obtain ⟨t, after⟩ := read
    simp only [hread] at h
    split at h
    · rename_i haccepts
      cases h
      obtain ⟨sp, hsp, hspells⟩ := Token.read?_sound hread
      exact ⟨t, sp, rfl, haccepts, hspells, by rw [stretch_eq hsp, String.toList_ofList]⟩
    · cases h

/-- Only the pairs of a number hold one. -/
theorem Terminal.largeAmong?_pairs_eq_none {u : Terminal} (hu : u ≠ .number) (sp : List Char) :
    largeAmong? (u.pairs sp) = none := by
  cases u with
  | number => exact absurd rfl hu
  | text => by_cases h : sp.head? = some '\'' <;> simp [pairs, h, Pair.large?]
  | name => rfl
  | keyword k => cases k <;> rfl
  | symbol s => cases s <;> rfl

/-- The pairs of a token hold the number that it is. -/
theorem Terminal.largeAmong?_pairs {u : Terminal} {t : Token} {sp : List Char}
    (hu : u.accepts t = true) (hsp : Token.Spells sp t) :
    largeAmong? (u.pairs sp) = (Token.firstLarge? [t]).map fun n => .ofList n.spelling := by
  by_cases hnumber : u = .number
  · subst hnumber
    cases hsp with
    | @number n hn =>
      simp only [pairs, largeAmong?_cons, largeAmong?_nil, Option.or_none, Pair.large?, if_true,
        String.toList_ofList, readFloat_spelling hn, Token.firstLarge?]
      split <;> rfl
    | _ => cases hu
  · rw [largeAmong?_pairs_eq_none hnumber]
    cases t with
    | number n => cases u <;> first | exact absurd rfl hnumber | cases hu
    | _ => rfl

theorem accounts_emitWhile {r : Emitter} (hr : ∀ cs, (r cs).Accounts cs) (cs : List Char) :
    (emitWhile r cs).Accounts cs := by
  fun_induction emitWhile r cs with
  | case1 cs mid ps hmid _ ih =>
    intro rest qs us h hus
    cases hloop : emitWhile r mid with
    | matched rest' qs' =>
      rw [hloop] at h
      cases h
      obtain ⟨later, hlater, hlarge'⟩ := ih _ _ _ hloop hus
      obtain ⟨read, hread, hlarge⟩ := hr cs _ _ _ hmid hlater
      refine ⟨read ++ later, by rw [hread, List.append_assoc], ?_⟩
      rw [largeAmong?_append, hlarge, hlarge', Token.firstLarge?_append, Option.map_or]
    | failed | exhausted =>
      rw [hloop] at h
      cases h
  | case2 cs mid ps hmid _ =>
    rw [← hmid]
    exact hr cs
  | case3 cs =>
    intro rest ps us h hus
    cases h
    exact ⟨[], hus, rfl⟩
  | case4 => rintro _ _ _ ⟨⟩

/-- Whether only tokens are called numbers. -/
def Scheme.numbersAreTokens : Scheme → Bool
  | .terminal _ | .notBefore _ | .again _ => true
  | .sequence p q | .choice p q => p.numbersAreTokens && q.numbersAreTokens
  | .optional p | .repeated p => p.numbersAreTokens
  | .rule r p => r ≠ .number && p.numbersAreTokens

theorem Scheme.accounts_run {e : Entry → Emitter} (he : ∀ k cs, (e k cs).Accounts cs)
    (p : Scheme) (hp : p.numbersAreTokens = true) (cs : List Char) :
    (p.run e cs).Accounts cs := by
  induction p generalizing cs with
  | terminal u =>
    intro rest ps us h hus
    obtain ⟨t, sp, hread, hu, hsp, rfl⟩ := Terminal.exists_of_emit h
    refine ⟨[t], by rw [Token.list?_cons hread, hus]; rfl, Terminal.largeAmong?_pairs hu hsp⟩
  | notBefore c =>
    intro rest ps us h hus
    rw [run] at h
    split at h <;> cases h
    exact ⟨[], hus, rfl⟩
  | sequence p q ihp ihq =>
    obtain ⟨hp, hq⟩ := Bool.and_eq_true_iff.mp hp
    intro rest ps us h hus
    rw [run] at h
    cases hfirst : p.run e cs with
    | matched mid qs =>
      simp only [hfirst] at h
      cases hsecond : q.run e mid with
      | matched rest' rs =>
        rw [hsecond] at h
        cases h
        obtain ⟨later, hlater, hlarge'⟩ := ihq hq mid _ _ _ hsecond hus
        obtain ⟨read, hread, hlarge⟩ := ihp hp cs _ _ _ hfirst hlater
        refine ⟨read ++ later, by rw [hread, List.append_assoc], ?_⟩
        rw [largeAmong?_append, hlarge, hlarge', Token.firstLarge?_append, Option.map_or]
      | failed | exhausted =>
        rw [hsecond] at h
        cases h
    | failed | exhausted =>
      rw [hfirst] at h
      cases h
  | choice p q ihp ihq =>
    obtain ⟨hp, hq⟩ := Bool.and_eq_true_iff.mp hp
    have hchoice := ihp hp cs
    rw [run]
    cases hfirst : p.run e cs with
    | failed => exact ihq hq cs
    | matched | exhausted =>
      rw [hfirst] at hchoice
      exact hchoice
  | optional p ih =>
    have hoptional := ih hp cs
    rw [run]
    cases hfirst : p.run e cs with
    | failed =>
      intro rest ps us h hus
      cases h
      exact ⟨[], hus, rfl⟩
    | matched | exhausted =>
      rw [hfirst] at hoptional
      exact hoptional
  | repeated p ih => exact accounts_emitWhile (ih hp) cs
  | again k => exact he k cs
  | rule r p ih =>
    obtain ⟨hr, hp⟩ := Bool.and_eq_true_iff.mp hp
    intro rest ps us h hus
    rw [run] at h
    cases hrun : p.run e cs with
    | matched rest' qs =>
      rw [hrun] at h
      cases h
      obtain ⟨read, hread, hlarge⟩ := ih hp cs _ _ _ hrun hus
      refine ⟨read, hread, ?_⟩
      rw [largeAmong?_cons, largeAmong?_nil, Option.or_none,
        Pair.large?_of_ne_number (of_decide_eq_true hr), hlarge]
    | failed | exhausted =>
      rw [hrun] at h
      cases h

theorem accounts_emit (n : Nat) (k : Entry) (cs : List Char) : (emit n k cs).Accounts cs := by
  induction n generalizing k cs with
  | zero => nofun
  | succ n ih => exact Scheme.accounts_run ih _ (by cases k <;> rfl) cs

/-- **The numbers among the pairs** of a statement are those among the tokens that it has read. -/
theorem accounts_statement (n : Nat) (cs : List Char) :
    (Scheme.statement.run (emit n) cs).Accounts cs :=
  Scheme.accounts_run (accounts_emit n) _ rfl cs

end Grammar

end Reckoner
