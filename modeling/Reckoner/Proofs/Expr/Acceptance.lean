import Reckoner.Proofs.Expr.Fidelity

/-!
# Which texts are accepted

A text says a tree if its tokens write the tree and the tree is canonical (`Says`). A text
is read as a tree if and only if it says the tree and keeps to the limits, and a policy
refuses a text that says a tree for its limits alone.
-/

namespace Reckoner

/-- The text consists of the tokens, they write the tree, and the tree is canonical. -/
structure Says (cs : List Char) (ts : List Token) (e : Expr) : Prop where
  tokens : Token.list? cs = some ts
  writes : Writes ts e
  canonical : e.canonical = true

/-- The grammar makes canonical trees of finite literals. -/
theorem Says.of_parse? {cs : List Char} {ts : List Token} {e : Expr}
    (hts : Token.list? cs = some ts) (he : Grammar.parse? ts = some e)
    (hfinite : Token.firstLarge? ts = none) : Says cs ts e := by
  obtain ⟨hw, hshaped⟩ := Grammar.parse?_eq_some_iff.mp he
  have hspelled : e.spelled = true :=
    hw.forall_isLegible_iff.mp ((Token.spaced_of_list? hts).isLegible hfinite)
  exact ⟨hts, hw, Bool.and_eq_true_iff.mpr ⟨hshaped, hspelled⟩⟩

section

variable {cs : List Char} {ts : List Token} {e : Expr}

theorem Says.parse?_eq (h : Says cs ts e) : Grammar.parse? ts = some e :=
  Grammar.parse?_eq_some_iff.mpr ⟨h.writes, (Bool.and_eq_true_iff.mp h.canonical).1⟩

theorem Says.firstLarge?_eq_none (h : Says cs ts e) : Token.firstLarge? ts = none :=
  Token.firstLarge?_eq_none
    (h.writes.forall_isLegible_iff.mpr (Bool.and_eq_true_iff.mp h.canonical).2)

end

theorem Expr.ofChars_eq_ok_iff {limit : Nat} {cs : List Char} {e : Expr} :
    ofChars limit cs = .ok e ↔
      ∃ ts, Says cs ts e ∧ Nesting.bound cs ≤ limit ∧ e.depth ≤ limit := by
  constructor
  · intro h
    obtain ⟨ts, hts, hparse, hlarge, hbound, hdepth⟩ := of_ofChars_eq_ok h
    exact ⟨ts, .of_parse? hts hparse hlarge, hbound, hdepth⟩
  · rintro ⟨ts, h, hbound, hdepth⟩
    rw [ofChars_of_writes h.tokens h.writes h.canonical, if_pos hbound, if_pos hdepth]

theorem Expr.parse_eq_ok_iff {limit : Nat} {text : String} {e : Expr} :
    parse limit text = .ok e ↔ ∃ ts, Says text.toList ts e ∧
      Nesting.bound text.toList ≤ limit ∧ e.depth ≤ limit := by
  rw [← ofChars_eq_ok_iff, parse]
  cases ofChars limit text.toList <;> simp [Except.mapError]

/-! ### Lengths -/

theorem Text.length_expandCarets_le (cs : List Char) :
    (expandCarets cs).length ≤ 2 * cs.length := by
  induction cs with
  | nil => exact Nat.le_refl _
  | cons c cs ih =>
    by_cases hc : c = '^'
    · subst hc
      simp only [expandCarets_caret, List.length_cons]
      omega
    · simp only [expandCarets_cons hc, List.length_cons]
      omega

theorem Token.Spaced.length_le {cs : List Char} {ts : List Token} (h : Spaced cs ts) :
    ts.length ≤ cs.length := by
  induction h with
  | blank => exact Nat.zero_le _
  | cons hbs hsp _ ih =>
    have := hsp.length_pos
    simp only [List.length_append, List.length_cons]
    omega

/-! ### Under a policy -/

/-- Whether the text is too long or too deep, whatever it says. -/
def Fault.isLimit : Fault → Bool
  | .long .. | .nested _ | .deep .. => true
  | _ => false

/-- The text is not refused for a limit of the policy. -/
def Policy.Admits (p : Policy) (text : String) : Prop :=
  ∀ fault, p.parse text = .error (.unreadable text fault) → fault.isLimit = false

section

variable {p : Policy} {text : String} {ts : List Token} {e : Expr}

theorem Policy.parse_eq_ok_iff : p.parse text = .ok e ↔
    text.length ≤ p.maxLength ∧ ∃ ts, Says (Text.expandCarets text.toList) ts e ∧
      Nesting.bound (Text.expandCarets text.toList) ≤ p.maxDepth ∧ e.depth ≤ p.maxDepth := by
  rw [← Expr.ofChars_eq_ok_iff, parse]
  split
  · rename_i hlong
    simp [Nat.not_le_of_lt hlong]
  · rename_i hlong
    rw [and_iff_right (Nat.le_of_not_lt hlong)]
    cases Expr.ofChars p.maxDepth (Text.expandCarets text.toList) <;> simp [Except.mapError]

/-- A text that says a tree is read as this tree or refused for a limit. -/
theorem Says.parse_eq_ok_or (h : Says (Text.expandCarets text.toList) ts e) (p : Policy) :
    p.parse text = .ok e ∨
      ∃ fault, fault.isLimit = true ∧ p.parse text = .error (.unreadable text fault) := by
  unfold Policy.parse
  rw [Expr.ofChars_of_writes h.tokens h.writes h.canonical]
  split
  · exact .inr ⟨_, rfl, rfl⟩
  · split
    · split
      · exact .inl rfl
      · exact .inr ⟨_, rfl, rfl⟩
    · exact .inr ⟨_, rfl, rfl⟩

theorem Says.parse_of_admits (h : Says (Text.expandCarets text.toList) ts e)
    (hp : p.Admits text) : p.parse text = .ok e := by
  obtain hok | ⟨fault, hlimit, herror⟩ := h.parse_eq_ok_or p
  · exact hok
  · rw [hp fault herror] at hlimit
    cases hlimit

/-- A text that says a tree is read where the limits are wide for its length. -/
theorem Says.parse_of_length (h : Says (Text.expandCarets text.toList) ts e)
    (hlength : text.length ≤ p.maxLength) (hdepth : 2 * text.length < p.maxDepth) :
    p.parse text = .ok e := by
  have hchars := Text.length_expandCarets_le text.toList
  have hbound := Nesting.bound_le_length (Text.expandCarets text.toList)
  have htokens := (Token.spaced_of_list? h.tokens).length_le
  have hdeep := h.writes.depth_le
  rw [String.length_toList] at hchars
  exact Policy.parse_eq_ok_iff.mpr ⟨hlength, ts, h, by omega, by omega⟩

theorem Policy.admits_of_parse_eq_ok (h : p.parse text = .ok e) : p.Admits text := by
  intro fault herror
  rw [h] at herror
  cases herror

end

end Reckoner
