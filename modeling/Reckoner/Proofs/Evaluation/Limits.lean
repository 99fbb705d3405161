import Reckoner.Proofs.Evaluation.Modes
import Reckoner.Proofs.Expr.Acceptance

/-!
# Wider limits

What a text is read as does not depend on a limit (`Expr.readFreely`); a limit only decides
whether the text is refused before that, for its scan, or after that, for its tree. A text
that one limit has room for is therefore read in the same way under every greater one, and
has the same result (`evaluate_within`).
-/

namespace Reckoner

namespace Expr

variable {limit limit' : Nat} {cs : List Char}

/-! ### Reading without a limit -/

/-- What the characters are read as where nothing is limited. -/
def readFreely (cs : List Char) : Except Fault Expr :=
  if cs.all Text.isWhite then .error .empty
  else
    match Token.list? cs with
    | none => .error .malformed
    | some ts =>
      match Grammar.parse? ts with
      | none => .error .malformed
      | some e =>
        match Token.firstLarge? ts with
        | some n => .error (.large (String.ofList n.spelling))
        | none => .ok e

/-- The limit is for the scan of a text that is not blank, and for the tree that is read. -/
theorem ofChars_eq (limit : Nat) (cs : List Char) :
    ofChars limit cs =
      if cs.all Text.isWhite then .error .empty
      else if limit < Nesting.bound cs then .error (.nested limit)
      else readFreely cs >>= fun e =>
        if limit < e.depth then .error (.deep e.depth limit) else .ok e := by
  have hfits : (!Nesting.fits limit cs) = true ↔ limit < Nesting.bound cs := by
    rw [Bool.not_eq_true', ← Bool.not_eq_true, Nesting.fits_iff, Nat.not_le]
  unfold ofChars readFreely
  by_cases hwhite : cs.all Text.isWhite = true
  · simp only [if_pos hwhite]
  · simp only [if_neg hwhite, hfits]
    split
    · rfl
    · cases Token.list? cs with
      | none => rfl
      | some ts =>
        dsimp only
        cases Grammar.parse? ts with
        | none => rfl
        | some e =>
          dsimp only
          cases Token.firstLarge? ts with
          | some n => rfl
          | none => rfl

/-- The limit has room for the scan and for the tree, if there is anything to scan and read. -/
def HasRoom (limit : Nat) (cs : List Char) : Prop :=
  cs.all Text.isWhite = true ∨
    Nesting.bound cs ≤ limit ∧ ∀ e, readFreely cs = .ok e → e.depth ≤ limit

theorem HasRoom.mono (h : HasRoom limit cs) (hle : limit ≤ limit') : HasRoom limit' cs := by
  rcases h with hwhite | ⟨hbound, hdepth⟩
  · exact .inl hwhite
  · exact .inr ⟨Nat.le_trans hbound hle, fun e he => Nat.le_trans (hdepth e he) hle⟩

theorem HasRoom.ofChars_eq (h : HasRoom limit cs) : ofChars limit cs = readFreely cs := by
  rw [Expr.ofChars_eq]
  by_cases hwhite : cs.all Text.isWhite = true
  · rw [if_pos hwhite, readFreely, if_pos hwhite]
  · obtain ⟨hbound, hdepth⟩ := h.resolve_left hwhite
    rw [if_neg hwhite, if_neg (Nat.not_lt_of_le hbound)]
    cases hread : readFreely cs with
    | error fault => rfl
    | ok e => exact if_neg (Nat.not_lt_of_le (hdepth e hread))

/-- A limit that a text is not refused for has room for it. -/
theorem hasRoom_of_ofChars (h : ∀ fault, ofChars limit cs = .error fault → fault.isLimit = false) :
    HasRoom limit cs := by
  rw [ofChars_eq] at h
  by_cases hwhite : cs.all Text.isWhite = true
  · exact .inl hwhite
  · rw [if_neg hwhite] at h
    by_cases hbound : limit < Nesting.bound cs
    · rw [if_pos hbound] at h
      cases h _ rfl
    · rw [if_neg hbound] at h
      refine .inr ⟨Nat.le_of_not_lt hbound, fun e he => Nat.le_of_not_lt fun hdeep => ?_⟩
      have hrefused : (readFreely cs >>= fun e =>
          if limit < e.depth then .error (.deep e.depth limit) else .ok e) =
            .error (.deep e.depth limit) := by
        rw [he]
        exact if_pos hdeep
      cases h _ hrefused

end Expr

/-! ### Policies -/

namespace Policy

variable {p q : Policy} {text : String}

/-- The second policy has limits that are at least as wide, and the same gate. -/
structure Within (p q : Policy) : Prop where
  length : p.maxLength ≤ q.maxLength
  depth : p.maxDepth ≤ q.maxDepth
  gate : p.strictBasic = q.strictBasic

theorem parse_of_hasRoom (hlength : text.length ≤ p.maxLength)
    (h : Expr.HasRoom p.maxDepth (Text.expandCarets text.toList)) :
    p.parse text =
      (Expr.readFreely (Text.expandCarets text.toList)).mapError (.unreadable text) := by
  rw [parse, if_neg (Nat.not_lt_of_le hlength), h.ofChars_eq]

/-- A text that is admitted is short enough, and the depth has room for it. -/
theorem hasRoom_of_admits (h : p.Admits text) :
    text.length ≤ p.maxLength ∧ Expr.HasRoom p.maxDepth (Text.expandCarets text.toList) := by
  unfold Admits parse at h
  by_cases hlong : p.maxLength < text.length
  · rw [if_pos hlong] at h
    cases h _ rfl
  · rw [if_neg hlong] at h
    refine ⟨Nat.le_of_not_lt hlong, Expr.hasRoom_of_ofChars fun fault hfault => ?_⟩
    exact h fault (by rw [hfault]; rfl)

theorem Within.parse_eq (hpq : p.Within q) (h : p.Admits text) : q.parse text = p.parse text := by
  obtain ⟨hlength, hroom⟩ := hasRoom_of_admits h
  rw [parse_of_hasRoom hlength hroom,
    parse_of_hasRoom (Nat.le_trans hlength hpq.length) (hroom.mono hpq.depth)]

theorem Within.evaluate_eq (hpq : p.Within q) (m : Mode) (e : Expr) :
    e.evaluate q m = e.evaluate p m :=
  Expr.evaluate_congr fun _ _ _ => by rw [forbidsCalls, forbidsCalls, hpq.gate]

end Policy

/-- **Wider limits change no answer**: a text that is not refused for a limit is read as the same
tree, or refused for the same reason, under every policy with wider limits and the same gate, and
what its evaluation comes to is the same in each mode. -/
theorem evaluate_within {p q : Policy} (hpq : p.Within q) (text : String) :
    (p.Admits text → q.parse text = p.parse text) ∧
    ∀ m, (∀ fault, p.evaluate m text = .error (.unreadable text fault) → fault.isLimit = false) →
      q.evaluate m text = p.evaluate m text := by
  refine ⟨hpq.parse_eq, fun m h => ?_⟩
  have hadmits : p.Admits text := by
    intro fault hfault
    exact h fault (by rw [Policy.evaluate, hfault]; rfl)
  rw [Policy.evaluate, Policy.evaluate, hpq.parse_eq hadmits]
  cases p.parse text with
  | error r => rfl
  | ok e => exact hpq.evaluate_eq m e

/-- Limits that just admit the negation of a root of an unknown name, and wider ones. -/
theorem evaluate_within_narrow :
    let narrow : Policy := { maxLength := 8, maxDepth := 4 }
    narrow.parse "-sqrt(x)" = .ok (.signed .minus (.call (.name "sqrt") [.name "x"] [])) ∧
      Policy.parse {} "-sqrt(x)" = .ok (.signed .minus (.call (.name "sqrt") [.name "x"] [])) ∧
      narrow.evaluate .basic "-sqrt(x)" = .error (.unknownName "x") ∧
      Policy.evaluate {} .basic "-sqrt(x)" = .error (.unknownName "x") := by
  intro narrow
  have hwithin : narrow.Within {} := ⟨by decide, by decide, rfl⟩
  have hparse : narrow.parse "-sqrt(x)" =
      .ok (.signed .minus (.call (.name "sqrt") [.name "x"] [])) := by cbv
  have hvalue : narrow.evaluate .basic "-sqrt(x)" = .error (.unknownName "x") := by
    rw [Policy.evaluate, hparse]
    rfl
  obtain ⟨hread, hevaluated⟩ := evaluate_within hwithin "-sqrt(x)"
  refine ⟨hparse, (hread (Policy.admits_of_parse_eq_ok hparse)).trans hparse, hvalue, ?_⟩
  refine (hevaluated .basic fun fault hfault => ?_).trans hvalue
  rw [hvalue] at hfault
  cases hfault

end Reckoner
