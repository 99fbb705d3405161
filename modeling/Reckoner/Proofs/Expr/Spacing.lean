import Reckoner.Proofs.Expr.Acceptance
import Reckoner.Proofs.Nesting.Findings
import Reckoner.Proofs.Token.Front

/-!
# Blanks between tokens

A place of a text that is inside no token is in the gap before one or behind the last one.
Blanks that are inserted there only widen the gap, so the text keeps its tokens and its tree.
The scan can find one operator more, a keyword that touched the literal before it, so a
limit that is just large enough for a text can be too small for the wider one.
-/

namespace Reckoner

open Nesting (Covers)

/-! ### Wider gaps -/

/-- The scan finds no less behind a wider gap. -/
theorem Placed.covers_found_of_gap {p q : Placed} (htoken : q.token = p.token)
    (hgap : q.gap = [] → p.gap = []) {ps : List Placed} (swallowed : Bool) (next : Option Token) :
    Covers (found swallowed next (p :: ps)) (found swallowed next (q :: ps)) := by
  rw [found, found, htoken]
  cases hq : q.isHidden swallowed with
  | true =>
    have hp : p.isHidden swallowed = true := by
      simp only [isHidden, htoken, Bool.and_eq_true, List.isEmpty_iff] at hq ⊢
      exact ⟨⟨hq.1.1, hgap hq.1.2⟩, hq.2⟩
    rw [hp]
    exact .refl _
  | false =>
    cases hp : p.isHidden swallowed with
    | false => exact .refl _
    | true =>
      obtain ⟨k, hk⟩ : ∃ k, p.token = .keyword k := by
        have hkeyword := (Bool.and_eq_true_iff.mp hp).2
        generalize p.token = t at hkeyword
        cases t <;> first | exact ⟨_, rfl⟩ | cases hkeyword
      rw [hk]
      exact .operator (.refl _)

theorem Token.Laid.widen {bs ws post : List Char} {rs : List Placed} (h : Laid (bs ++ post) rs)
    (hbs : bs.all isBlank = true) (hws : ws.all isBlank = true) :
    ∃ rs', Laid (bs ++ (ws ++ post)) rs' ∧ rs'.map Placed.token = rs.map Placed.token ∧
      ∀ swallowed next, Covers (Placed.found swallowed next rs)
        (Placed.found swallowed next rs') := by
  generalize hcs : bs ++ post = cs at h
  cases h with
  | blank hall =>
    rw [← hcs, List.all_append, Bool.and_eq_true] at hall
    refine ⟨[], .blank ?_, rfl, fun _ _ => .refl _⟩
    simp only [List.all_append, hbs, hws, hall.2, Bool.and_self]
  | @cons p cs ps hgap hread rest =>
    obtain ⟨c, sp, hsp, hc, -⟩ := (spells_of_read? hread).exists_cons
    have hends : EndsRun isBlank (p.spelling ++ cs) := by
      rw [hsp]
      exact EndsRun.cons_iff.mpr (not_isBlank_of_toNat hc)
    have hpost : post.dropWhile isBlank = p.spelling ++ cs := by
      have := congrArg (List.dropWhile isBlank) hcs
      rwa [List.dropWhile_append_of_pos (List.all_eq_true.mp hbs),
        hends.dropWhile_append hgap] at this
    have hsplit := List.takeWhile_append_dropWhile (p := isBlank) (l := post)
    rw [hpost] at hsplit
    have hwide : (bs ++ (ws ++ post.takeWhile isBlank)).all isBlank = true := by
      simp only [List.all_append, hbs, hws, List.all_takeWhile, Bool.and_self]
    let q : Placed := ⟨bs ++ (ws ++ post.takeWhile isBlank), p.spelling, p.token⟩
    have hlaid := Laid.cons (p := q) hwide hread rest
    rw [List.append_assoc, List.append_assoc, hsplit] at hlaid
    refine ⟨q :: ps, hlaid, rfl, Placed.covers_found_of_gap (p := p) (q := q) rfl fun hnil => ?_⟩
    obtain ⟨rfl, -, htake⟩ : bs = [] ∧ ws = [] ∧ post.takeWhile isBlank = [] := by
      simpa only [q, List.append_eq_nil_iff] using hnil
    rw [← hsplit, htake] at hcs
    exact (List.append_cancel_right hcs).symm

/-- **Blanks that are inserted between tokens** leave the tokens, and the scan finds no less. -/
theorem Token.Between.exists_laid {pre bs post : List Char} (h : Between pre post)
    (hbs : bs.all isBlank = true) :
    ∃ ps ps', Laid (pre ++ post) ps ∧ Laid (pre ++ (bs ++ post)) ps' ∧
      ps'.map Placed.token = ps.map Placed.token ∧
      Covers (Placed.found false none ps) (Placed.found false none ps') := by
  cases bs with
  | nil =>
    obtain ⟨ps, hlaid, -⟩ := h
    exact ⟨ps, ps, hlaid, hlaid, rfl, .refl _⟩
  | cons b bs =>
    obtain ⟨qs, rs, ws, hlaid, rfl, hws⟩ := between_iff.mp h
    rw [List.append_assoc] at hlaid
    obtain ⟨rest, hrest, hbehind⟩ := hlaid.exists_append
    obtain rfl := List.append_cancel_left hrest
    obtain ⟨rs', hwide, htokens, hcovers⟩ := hbehind.widen hws hbs
    have hends : EndsRun mayContinue (ws ++ (b :: bs ++ post)) := by
      cases ws with
      | nil =>
        exact EndsRun.cons_iff.mpr
          (Token.not_mayContinue_of_isBlank (Bool.and_eq_true_iff.mp hbs).1)
      | cons w ws =>
        exact EndsRun.cons_iff.mpr
          (Token.not_mayContinue_of_isBlank (Bool.and_eq_true_iff.mp hws).1)
    have hnext : rs'.head?.map Placed.token = rs.head?.map Placed.token := by
      rw [← List.head?_map, ← List.head?_map, htokens]
    refine ⟨qs ++ rs, qs ++ rs', ?_, ?_, ?_, ?_⟩
    · rwa [List.append_assoc]
    · rw [List.append_assoc]
      exact hlaid.exchange hends hwide
    · rw [List.map_append, List.map_append, htokens]
    · rw [Placed.found_append, Placed.found_append, hnext]
      exact (hcovers _ _).append_left _

/-! ### Trees -/

namespace Expr

/-- The text is not refused for the limit on its depth. -/
def Admitted (limit : Nat) (text : String) : Prop :=
  ∀ fault, parse limit text = .error (.unreadable text fault) → fault.isLimit = false

variable {text : String} {ts : List Token} {e : Expr}

theorem parse_of_admitted {limit : Nat} (h : Says text.toList ts e) (ha : Admitted limit text) :
    parse limit text = .ok e := by
  have hparse := parse_of_writes h.tokens h.writes h.canonical limit
  unfold Admitted at ha
  rw [hparse] at ha ⊢
  split
  · split
    · rfl
    · rename_i hbound hdepth
      rw [if_pos hbound, if_neg hdepth] at ha
      cases ha _ rfl
  · rename_i hbound
    rw [if_neg hbound] at ha
    cases ha _ rfl

/-- A limit beyond the length of a text admits it. -/
theorem admitted_of_length_lt {limit : Nat} (h : Says text.toList ts e)
    (hlimit : text.length < limit) : Admitted limit text := by
  have hbound := Nesting.bound_le_length text.toList
  have htokens := (Token.spaced_of_list? h.tokens).length_le
  have hdepth := h.writes.depth_le
  rw [String.length_toList] at hbound htokens
  have hparse : parse limit text = .ok e := parse_eq_ok_iff.mpr ⟨ts, h, by omega, by omega⟩
  intro fault herror
  rw [hparse] at herror
  cases herror

/-- **Blanks between tokens are of no account.** If a text is read as a tree, then so is the text
with blanks inserted anywhere but inside a token, under each limit that is wide enough for it, and
such a limit is wide enough for the text without them too. All limits beyond the length are. -/
theorem parse_insert_blanks {limit : Nat} {text text' : String} {pre bs post : List Char} {e : Expr}
    (hread : parse limit text = .ok e) (htext : text.toList = pre ++ post)
    (hplace : Token.Between pre post) (hbs : bs.all Token.isBlank = true)
    (htext' : text'.toList = pre ++ (bs ++ post)) :
    (∀ wide, Admitted wide text' → parse wide text' = .ok e ∧ parse wide text = .ok e) ∧
      ∀ wide, text'.length < wide → Admitted wide text' := by
  obtain ⟨ts, hsaid, -⟩ := parse_eq_ok_iff.mp hread
  obtain ⟨ps, ps', hlaid, hlaid', htokens, hcovers⟩ := hplace.exists_laid hbs
  rw [← htext] at hlaid
  rw [← htext'] at hlaid'
  obtain rfl : ps.map Placed.token = ts := Option.some.inj (hlaid.list?_eq.symm.trans hsaid.tokens)
  have hsaid' : Says text'.toList (ps.map Placed.token) e :=
    ⟨hlaid'.list?_eq.trans (congrArg some htokens), hsaid.writes, hsaid.canonical⟩
  have hjoined := hsaid.writes.joined
  have hbound : Nesting.bound text.toList ≤ Nesting.bound text'.toList := by
    unfold Nesting.bound
    rw [(Nesting.marks_laid hlaid hjoined).1,
      (Nesting.marks_laid hlaid' (htokens.symm ▸ hjoined)).1]
    exact (Nesting.Scan.Below.run hcovers (.refl {})).bound_le
  refine ⟨fun wide hwide => ?_, fun wide => admitted_of_length_lt hsaid'⟩
  have hparse' := parse_of_admitted hsaid' hwide
  obtain ⟨_, -, hwide, hdepth⟩ := parse_eq_ok_iff.mp hparse'
  exact ⟨hparse', parse_eq_ok_iff.mpr ⟨_, hsaid, Nat.le_trans hbound hwide, hdepth⟩⟩

/-- Four blanks before a power sign. -/
theorem parse_insert_blanks_power :
    Admitted 9 "a \t\r\n**b" ∧
      parse 9 "a \t\r\n**b" = .ok (.binary .power (.name "a") (.name "b")) ∧
        parse 9 "a**b" = .ok (.binary .power (.name "a") (.name "b")) := by
  have hsaid : Says "a**b".toList [.name "a", .symbol .power, .name "b"]
      (.binary .power (.name "a") (.name "b")) :=
    .of_parse? (by decide +kernel) rfl rfl
  have hread : parse 2 "a**b" = .ok (.binary .power (.name "a") (.name "b")) :=
    parse_eq_ok_iff.mpr ⟨_, hsaid, by decide +kernel, by decide +kernel⟩
  have hplace : Token.Between ['a'] ['*', '*', 'b'] := by
    have hbehind : Token.list? ['*', '*', 'b'] = some [.symbol .power, .name "b"] := by
      decide +kernel
    obtain ⟨rs, hrs, -⟩ := Token.exists_laid hbehind
    refine Token.between_iff.mpr ⟨[⟨[], ['a'], .name "a"⟩], rs, [], ?_, rfl, rfl⟩
    exact .cons (p := ⟨[], ['a'], .name "a"⟩) rfl (by decide +kernel) hrs
  have hwider : "a \t\r\n**b".toList = ['a'] ++ ([' ', '\t', '\r', '\n'] ++ ['*', '*', 'b']) := by
    decide +kernel
  obtain ⟨hsame, hwide⟩ := parse_insert_blanks hread (by decide +kernel) hplace rfl hwider
  have hadmitted := hwide 9 (by decide +kernel)
  exact ⟨hadmitted, hsame 9 hadmitted⟩

end Expr

end Reckoner
