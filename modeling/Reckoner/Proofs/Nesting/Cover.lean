import Reckoner.Proofs.Nesting.Adjacency
import Reckoner.Proofs.Nesting.Charge

/-!
# The scan covers the charge

In every text of a written tree the scan finds the marks of the tokens, but for keywords
that the exponent of a number literal hides, and perhaps more operators. So the bound of
the text is at least that of the charge with hidden keywords left out.
-/

namespace Reckoner

namespace Nesting

/-! ### More operators -/

/-- The marks on the right are those on the left and perhaps more operators. -/
inductive Covers : List Mark → List Mark → Prop
  | nil : Covers [] []
  | cons (m : Mark) {ns ms : List Mark} (rest : Covers ns ms) : Covers (m :: ns) (m :: ms)
  | operator {ns ms : List Mark} (rest : Covers ns ms) : Covers ns (.operator :: ms)

namespace Covers

variable {ls ns ms : List Mark}

theorem refl (ns : List Mark) : Covers ns ns := by
  induction ns with
  | nil => exact .nil
  | cons m ns ih => exact .cons m ih

theorem append_left (h : Covers ns ms) (ls : List Mark) : Covers (ls ++ ns) (ls ++ ms) := by
  induction ls with
  | nil => exact h
  | cons l ls ih => exact .cons l ih

/-- An operator may be left out on the left. -/
theorem of_operator (h : Covers (.operator :: ns) ms) : Covers ns ms := by
  induction ms with
  | nil => cases h
  | cons m ms ih =>
    cases h with
    | cons _ rest => exact .operator rest
    | operator rest => exact .operator (ih rest)

theorem markIf (h : Covers ns ms) (b : Bool) : Covers ns (markIf b .operator ++ ms) := by
  cases b with
  | false => exact h
  | true => exact .operator h

end Covers

/-- No open level of one scan is above that of the other. -/
def Scan.Below (s t : Scan) : Prop :=
  s.current.Below t.current ∧ List.Forall₂ Level.Below s.enclosing t.enclosing

namespace Scan.Below

variable {s t : Scan}

theorem refl (s : Scan) : s.Below s :=
  ⟨Level.Below.refl _, List.forall₂_same.mpr fun _ _ => .refl _⟩

theorem step (h : s.Below t) (m : Mark) : (s.step m).Below (t.step m) := by
  obtain ⟨current, enclosing⟩ := s
  obtain ⟨current', enclosing'⟩ := t
  obtain ⟨hc, he⟩ := h
  cases m with
  | opening => exact ⟨.refl _, .cons hc he⟩
  | operator => exact ⟨⟨Nat.succ_le_succ hc.1, hc.2⟩, he⟩
  | closing =>
    cases he with
    | nil => exact ⟨hc, .nil⟩
    | cons hl hls => exact ⟨hl.enclose hc, hls⟩

theorem step_operator (h : s.Below t) : s.Below (t.step .operator) :=
  ⟨⟨Nat.le_succ_of_le h.1.1, h.1.2⟩, h.2⟩

theorem run {ns ms : List Mark} (hm : Covers ns ms) (h : s.Below t) :
    (s.run ns).Below (t.run ms) := by
  induction hm generalizing s t with
  | nil => exact h
  | cons m rest ih => exact ih (h.step m)
  | operator rest ih => exact ih h.step_operator

theorem bound_le (h : s.Below t) : s.bound ≤ t.bound := by
  obtain ⟨current, enclosing⟩ := s
  obtain ⟨current', enclosing'⟩ := t
  obtain ⟨hc, he⟩ := h
  show (closed current enclosing).bound ≤ (closed current' enclosing').bound
  replace hc : current.Below current' := hc
  replace he : List.Forall₂ Level.Below enclosing enclosing' := he
  induction he generalizing current current' with
  | nil => exact hc.bound_le
  | cons hl _ ih => exact ih _ _ (hl.enclose hc)

end Scan.Below

end Nesting

/-! ### What follows a token in a text -/

namespace Token

variable {cs : List Char} {ts : List Token}

/-- An operand begins with no character that could belong to a sign before it. -/
theorem Spells.detached {sp : List Char} {t : Token} (h : Spells sp t) (ht : t.begins = true)
    (cs : List Char) : Nesting.Detached (sp ++ cs) := by
  unfold Nesting.Detached
  cases h with
  | number hn =>
    obtain ⟨c, ds, heq, hc⟩ := Numeral.exists_cons_of_isWellFormed hn
    rw [heq]
    refine EndsRun.cons_iff.mpr ?_
    rcases hc with hc | rfl
    · simp only [Bool.or_eq_false_iff, decide_eq_false_iff_not]
      constructor <;> rintro rfl <;> cases hc
    · rfl
  | text hq _ =>
    simp only [isQuote, Bool.or_eq_true, decide_eq_true_eq] at hq
    rcases hq with rfl | rfl <;> exact EndsRun.cons_iff.mpr rfl
  | name hid =>
    obtain ⟨c, w, heq, hc, -⟩ := exists_cons_of_isName hid
    rw [heq]
    refine EndsRun.cons_iff.mpr ?_
    simp only [Bool.or_eq_false_iff, decide_eq_false_iff_not]
    constructor <;> rintro rfl <;> exact absurd hc (by decide)
  | keyword k => cases k <;> exact EndsRun.cons_iff.mpr rfl
  | symbol s => cases s <;> first | exact EndsRun.cons_iff.mpr rfl | cases ht

theorem detached_append {bs cs : List Char} (hbs : bs.all isBlank = true)
    (h : Nesting.Detached cs) : Nesting.Detached (bs ++ cs) := by
  cases bs with
  | nil => exact h
  | cons b bs =>
    have hb := (Bool.and_eq_true_iff.mp hbs).1
    simp only [isBlank, Bool.or_eq_true, decide_eq_true_eq, or_assoc] at hb
    rcases hb with rfl | rfl | rfl | rfl <;> exact EndsRun.cons_iff.mpr rfl

theorem Spaced.detached {cs : List Char} {ts : List Token} (h : Spaced cs ts)
    (hnext : ts.head?.all begins = true) : Nesting.Detached cs := by
  cases h with
  | blank hbs =>
    have := detached_append hbs EndsRun.nil
    rwa [List.append_nil] at this
  | cons hbs hsp rest => exact detached_append hbs (hsp.detached hnext _)

/-- Where a name stands next, the scan finds it behind the white space. -/
theorem Spaced.nameFollows {cs : List Char} {id : String} {ts : List Token}
    (h : Spaced cs (.name id :: ts)) : Nesting.nameFollows (cs.dropWhile Text.isWhite) = true := by
  cases h with
  | @cons bs sp cs _ _ hbs hsp rest =>
    cases hsp with
    | name hid =>
      obtain ⟨c, w, heq, hc, -⟩ := exists_cons_of_isName hid
      have hword := startsWord_iff_toNat.mp hc
      have hends : EndsRun Text.isWhite (c :: w ++ cs) :=
        EndsRun.cons_iff.mpr (not_isWhite_of_toNat (by omega) (by omega))
      have hwhite : bs.all Text.isWhite = true :=
        List.all_eq_true.mpr fun b hb => isWhite_of_isBlank (List.all_eq_true.mp hbs b hb)
      rw [heq, hends.dropWhile_append hwhite]
      simp [Nesting.nameFollows, hc]

/-- A word is read as far as it goes. -/
theorem endsRun_of_read? {cs after : List Char} {t : Token} (h : read? cs = some (t, after))
    (ht : (∃ id, t = .name id) ∨ ∃ k, t = .keyword k) : EndsRun continuesWord after := by
  unfold read? at h
  split at h
  · cases h
    rcases ht with ⟨_, ht⟩ | ⟨_, ht⟩ <;> cases ht
  · split at h
    · cases h
    · split at h
      · cases h
        exact EndsRun.dropWhile _ _
      · split at h
        · split at h
          · cases h
          · cases h
            rcases ht with ⟨_, ht⟩ | ⟨_, ht⟩ <;> cases ht
        · obtain ⟨s, -, heq⟩ := Option.map_eq_some_iff.mp h
          cases heq
          rcases ht with ⟨_, ht⟩ | ⟨_, ht⟩ <;> cases ht

end Token

namespace Nesting

open Token (Spells Spaced list?)

variable {cs after sp : List Char} {t : Token} {ts us : List Token}

/-! ### One token -/

theorem Covers.behindNumber {ms : List Mark} (h : Covers (tokenMarks true false ts) ms) :
    Covers (tokenMarks true true ts) ms := by
  cases ts with
  | nil => exact h
  | cons t ts =>
    cases t with
    | keyword k => exact Covers.of_operator h
    | _ => exact h

/-- The scan finds the marks of a token that is no number, if the tokens behind it may be there. -/
theorem marks_spelling (hsp : Spells sp t) (hnumber : t.isNumber = false)
    (hadmits : t.admits us.head? = true)
    (hword : ((∃ id, t = .name id) ∨ ∃ k, t = .keyword k) → EndsRun Token.continuesWord after)
    (hspaced : Spaced after us) : marks ' ' (sp ++ after) = t.marks ++ marks ' ' after := by
  cases ht : t with
  | number n =>
    rw [ht] at hnumber
    cases hnumber
  | text body =>
    subst ht
    cases hsp with
    | text hq hbody => exact marks_text hq hbody
  | name id =>
    rw [marks_word hsp (.inl ⟨id, ht⟩) (hword (.inl ⟨id, ht⟩)), ht]
  | keyword k =>
    rw [marks_word hsp (.inr ⟨k, ht⟩) (hword (.inr ⟨k, ht⟩)), ht]
  | symbol s =>
    subst ht
    cases hsp with
    | symbol =>
      by_cases hs : s = .dot
      · subst hs
        obtain ⟨id, vs, rfl⟩ : ∃ id vs, us = .name id :: vs := by
          cases us with
          | nil => cases hadmits
          | cons u us => cases u with
            | name id => exact ⟨id, us, rfl⟩
            | _ => cases hadmits
        rw [show Symbol.dot.spelling ++ after = '.' :: after from rfl, marks_point,
          hspaced.nameFollows]
        rfl
      · refine marks_symbol hs fun hj => hspaced.detached ?_
        have : Token.admits (.symbol s) us.head? = (!s.joins || us.head?.all Token.begins) := by
          cases s <;> first | rfl | contradiction
        rwa [this, hj, Bool.not_true, Bool.false_or] at hadmits

/-- The scan of a text finds the marks of its first token, if it does of the other ones. -/
theorem covers_cons (hsp : Spells sp t) (hadmits : t.admits us.head? = true)
    (hword : ((∃ id, t = .name id) ∨ ∃ k, t = .keyword k) → EndsRun Token.continuesWord after)
    (hspaced : Spaced after us) (h : Covers (tokenMarks true false us) (marks ' ' after))
    (hbehind : us.head?.all Token.trails = true →
      Covers (tokenMarks true true us) (marks ' ' (after.dropWhile Token.continuesWord))) :
    Covers (tokenMarks true false (t :: us)) (marks ' ' (sp ++ after)) := by
  have hcons : tokenMarks true false (t :: us) = t.marks ++ tokenMarks true t.isNumber us := rfl
  rw [hcons]
  cases hnumber : t.isNumber with
  | false =>
    rw [marks_spelling hsp hnumber hadmits hword hspaced]
    exact h.append_left _
  | true =>
    cases hsp with
    | text | name | keyword | symbol => cases hnumber
    | @number n hn =>
      simp only [Numeral.isWellFormed, Bool.and_eq_true] at hn
      rw [Numeral.spelling_eq, List.append_assoc, List.append_assoc, marks_digits hn.1.1.1,
        marks_fraction hn.1.1.2]
      refine Covers.markIf ?_ _
      cases hx : n.exponent with
      | none => exact h.behindNumber
      | some x =>
        have hwf : x.isWellFormed = true := by simpa [hx] using hn.2
        show Covers _ (marks ' ' (x.spelling ++ after))
        rw [marks_exponent hwf]
        split
        · exact .operator h.behindNumber
        · exact hbehind hadmits

/-- The scan of a text finds the marks of its tokens, but for keywords behind numbers. -/
theorem covers_marks (h : list? cs = some ts) (hj : joined ts = true) :
    Covers (tokenMarks true false ts) (marks ' ' cs) ∧
      (ts.head?.all Token.trails = true →
        Covers (tokenMarks true true ts) (marks ' ' (cs.dropWhile Token.continuesWord))) := by
  have hblanks (cs : List Char) : marks ' ' (cs.dropWhile Token.isBlank) = marks ' ' cs :=
    marks_dropWhile (fun c hc => isSilent_of_isWhite (Token.isWhite_of_isBlank hc)) cs
  have hblank {c : Char} (hc : Token.isBlank c = true) : Token.continuesWord c = false :=
    Token.not_continues_of_isBlank (t := .name "") hc
  fun_induction list? cs generalizing ts with
  | case1 cs hd =>
    cases h
    have hnone : marks ' ' cs = [] := by rw [← hblanks, hd, marks]
    have hrun : EndsRun Token.continuesWord cs := by
      cases cs with
      | nil => exact .nil
      | cons c cs =>
        refine EndsRun.cons_iff.mpr (hblank ?_)
        by_contra hc
        simp [hc] at hd
    rw [hrun.dropWhile_eq, hnone]
    exact ⟨.nil, fun _ => .nil⟩
  | case2 => cases h
  | case3 cs c rest hd t after hr ih =>
    obtain ⟨us, hus, rfl⟩ := Option.map_eq_some_iff.mp h
    obtain ⟨sp, hsplit, hsp⟩ := Token.read?_sound hr
    obtain ⟨hadmits, hjoined⟩ := Bool.and_eq_true_iff.mp hj
    obtain ⟨hfirst, hbehind⟩ := ih hus hjoined
    have hends := Token.endsRun_of_read? hr
    have hcover : Covers (tokenMarks true false (t :: us)) (marks ' ' cs) := by
      rw [← hblanks, hd, hsplit]
      exact covers_cons hsp hadmits hends (Token.spaced_of_list? hus) hfirst hbehind
    refine ⟨hcover, fun htrails => ?_⟩
    by_cases hrun : EndsRun Token.continuesWord cs
    · rw [hrun.dropWhile_eq]
      exact hcover.behindNumber
    · -- the text begins with a keyword, which a number before it hides
      obtain ⟨d, ds, rfl⟩ := List.exists_cons_of_ne_nil (l := cs) (by rintro rfl; exact hrun .nil)
      have hcontinues : Token.continuesWord d = true := by
        by_contra hc
        exact hrun (EndsRun.cons_iff.mpr (by simpa using hc))
      have hvisible : EndsRun Token.isBlank (d :: ds) := by
        refine EndsRun.cons_iff.mpr (Bool.eq_false_iff.mpr fun hb => ?_)
        rw [hblank hb] at hcontinues
        cases hcontinues
      rw [hvisible.dropWhile_eq] at hd
      rw [← hd] at hsplit
      cases hsp with
      | number | text | name => cases htrails
      | symbol s =>
        cases s <;> cases hsplit <;> cases hcontinues
      | keyword k =>
        have hword : k.spelling.toList.all Token.continuesWord = true := by
          cases k <;> rfl
        rw [hsplit, (hends (.inr ⟨k, rfl⟩)).dropWhile_append hword]
        exact hfirst

/-- The bound of a text is at least that of the charge without hidden keywords. -/
theorem charge_bound_le {e : Expr} (h : list? cs = some ts) (hw : Writes ts e) :
    (e.charge true).bound ≤ bound cs := by
  rw [← hw.bound_tokenMarks]
  exact (Scan.Below.run (covers_marks h hw.joined).1 (.refl {})).bound_le

end Nesting

end Reckoner
