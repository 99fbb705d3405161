import Reckoner.Proofs.Grammar.Bodies
import Reckoner.Proofs.Nesting.Adjacency
import Reckoner.Proofs.Nesting.Enclosure

/-!
# Carets as tokens

A reader could also leave the carets where they are, and take one for a power sign where a
token begins (`Token.listCarets?`). It finds the same tokens as in the rewritten text, but for
the carets in quoted texts, unless a caret stands behind a star: `*^` is a star and a power
sign there, and `***` is a power sign and a star. Neither can be joined, so that the two
readers find the same whenever one of them finds tokens of an expression (`alike_list?`).
-/

namespace Reckoner

namespace Token

/-- Reads the token that the text starts with, where a caret is a power sign. -/
def readCaret? : List Char → Option (Token × List Char)
  | '^' :: cs => some (.symbol .power, cs)
  | cs => read? cs

theorem readCaret?_of_ne {c : Char} (hc : c ≠ '^') (cs : List Char) :
    readCaret? (c :: cs) = read? (c :: cs) := by
  unfold readCaret?
  split
  · rename_i heq
    exact absurd (List.cons.inj heq).1 hc
  · rfl

theorem length_lt_of_readCaret? {cs rest : List Char} {t : Token}
    (h : readCaret? cs = some (t, rest)) : rest.length < cs.length := by
  unfold readCaret? at h
  split at h
  · cases h
    exact Nat.lt_succ_self _
  · exact length_lt_of_read? h

/-- The tokens of a text in which a caret is a power sign, if it consists of tokens and blanks. -/
def listCarets? (cs : List Char) : Option (List Token) :=
  match _h : cs.dropWhile isBlank with
  | [] => some []
  | c :: rest =>
    match _hr : readCaret? (c :: rest) with
    | none => none
    | some (t, after) => (listCarets? after).map (t :: ·)
termination_by cs.length
decreasing_by
  have hl := length_lt_of_readCaret? _hr
  have hb := length_dropWhile_le isBlank cs
  rw [_h] at hb
  omega

end Token

/-! ### Runs of characters -/

namespace Text

variable {p : Char → Bool} (h : p '^' = p '*') (cs : List Char)

include h

theorem takeWhile_expandCarets :
    (expandCarets cs).takeWhile p = expandCarets (cs.takeWhile p) := by
  induction cs with
  | nil => rfl
  | cons c cs ih =>
    by_cases hc : c = '^'
    · subst hc
      rw [expandCarets_caret, List.takeWhile_cons, List.takeWhile_cons, List.takeWhile_cons, h, ih]
      split <;> simp
    · rw [expandCarets_cons hc, List.takeWhile_cons, List.takeWhile_cons, ih]
      split
      · rw [expandCarets_cons hc]
      · rfl

theorem dropWhile_expandCarets :
    (expandCarets cs).dropWhile p = expandCarets (cs.dropWhile p) := by
  induction cs with
  | nil => rfl
  | cons c cs ih =>
    by_cases hc : c = '^'
    · subst hc
      rw [expandCarets_caret, List.dropWhile_cons, List.dropWhile_cons, List.dropWhile_cons, h, ih]
      split <;> simp
    · rw [expandCarets_cons hc, List.dropWhile_cons, List.dropWhile_cons, ih]
      split
      · rfl
      · rw [expandCarets_cons hc]

/-- A run without carets is found as it is. -/
theorem takeWhile_expandCarets_of_false (hcaret : p '^' = false) :
    (expandCarets cs).takeWhile p = cs.takeWhile p := by
  rw [takeWhile_expandCarets h, expandCarets_of_notMem]
  intro hmem
  have := List.all_eq_true.mp List.all_takeWhile _ hmem
  rw [hcaret] at this
  cases this

end Text

open Text (expandCarets expandCarets_cons expandCarets_caret)

/-! ### Literals -/

namespace Exponent

theorem readSign_expandCarets (cs : List Char) :
    readSign (expandCarets cs) = ((readSign cs).1, expandCarets (readSign cs).2) := by
  cases cs with
  | nil => rfl
  | cons c cs =>
    by_cases hplus : c = '+'
    · subst hplus
      rfl
    by_cases hminus : c = '-'
    · subst hminus
      rfl
    rw [readSign_of_ne hplus hminus]
    by_cases hc : c = '^'
    · subst hc
      rfl
    · rw [expandCarets_cons hc, readSign_of_ne hplus hminus]

theorem read?_expandCarets (cs : List Char) :
    read? (expandCarets cs) = (read? cs).map fun (x, after) => (x, expandCarets after) := by
  cases cs with
  | nil => rfl
  | cons c cs =>
    by_cases hc : c = '^'
    · subst hc
      rfl
    · simp only [expandCarets_cons hc, read?, readSign_expandCarets,
        Text.takeWhile_expandCarets_of_false (p := Char.isDigit) rfl _ rfl,
        Text.dropWhile_expandCarets (p := Char.isDigit) rfl]
      split
      · cases (readSign cs).2.takeWhile Char.isDigit <;> rfl
      · rfl

end Exponent

namespace Numeral

theorem withExponent_expandCarets (whole : List Char) (fraction : Option (List Char))
    (cs : List Char) :
    withExponent whole fraction (expandCarets cs) =
      ((withExponent whole fraction cs).1, expandCarets (withExponent whole fraction cs).2) := by
  unfold withExponent
  rw [Exponent.read?_expandCarets]
  cases Exponent.read? cs <;> rfl

theorem read?_expandCarets (cs : List Char) :
    read? (expandCarets cs) = (read? cs).map fun (n, after) => (n, expandCarets after) := by
  have htake (cs : List Char) := Text.takeWhile_expandCarets_of_false (p := Char.isDigit) rfl cs rfl
  have hdrop := Text.dropWhile_expandCarets (p := Char.isDigit) rfl
  by_cases hpoint : ∃ after, cs.dropWhile Char.isDigit = '.' :: after
  · obtain ⟨after, hd⟩ := hpoint
    have hd' : (expandCarets cs).dropWhile Char.isDigit = '.' :: expandCarets after := by
      rw [hdrop, hd, expandCarets_cons (by decide)]
    rw [read?_point hd, read?_point hd', htake, htake, hdrop, withExponent_expandCarets]
    split <;> rfl
  · have hd : ∀ after, cs.dropWhile Char.isDigit ≠ '.' :: after :=
      fun after hafter => hpoint ⟨after, hafter⟩
    have hd' : ∀ after, (expandCarets cs).dropWhile Char.isDigit ≠ '.' :: after := by
      intro after hafter
      rw [hdrop] at hafter
      have hafter : expandCarets (cs.dropWhile Char.isDigit) = ['.'] ++ after := hafter
      obtain ⟨ds, hds, -⟩ := Text.exists_of_expandCarets_eq_append hafter (by decide)
      exact hd ds hds
    rw [read?_whole hd, read?_whole hd', htake, hdrop, withExponent_expandCarets]
    split <;> rfl

end Numeral

/-! ### Tokens -/

/-- A star ends a sign of two characters only behind a star. -/
theorem Symbol.ofChars?_star_eq_none {c : Char} (hc : c ≠ '*') : ofChars? c '*' = none := by
  unfold ofChars?
  split <;> simp_all

theorem Symbol.read?_expandCarets {c : Char} {cs : List Char}
    (hstar : c = '*' → cs.head? ≠ some '^') :
    read? (c :: expandCarets cs) =
      (read? (c :: cs)).map fun (s, after) => (s, expandCarets after) := by
  cases cs with
  | nil =>
    simp only [Text.expandCarets_nil, read?]
    cases ofChar? c <;> rfl
  | cons d cs =>
    by_cases hd : d = '^'
    · subst hd
      have hc : c ≠ '*' := fun hc => hstar hc rfl
      simp only [expandCarets_caret, read?, ofChars?_star_eq_none hc,
        ofChars?_eq_none (c := c) (d := '^') (by decide) (by decide)]
      cases ofChar? c <;> rfl
    · simp only [expandCarets_cons hd, read?]
      cases ofChars? c d with
      | some s => rfl
      | none =>
        cases ofChar? c with
        | none => rfl
        | some s => simp only [Option.map_some, expandCarets_cons hd]

namespace Token

theorem mapText_ofWord (f : String → String) (w : List Char) : (ofWord w).mapText f = ofWord w := by
  unfold ofWord
  split <;> rfl

/-- The token that was read and the text behind it, in a text whose carets are rewritten. -/
def rewritten : Token × List Char → Token × List Char :=
  Prod.map (mapText Text.normalize) expandCarets

/-- A token is the same in the rewritten text, but for a caret in place of a sign or behind a
star. -/
theorem read?_expandCarets {c : Char} {cs : List Char} (hc : c ≠ '^')
    (hstar : c = '*' → cs.head? ≠ some '^') :
    read? (expandCarets (c :: cs)) = (read? (c :: cs)).map rewritten := by
  unfold read?
  rw [Numeral.read?_expandCarets]
  cases Numeral.read? (c :: cs) with
  | some result => rfl
  | none =>
    rw [expandCarets_cons hc]
    simp only [Option.map_none]
    by_cases hword : startsWord c = true
    · rw [if_pos hword, if_pos hword,
        Text.takeWhile_expandCarets_of_false (p := continuesWord) (by decide) _ (by decide),
        Text.dropWhile_expandCarets (p := continuesWord) (by decide)]
      simp only [Option.map_some, rewritten, Prod.map, mapText_ofWord]
    rw [if_neg hword, if_neg hword]
    by_cases hquote : isQuote c = true
    · have hneither : decide ('^' ≠ c) = decide ('*' ≠ c) := by
        simp only [isQuote, Bool.or_eq_true, decide_eq_true_eq] at hquote
        rcases hquote with rfl | rfl <;> rfl
      rw [if_pos hquote, if_pos hquote, Text.takeWhile_expandCarets hneither,
        Text.dropWhile_expandCarets hneither]
      have hends := EndsRun.dropWhile (fun d => decide (d ≠ c)) cs
      cases hdrop : cs.dropWhile (fun d => decide (d ≠ c)) with
      | nil => rfl
      | cons d after =>
        rw [hdrop, EndsRun.cons_iff, decide_eq_false_iff_not, not_not] at hends
        subst hends
        rw [expandCarets_cons hc]
        simp only [Option.map_some, rewritten, Prod.map, mapText, Text.normalize,
          String.toList_ofList]
    · rw [if_neg hquote, if_neg hquote, Symbol.read?_expandCarets hstar]
      cases Symbol.read? (c :: cs) <;> rfl

/-- The signs that are made of stars. -/
def isStarred : Token → Bool
  | .symbol .star | .symbol .power => true
  | _ => false

theorem isStarred_iff {t : Token} :
    t.isStarred = true ↔ t = .symbol .star ∨ t = .symbol .power := by
  cases t with
  | symbol s => cases s <;> simp [isStarred]
  | _ => simp [isStarred]

/-- What starts with a star is read as a sign made of stars. -/
theorem exists_read?_star (cs : List Char) :
    ∃ t after, read? ('*' :: cs) = some (t, after) ∧ t.isStarred = true := by
  have hnone : Numeral.read? ('*' :: cs) = none := Numeral.read?_eq_none rfl (by decide)
  have hread : read? ('*' :: cs) =
      (Symbol.read? ('*' :: cs)).map fun (s, after) => (.symbol s, after) := by
    unfold read?
    rw [hnone]
    rfl
  rw [hread]
  cases cs with
  | nil => exact ⟨_, _, rfl, rfl⟩
  | cons d cs =>
    by_cases hd : d = '*'
    · subst hd
      exact ⟨_, _, rfl, rfl⟩
    · have htwo : Symbol.ofChars? '*' d = none := by
        unfold Symbol.ofChars?
        split <;> simp_all
      refine ⟨.symbol .star, d :: cs, ?_, rfl⟩
      simp only [Symbol.read?, htwo]
      rfl

/-- Two such signs cannot stand side by side. -/
theorem joined_starred {t u : Token} (ht : t.isStarred = true) (hu : u.isStarred = true)
    (us : List Token) : joined (t :: u :: us) = false := by
  rcases isStarred_iff.mp ht with rfl | rfl <;> rcases isStarred_iff.mp hu with rfl | rfl <;> rfl

/-! ### The stream -/

/-- The first token comes after the blanks, and the others are those of what is left. -/
theorem listCarets?_cons {cs after : List Char} {t : Token}
    (h : readCaret? (cs.dropWhile isBlank) = some (t, after)) :
    listCarets? cs = (listCarets? after).map (t :: ·) := by
  rw [listCarets?]
  split
  · rename_i hd
    rw [hd] at h
    cases h
  · rename_i hd
    rw [hd] at h
    split <;> simp_all

theorem unjoined_of_starred {t u : Token} (ht : t.isStarred = true) (hu : u.isStarred = true)
    (us : Option (List Token)) {ts : List Token} (h : ts ∈ (us.map (u :: ·)).map (t :: ·)) :
    joined ts = false := by
  obtain ⟨_, hts, rfl⟩ := Option.map_eq_some_iff.mp h
  obtain ⟨us, -, rfl⟩ := Option.map_eq_some_iff.mp hts
  exact joined_starred ht hu us

/-- Two lists of tokens are the same but for the carets in quoted texts, or neither of them can
be joined. -/
def Alike (us ts : Option (List Token)) : Prop :=
  us = ts.map (List.map (mapText Text.normalize)) ∨
    (∀ u ∈ us, joined u = false) ∧ ∀ t ∈ ts, joined t = false

theorem joined_cons_eq_false {t : Token} {ts : List Token} (h : joined ts = false) :
    joined (t :: ts) = false := by
  rw [joined, h, Bool.and_false]

theorem Alike.cons {us ts : Option (List Token)} (h : Alike us ts) (t : Token) :
    Alike (us.map (t.mapText Text.normalize :: ·)) (ts.map (t :: ·)) := by
  rcases h with rfl | ⟨hus, hts⟩
  · left
    cases ts <;> rfl
  · right
    simp only [Option.mem_def, Option.map_eq_some_iff] at hus hts ⊢
    constructor
    · rintro _ ⟨u, hu, rfl⟩
      exact joined_cons_eq_false (hus u hu)
    · rintro _ ⟨u, hu, rfl⟩
      exact joined_cons_eq_false (hts u hu)

theorem alike_list? (cs : List Char) : Alike (list? (expandCarets cs)) (listCarets? cs) := by
  have hblanks {cs : List Char} {c : Char} {rest : List Char}
      (hd : cs.dropWhile isBlank = c :: rest) :
      (expandCarets cs).dropWhile isBlank = expandCarets (c :: rest) := by
    rw [Text.dropWhile_expandCarets (p := isBlank) rfl, hd]
  -- along the tokens of the text as it is; the rewritten text is read beside it
  fun_induction listCarets? cs with
  | case1 cs hd =>
    refine .inl (list?_blank ?_)
    rw [Text.dropWhile_expandCarets (p := isBlank) rfl, hd]
    rfl
  | case2 cs c rest hd hr =>
    have hc : c ≠ '^' := by
      rintro rfl
      cases hr
    have hstar : c ≠ '*' := by
      rintro rfl
      obtain ⟨t, after, ht, -⟩ := exists_read?_star rest
      rw [readCaret?_of_ne hc, ht] at hr
      cases hr
    rw [readCaret?_of_ne hc] at hr
    refine .inl (list?_none ?_ ?_)
    · rw [hblanks hd, expandCarets_cons hc]
      exact List.cons_ne_nil _ _
    · rw [hblanks hd, read?_expandCarets hc fun h => (hstar h).elim, hr]
      rfl
  | case3 cs c rest hd t after hr ih =>
    by_cases hc : c = '^'
    · subst hc
      cases hr
      rw [list?_cons ((congrArg read? (hblanks hd)).trans rfl)]
      exact ih.cons (.symbol .power)
    rw [readCaret?_of_ne hc] at hr
    by_cases hstar : c = '*' → rest.head? ≠ some '^'
    · have hread := read?_expandCarets hc hstar
      rw [hr] at hread
      rw [list?_cons ((congrArg read? (hblanks hd)).trans hread)]
      exact ih.cons t
    · -- a star and a power sign are read in the one text, a power sign and a star in the other
      obtain ⟨rfl, hcaret⟩ := Classical.not_imp.mp hstar
      obtain ⟨ds, rfl⟩ := List.head?_eq_some_iff.mp (not_not.mp hcaret)
      cases hr
      obtain ⟨u, after, hu, hstarred⟩ := exists_read?_star (expandCarets ds)
      have hrewritten : list? (expandCarets cs) =
          (list? ('*' :: expandCarets ds)).map (.symbol .power :: ·) :=
        list?_cons ((congrArg read? (hblanks hd)).trans rfl)
      have hbehind : list? ('*' :: expandCarets ds) = (list? after).map (u :: ·) := list?_cons hu
      have hcaret : listCarets? ('^' :: ds) = (listCarets? ds).map (.symbol .power :: ·) :=
        listCarets?_cons rfl
      rw [hrewritten, hbehind, hcaret]
      exact .inr ⟨fun _ => unjoined_of_starred rfl hstarred _,
        fun _ => unjoined_of_starred rfl rfl _⟩

end Token

/-! ### Three stars -/

/-- Of two ways to split a text, one has the character that begins the second part of the other. -/
theorem exists_of_append_cons {pre post bs cs : List α} {c : α}
    (h : pre ++ c :: post = bs ++ cs) :
    (∃ w, pre = bs ++ w ∧ cs = w ++ c :: post) ∨ ∃ w, bs = pre ++ c :: w := by
  rcases List.append_eq_append_iff.mp h with ⟨ds, rfl, hds⟩ | ⟨ds, rfl, hds⟩
  · cases ds with
    | nil => exact .inl ⟨[], by simp, hds.symm⟩
    | cons d ds =>
      obtain ⟨rfl, -⟩ := List.cons.inj hds
      exact .inr ⟨ds, rfl⟩
  · exact .inl ⟨ds, rfl, hds⟩

/-- In a quoted text its quote stays open up to the last character. -/
theorem Nesting.openQuote_ne_none {q c : Char} {body pre post : List Char}
    (hq : Token.isQuote q = true) (hbody : q ∉ body) (hpre : pre ≠ [])
    (h : q :: (body ++ [q]) = pre ++ c :: post) : openQuote none pre ≠ none := by
  obtain ⟨d, pre, rfl⟩ := List.exists_cons_of_ne_nil hpre
  obtain ⟨rfl, hrest⟩ := List.cons.inj h
  have hnotMem : q ∉ pre := by
    rcases exists_of_append_cons hrest.symm with ⟨w, rfl, hw⟩ | ⟨w, rfl⟩
    · cases w with
      | nil => rwa [List.append_nil]
      | cons d w => simp at hw
    · exact fun hmem => hbody (List.mem_append_left _ hmem)
  rw [openQuote_cons, quoteStep, hq, if_pos rfl, openQuote_of_notMem hnotMem]
  exact Option.some_ne_none q

namespace Token

theorem not_all_isBlank {bs pre post : List Char} (h : bs = pre ++ '*' :: post) :
    ¬ bs.all isBlank = true := by
  subst h
  simp [isBlank]

/-- A token other than a quoted text is made of stars if it has one. -/
theorem Spells.isStarred {sp : List Char} {t : Token} (h : Spells sp t) (htext : t.isText = false)
    (hstar : '*' ∈ sp) : t.isStarred = true := by
  rw [isStarred_iff]
  by_contra hnot
  obtain ⟨hs, hp⟩ := not_or.mp hnot
  exact h.star_notMem htext hs hp hstar

theorem Spells.isStarred_of_head? {sp : List Char} {t : Token} (h : Spells sp t)
    (hstar : sp.head? = some '*') : t.isStarred = true := by
  refine h.isStarred ?_ (List.mem_of_mem_head? hstar)
  cases h with
  | text hq hbody =>
    obtain rfl := Option.some.inj hstar
    cases hq
  | _ => rfl

theorem Spells.length_le_two {sp : List Char} {t : Token} (h : Spells sp t)
    (ht : t.isStarred = true) : sp.length ≤ 2 := by
  rcases isStarred_iff.mp ht with rfl | rfl <;>
  · cases h
    decide

/-- What starts with a star has a sign made of stars for its first token. -/
theorem Spaced.exists_starred {cs : List Char} {ts : List Token} (h : Spaced ('*' :: cs) ts) :
    ∃ t us, ts = t :: us ∧ t.isStarred = true := by
  generalize hcs : '*' :: cs = ds at h
  cases h with
  | blank hbs => exact (not_all_isBlank (hcs.symm.trans (List.nil_append _).symm) hbs).elim
  | @cons bs sp rest t ts hbs hsp _ =>
    refine ⟨t, ts, rfl, hsp.isStarred_of_head? ?_⟩
    rcases exists_of_append_cons ((List.nil_append _).trans hcs) with ⟨w, hw, hsplit⟩ | ⟨w, hw⟩
    · obtain ⟨rfl, rfl⟩ := List.append_eq_nil_iff.mp hw.symm
      obtain ⟨c, cs, rfl, -⟩ := hsp.exists_cons
      exact congrArg some (List.cons.inj hsplit).1
    · exact (not_all_isBlank hw hbs).elim

/-- Three stars that are not in a quoted text are in tokens that cannot be joined. -/
theorem Spaced.joined_eq_false {pre post : List Char} {ts : List Token}
    (h : Spaced (pre ++ '*' :: '*' :: '*' :: post) ts) (hpre : Nesting.openQuote none pre = none) :
    joined ts = false := by
  generalize hcs : pre ++ '*' :: '*' :: '*' :: post = cs at h
  induction h generalizing pre with
  | blank hbs => exact (not_all_isBlank hcs.symm hbs).elim
  | @cons bs sp rest t ts hbs hsp hrest ih =>
    rcases exists_of_append_cons hcs with ⟨w, rfl, hw⟩ | ⟨w, hw⟩
    · rw [Nesting.openQuote_append, Nesting.openQuote_of_spaced (.blank hbs)] at hpre
      rcases exists_of_append_cons hw.symm with ⟨v, rfl, hv⟩ | ⟨v, hv⟩
      · -- the stars begin behind the token
        rw [Nesting.openQuote_append, Nesting.openQuote_spells hsp] at hpre
        exact joined_cons_eq_false (ih hpre hv.symm)
      · -- they begin in the token, which has two of them at most
        have htext : t.isText = false := by
          cases hsp with
          | text hq hbody =>
            refine (Nesting.openQuote_ne_none hq hbody ?_ hv hpre).elim
            rintro rfl
            obtain rfl := (List.cons.inj hv).1
            cases hq
          | _ => rfl
        have ht := hsp.isStarred htext (by simp [hv])
        have hlength := hsp.length_le_two ht
        obtain ⟨ds, rfl⟩ : ∃ ds, rest = '*' :: ds := by
          have hrest : v ++ rest = '*' :: '*' :: post := by
            rw [hv, List.append_assoc] at hw
            exact (List.cons.inj (List.append_cancel_left hw)).2
          rw [hv, List.length_append, List.length_cons] at hlength
          match v with
          | [] => exact ⟨_, hrest⟩
          | [_] => exact ⟨_, (List.cons.inj hrest).2⟩
          | _ :: _ :: _ =>
            simp only [List.length_cons] at hlength
            omega
        obtain ⟨u, us, rfl, hu⟩ := hrest.exists_starred
        exact joined_starred ht hu us
    · exact (not_all_isBlank hw hbs).elim

end Token

end Reckoner
