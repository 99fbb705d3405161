import Reckoner.Proofs.Expr.Acceptance
import Reckoner.Proofs.Expr.Texts
import Reckoner.Proofs.Nesting.Findings
import Reckoner.Proofs.Token.Carets
import Reckoner.Proofs.Token.Front

/-!
# What stands in quotes

A quote that no other quote encloses begins a token of every text that consists of tokens,
and this token ends at the next quote like it (`Token.Laid.exists_text`). Another text between
the two quotes gives a layout that is the same but for the body of this token
(`Placed.SameButText`). So the scan finds the same marks, the tree is the same but for one
body, and evaluation does not look at it.
-/

namespace Reckoner

open Nesting (openQuote)

/-! ### The same but for the bodies -/

namespace Token

variable {t u : Token}

theorem mapText_mapText {f g : String → String} (t : Token) :
    (t.mapText f).mapText g = t.mapText (g ∘ f) := by
  cases t <;> rfl

/-- Without their bodies two tokens are the same only if they are the same or are both texts. -/
theorem eq_or_of_mapText_eq (h : t.mapText (fun _ => "") = u.mapText fun _ => "") :
    t = u ∨ ∃ a b, t = .text a ∧ u = .text b := by
  cases t with
  | text a => cases u <;> first | exact .inr ⟨_, _, rfl, rfl⟩ | cases h
  | _ => cases u <;> first | exact .inl h | cases h

theorem strays_congr {next next' : Option Token}
    (h : next.any isKeyword = next'.any isKeyword) (t : Token) :
    t.strays next = t.strays next' := by
  cases t <;> first | rfl | rw [strays, strays, Numeral.strays, Numeral.strays, h]

end Token

namespace Placed

/-- The same token behind the same gap, but perhaps another body if it is a quoted text. -/
structure SameButText (p q : Placed) : Prop where
  gap : p.gap = q.gap
  token : p.token.mapText (fun _ => "") = q.token.mapText fun _ => ""

theorem SameButText.refl (p : Placed) : p.SameButText p := ⟨rfl, rfl⟩

variable {ps qs : List Placed} (h : List.Forall₂ SameButText ps qs)

include h

theorem map_mapText_eq : (ps.map token).map (Token.mapText fun _ => "")
    = (qs.map token).map (Token.mapText fun _ => "") := by
  induction h with
  | nil => rfl
  | cons hpq _ ih => simp only [List.map_cons, hpq.token, ih]

/-- The scan finds the same. -/
theorem found_eq (swallowed : Bool) (next : Option Token) :
    found swallowed next ps = found swallowed next qs := by
  induction h generalizing swallowed with
  | nil => rfl
  | @cons p q ps qs hpq hrest ih =>
    obtain ⟨hgap, htoken⟩ := hpq
    have hkeyword : ((ps.head?.map token).or next).any Token.isKeyword
        = ((qs.head?.map token).or next).any Token.isKeyword := by
      cases hrest with
      | nil => rfl
      | @cons p q _ _ hpq _ =>
        show p.token.isKeyword = q.token.isKeyword
        obtain heq | ⟨a, b, ha, hb⟩ := Token.eq_or_of_mapText_eq hpq.token
        · rw [heq]
        · rw [ha, hb]
          rfl
    rw [found, found, ih, Token.strays_congr hkeyword]
    obtain heq | ⟨a, b, ha, hb⟩ := Token.eq_or_of_mapText_eq htoken
    · rw [isHidden, isHidden, hgap, heq]
    · rw [isHidden, isHidden, hgap, ha, hb]
      rfl

end Placed

open Placed (SameButText)

section

variable {cs ds : List Char} {ps qs : List Placed} {e : Expr}

/-- A text that is the same but for the bodies of quoted texts says a tree that is the same but for
them, and the scan finds the same in it. -/
theorem Says.of_sameButText (hps : Token.Laid cs ps) (hqs : Token.Laid ds qs)
    (h : List.Forall₂ SameButText ps qs) (hsaid : Says cs (ps.map Placed.token) e) :
    Nesting.marks ' ' ds = Nesting.marks ' ' cs ∧
      ∃ d, Says ds (qs.map Placed.token) d ∧
        d.mapTexts (fun _ => "") = e.mapTexts fun _ => "" := by
  have htokens := Placed.map_mapText_eq h
  have hparse := Grammar.parse?_map_mapText (f := fun _ => "") (ps.map Placed.token)
  rw [hsaid.parse?_eq, htokens, Grammar.parse?_map_mapText] at hparse
  obtain ⟨d, hd, hsame⟩ := Option.map_eq_some_iff.mp hparse
  have hfinite : Token.firstLarge? (qs.map Placed.token) = none := by
    rw [← Token.firstLarge?_map_mapText, ← htokens, Token.firstLarge?_map_mapText,
      hsaid.firstLarge?_eq_none]
  have hsaid' : Says ds (qs.map Placed.token) d := .of_parse? hqs.list?_eq hd hfinite
  refine ⟨?_, d, hsaid', hsame⟩
  rw [(Nesting.marks_laid hqs hsaid'.writes.joined).1,
    (Nesting.marks_laid hps hsaid.writes.joined).1, Placed.found_eq h]

end

/-! ### Where a quoted text stands -/

namespace Token.Laid

variable {cs pre body post : List Char} {q : Char} {qs rs ps : List Placed}

/-- No quote is open behind some of the tokens of a text. -/
theorem openQuote_text {rest : List Char} (h : Laid (Placed.text qs ++ rest) (qs ++ rs)) :
    openQuote none (Placed.text qs) = none := by
  have hfront := h.exchange .nil (.blank List.all_nil)
  rw [List.append_nil, List.append_nil] at hfront
  exact Nesting.openQuote_of_list? hfront.list?_eq

/-- A quote that no other encloses stands at the beginning of a token. -/
theorem not_splits_of_openQuote (h : Laid (pre ++ q :: post) ps) (hpre : openQuote none pre = none)
    (hq : isQuote q = true) : ¬ Splits pre ps := by
  rintro ⟨qs, p, rs, front, back, rfl, hsplit, hfront, hback, rfl⟩
  rw [List.append_assoc, List.append_assoc] at h
  have hopen := h.openQuote_text
  obtain ⟨rest, hrest, hlaid⟩ := h.exists_append
  rw [← List.append_cancel_left hrest] at hlaid
  generalize hcs : p.gap ++ (front ++ q :: post) = cs at hlaid
  cases hlaid with
  | @cons _ behind _ hgap hread _ =>
    have hsp := spells_of_read? hread
    have hback' : q :: post = back ++ behind := by
      rw [hsplit, List.append_assoc] at hcs
      exact List.append_cancel_left (List.append_cancel_left hcs)
    obtain ⟨c, back, rfl⟩ := List.exists_cons_of_ne_nil hback
    obtain ⟨rfl, -⟩ := List.cons.inj hback'
    rw [Nesting.openQuote_append, hopen, Nesting.openQuote_append,
      Nesting.openQuote_of_spaced (.blank hgap)] at hpre
    cases ht : p.token.isText with
    | false =>
      have := Nesting.not_isQuote_of_spells hsp ht (c := q) (by simp [hsplit])
      rw [hq] at this
      cases this
    | true =>
      generalize p.token = t, p.spelling = sp at hsp hsplit ht
      cases hsp with
      | text hd hbody => exact Nesting.openQuote_ne_none hd hbody hfront hsplit hpre
      | _ => cases ht

/-- **A quote that no other encloses** begins a quoted text, which ends at the next quote like
it. -/
theorem exists_text (h : Laid cs ps) (hcs : cs = pre ++ q :: (body ++ q :: post))
    (hpre : openQuote none pre = none) (hq : isQuote q = true) (hbody : q ∉ body) :
    ∃ qs gap rs, ps = qs ++ ⟨gap, q :: (body ++ [q]), .text (String.ofList body)⟩ :: rs ∧
      pre = Placed.text qs ++ gap ∧ gap.all isBlank = true ∧ Laid post rs := by
  subst hcs
  obtain ⟨qs, rs, bs, rfl, rfl, hbs⟩ :=
    h.exists_of_not_splits rfl (h.not_splits_of_openQuote hpre hq)
  rw [List.append_assoc] at h
  obtain ⟨rest, hrest, hlaid⟩ := h.exists_append
  rw [← List.append_cancel_left hrest] at hlaid
  have hvisible : isBlank q = false := by
    simp only [isQuote, Bool.or_eq_true, decide_eq_true_eq] at hq
    rcases hq with rfl | rfl <;> rfl
  generalize hcs : bs ++ q :: (body ++ q :: post) = cs at hlaid
  cases hlaid with
  | blank hall =>
    rw [← hcs, List.all_append, List.all_cons, hvisible, Bool.false_and, Bool.and_false] at hall
    cases hall
  | @cons p behind rs hgap hread hlaid =>
    obtain ⟨gap, sp, t⟩ := p
    dsimp only at hgap hread hcs
    obtain ⟨c, w, hsp, hc, -⟩ := (spells_of_read? hread).exists_cons
    have hends : EndsRun isBlank (sp ++ behind) := by
      rw [hsp]
      exact EndsRun.cons_iff.mpr (not_isBlank_of_toNat hc)
    have htoken : q :: (body ++ q :: post) = sp ++ behind := by
      have := congrArg (List.dropWhile isBlank) hcs
      rwa [hends.dropWhile_append hgap,
        (EndsRun.cons_iff.mpr hvisible).dropWhile_append hbs] at this
    rw [htoken] at hcs
    have hread' := read?_text post hq hbody
    rw [List.cons_append, List.append_assoc, List.singleton_append, htoken, hread] at hread'
    cases hread'
    have hclosed : q :: (body ++ [q]) ++ post = sp ++ post := by
      rw [← htoken]
      simp
    have hspelling : q :: (body ++ [q]) = sp := List.append_cancel_right hclosed
    subst hspelling
    obtain rfl := List.append_cancel_right hcs
    exact ⟨qs, bs, rs, rfl, rfl, hbs, hlaid⟩

/-- Another text between the quotes changes the body of the token. -/
theorem replace_text {gap body' : List Char}
    (h : Laid (Placed.text qs ++ (gap ++ (q :: (body ++ q :: post))))
      (qs ++ ⟨gap, q :: (body ++ [q]), .text (String.ofList body)⟩ :: rs))
    (hgap : gap.all isBlank = true) (hpost : Laid post rs) (hq : isQuote q = true)
    (hbody' : q ∉ body') :
    Laid (Placed.text qs ++ (gap ++ (q :: (body' ++ q :: post))))
      (qs ++ ⟨gap, q :: (body' ++ [q]), .text (String.ofList body')⟩ :: rs) := by
  have hends : EndsRun mayContinue (gap ++ (q :: (body' ++ q :: post))) := by
    cases gap with
    | nil => exact EndsRun.cons_iff.mpr (not_mayContinue_of_isQuote hq)
    | cons b gap =>
      exact EndsRun.cons_iff.mpr (not_mayContinue_of_isBlank (Bool.and_eq_true_iff.mp hgap).1)
  refine h.exchange hends ?_
  have hread := read?_text post hq hbody'
  have := Laid.cons (p := ⟨gap, q :: (body' ++ [q]), .text (String.ofList body')⟩) hgap hread hpost
  simpa using this

/-! Carets stand in quoted texts only, if the text as it is consists of tokens. -/

theorem ne_caret_of_read? {c : Char} {t : Token} (h : read? (c :: cs) = some (t, post)) :
    c ≠ '^' := by
  rintro rfl
  have hnone : Numeral.read? ('^' :: cs) = none := Numeral.read?_eq_none rfl (by decide)
  unfold read? at h
  rw [hnone] at h
  cases cs <;> cases h

theorem head?_ne_caret (h : Laid cs ps) : cs.head? ≠ some '^' := by
  have hblank {b : Char} {bs : List Char} (hbs : (b :: bs).all isBlank = true) : b ≠ '^' := by
    rintro rfl
    cases (Bool.and_eq_true_iff.mp hbs).1
  cases h with
  | blank hbs =>
    cases cs with
    | nil => exact nofun
    | cons b bs => exact fun hb => hblank hbs (Option.some.inj hb)
  | @cons p cs ps hgap hread _ =>
    obtain ⟨c, sp, hsp, -⟩ := (spells_of_read? hread).exists_cons
    rw [hsp] at hread ⊢
    cases hg : p.gap with
    | nil => exact fun hc => ne_caret_of_read? hread (Option.some.inj hc)
    | cons b bs => exact fun hb => hblank (hg ▸ hgap) (Option.some.inj hb)

/-- Rewriting the carets changes the bodies of quoted texts and nothing else. -/
theorem exists_expandCarets (h : Laid cs ps) :
    ∃ qs, Laid (Text.expandCarets cs) qs ∧ List.Forall₂ SameButText ps qs := by
  have hkept {bs : List Char} (hbs : bs.all isBlank = true) : Text.expandCarets bs = bs := by
    refine Text.expandCarets_of_notMem fun hmem => ?_
    cases List.all_eq_true.mp hbs _ hmem
  induction h with
  | blank hbs => exact ⟨[], (hkept hbs).symm ▸ .blank hbs, .nil⟩
  | @cons p cs ps hgap hread rest ih =>
    obtain ⟨qs, hqs, hsame⟩ := ih
    have hspells := spells_of_read? hread
    obtain ⟨c, sp, hsp, -⟩ := hspells.exists_cons
    have hc : c ≠ '^' := by
      rw [hsp] at hread
      exact ne_caret_of_read? hread
    have hstar : c = '*' → (sp ++ cs).head? ≠ some '^' := by
      rintro rfl
      have hstarred := hspells.isStarred_of_head? (by rw [hsp]; rfl)
      generalize p.token = t, p.spelling = w at hspells hsp hstarred
      rcases isStarred_iff.mp hstarred with rfl | rfl
      · cases hspells
        cases hsp
        exact rest.head?_ne_caret
      · cases hspells
        cases hsp
        exact nofun
    have hread' := read?_expandCarets hc hstar
    rw [← List.cons_append, ← hsp, hread, Text.expandCarets_append] at hread'
    let q : Placed := ⟨p.gap, Text.expandCarets p.spelling, p.token.mapText Text.normalize⟩
    refine ⟨q :: qs, ?_, ?_⟩
    · rw [Text.expandCarets_append, Text.expandCarets_append, hkept hgap]
      exact .cons (p := q) hgap hread' hqs
    · refine .cons ⟨rfl, ?_⟩ hsame
      exact (mapText_mapText (f := Text.normalize) (g := fun _ => "") p.token).symm

end Token.Laid

/-! ### Reading and evaluating -/

/-- Expressions that are the same but for the bodies of quoted texts have the same value. -/
theorem Expr.evaluate_eq_of_mapTexts_eq {d e : Expr}
    (h : d.mapTexts (fun _ => "") = e.mapTexts fun _ => "") (p : Policy) (m : Mode) :
    d.evaluate p m = e.evaluate p m := by
  rw [← d.evaluate_mapTexts, h, e.evaluate_mapTexts]

theorem Expr.depth_eq_of_mapTexts_eq {d e : Expr}
    (h : d.mapTexts (fun _ => "") = e.mapTexts fun _ => "") : d.depth = e.depth := by
  rw [← d.depth_mapTexts, h, e.depth_mapTexts]

/-- A text that is read as it is has the value of its tree, though a policy rewrites carets. -/
theorem Policy.evaluate_of_parse_as_is {p : Policy} {text : String} {e : Expr}
    (h : Expr.parse p.maxDepth text = .ok e) (hlength : text.length ≤ p.maxLength) (m : Mode) :
    p.evaluate m text = e.evaluate p m := by
  obtain ⟨ts, hsaid, hbound, hdepth⟩ := Expr.parse_eq_ok_iff.mp h
  obtain ⟨ps, hlaid, rfl⟩ := Token.exists_laid hsaid.tokens
  obtain ⟨qs, hqs, hsame⟩ := hlaid.exists_expandCarets
  obtain ⟨hmarks, d, hsaid', hblank⟩ := hsaid.of_sameButText hlaid hqs hsame
  have hparse : p.parse text = .ok d := by
    refine parse_eq_ok_iff.mpr ⟨hlength, _, hsaid', ?_, ?_⟩
    · rwa [Nesting.bound, hmarks]
    · rwa [Expr.depth_eq_of_mapTexts_eq hblank]
  unfold evaluate
  rw [hparse]
  exact Expr.evaluate_eq_of_mapTexts_eq hblank p m

/-- **What stands in quotes decides nothing.** Another text between two quotes that match, without
such a quote in it, leaves a text readable under the same limit; the scan finds the same marks, and
the tree is the same but for this one body, which stands in the same place among the others. Under
every policy with this limit that admits the lengths, the two texts have the same value or the same
refusal, in both modes. -/
theorem quoted_text_inert {limit : Nat} {text : String} {e : Expr} {q : Char}
    {pre body post : List Char} (hread : Expr.parse limit text = .ok e)
    (htext : text.toList = pre ++ q :: (body ++ q :: post)) (hpre : openQuote none pre = none)
    (hq : Token.isQuote q = true) (hbody : q ∉ body) :
    ∃ before after, e.texts = before ++ String.ofList body :: after ∧
      ∀ (text' : String) (body' : List Char), q ∉ body' →
        text'.toList = pre ++ q :: (body' ++ q :: post) →
        Nesting.marks ' ' text'.toList = Nesting.marks ' ' text.toList ∧
        (∃ d, Expr.parse limit text' = .ok d ∧
          d.mapTexts (fun _ => "") = e.mapTexts (fun _ => "") ∧
          d.texts = before ++ String.ofList body' :: after) ∧
        ∀ (p : Policy) (m : Mode), p.maxDepth = limit → text.length ≤ p.maxLength →
          text'.length ≤ p.maxLength → p.evaluate m text' = p.evaluate m text := by
  obtain ⟨ts, hsaid, hbound, hdepth⟩ := Expr.parse_eq_ok_iff.mp hread
  obtain ⟨ps, hlaid, rfl⟩ := Token.exists_laid hsaid.tokens
  obtain ⟨qs, gap, rs, rfl, rfl, hgap, hpost⟩ := hlaid.exists_text htext hpre hq hbody
  have htokens (b : List Char) :
      (qs ++ ⟨gap, q :: (b ++ [q]), .text (String.ofList b)⟩ :: rs).map Placed.token
        = qs.map Placed.token ++ .text (String.ofList b) :: rs.map Placed.token := by
    simp
  have hparse := hsaid.parse?_eq
  rw [htokens] at hparse
  obtain ⟨before, after, htexts, hfill⟩ := Grammar.exists_texts hparse
  refine ⟨before, after, htexts, fun text' body' hbody' htext' => ?_⟩
  have hlaid' : Token.Laid text'.toList
      (qs ++ ⟨gap, q :: (body' ++ [q]), .text (String.ofList body')⟩ :: rs) := by
    rw [htext, List.append_assoc] at hlaid
    rw [htext', List.append_assoc]
    exact hlaid.replace_text hgap hpost hq hbody'
  have hsame : List.Forall₂ SameButText
      (qs ++ ⟨gap, q :: (body ++ [q]), .text (String.ofList body)⟩ :: rs)
      (qs ++ ⟨gap, q :: (body' ++ [q]), .text (String.ofList body')⟩ :: rs) :=
    List.rel_append (List.forall₂_same.mpr fun p _ => .refl p)
      (.cons ⟨rfl, rfl⟩ (List.forall₂_same.mpr fun p _ => .refl p))
  obtain ⟨hmarks, d, hsaid', hblank⟩ := hsaid.of_sameButText hlaid hlaid' hsame
  have hread' : Expr.parse limit text' = .ok d := by
    refine Expr.parse_eq_ok_iff.mpr ⟨_, hsaid', ?_, ?_⟩
    · rwa [Nesting.bound, hmarks]
    · rwa [Expr.depth_eq_of_mapTexts_eq hblank]
  refine ⟨hmarks, ⟨d, hread', hblank, hfill (htokens body' ▸ hsaid'.parse?_eq)⟩, ?_⟩
  rintro p m rfl hlength hlength'
  rw [Policy.evaluate_of_parse_as_is hread hlength, Policy.evaluate_of_parse_as_is hread' hlength',
    Expr.evaluate_eq_of_mapTexts_eq hblank]

/-- Brackets, a caret and the other quote in place of a bracket. -/
theorem quoted_text_inert_brackets :
    Expr.parse 2 "f('(')" = .ok (.call (.name "f") [.text "("] []) ∧
      Nesting.marks ' ' "f(')]^\"')".toList = Nesting.marks ' ' "f('(')".toList ∧
        Policy.evaluate { maxDepth := 2 } .basic "f(')]^\"')" =
          Policy.evaluate { maxDepth := 2 } .basic "f('(')" := by
  have hsaid : Says "f('(')".toList
      [.name "f", .symbol .openParen, .text "(", .symbol .closeParen]
      (.call (.name "f") [.text "("] []) :=
    .of_parse? (by decide +kernel) rfl rfl
  have hread : Expr.parse 2 "f('(')" = .ok (.call (.name "f") [.text "("] []) :=
    Expr.parse_eq_ok_iff.mpr ⟨_, hsaid, by decide +kernel, by decide +kernel⟩
  have htext : "f('(')".toList = ['f', '('] ++ '\'' :: (['('] ++ '\'' :: [')']) := by
    decide +kernel
  have htext' : "f(')]^\"')".toList
      = ['f', '('] ++ '\'' :: ([')', ']', '^', '"'] ++ '\'' :: [')']) := by
    decide +kernel
  obtain ⟨before, after, -, hother⟩ := quoted_text_inert hread htext rfl rfl (by decide)
  obtain ⟨hmarks, -, hevaluate⟩ := hother "f(')]^\"')" [')', ']', '^', '"'] (by decide) htext'
  exact ⟨hread, hmarks, hevaluate _ _ rfl (by decide +kernel) (by decide +kernel)⟩

end Reckoner
