import Reckoner.Proofs.Expr.Shape
import Reckoner.Proofs.Token.Numerals
import Reckoner.Text.White
import Reckoner.Token.Stream
import Mathlib.Data.List.Forall2

/-!
# Spelling tokens

`Spells cs t` says that the characters spell the token: a text may stand between either
quote that it lacks, and a number is spelled as it was read. What is read is spelled by
the characters that were read, and a spelling is read as its token if no character
follows that the token could go on with. So a text is read as the tokens `ts` only if
it consists of their spellings and of blanks (`Spaced`), and spellings with single
blanks between them are read as their tokens.
-/

namespace Reckoner

namespace Symbol

theorem read?_sound {cs rest : List Char} {s : Symbol} (h : read? cs = some (s, rest)) :
    cs = s.spelling ++ rest := by
  have hone {c : Char} {s : Symbol} (h : ofChar? c = some s) : s.spelling = [c] := by
    unfold ofChar? at h
    split at h <;> cases h <;> rfl
  unfold read? at h
  split at h
  · split at h
    · rename_i c d cs s' hs
      cases h
      unfold ofChars? at hs
      split at hs <;> cases hs <;> rfl
    · obtain ⟨s', hs, heq⟩ := Option.map_eq_some_iff.mp h
      cases heq
      rw [hone hs]
      rfl
  · obtain ⟨s', hs, heq⟩ := Option.map_eq_some_iff.mp h
    cases heq
    rw [hone hs]
    rfl
  · cases h

theorem ofChars?_eq_none {c d : Char} (hstar : d ≠ '*') (hequal : d ≠ '=') :
    ofChars? c d = none := by
  unfold ofChars?
  split <;> first | rfl | contradiction

/-- A sign of one character is read alone if no second character of a sign follows. -/
theorem read?_spelling {s : Symbol} {rest : List Char}
    (hrest : EndsRun (fun c => c = '*' || c = '=') rest) :
    read? (s.spelling ++ rest) = some (s, rest) := by
  cases rest with
  | nil => cases s <;> rfl
  | cons c cs =>
    have hc := EndsRun.cons_iff.mp hrest
    simp only [Bool.or_eq_false_iff, decide_eq_false_iff_not] at hc
    have htwo (b : Char) : ofChars? b c = none := ofChars?_eq_none hc.1 hc.2
    cases s <;> first | rfl | simp [spelling, read?, htwo, ofChar?]

end Symbol

namespace Token

/-- The characters spell the token. -/
inductive Spells : List Char → Token → Prop
  | number {n : Numeral} (h : n.isWellFormed = true) : Spells n.spelling (.number n)
  | text {q : Char} {body : List Char} (hq : isQuote q = true) (hbody : q ∉ body) :
      Spells (q :: (body ++ [q])) (.text (String.ofList body))
  | name {id : String} (h : isName id = true) : Spells id.toList (.name id)
  | keyword (k : Keyword) : Spells k.spelling.toList (.keyword k)
  | symbol (s : Symbol) : Spells s.spelling (.symbol s)

theorem Spells.isWellFormed {sp : List Char} {n : Numeral} (h : Spells sp (.number n)) :
    n.isWellFormed = true := by
  cases h
  assumption

/-- The characters that the token could go on with, or join to a longer one. -/
def continues : Token → Char → Bool
  | .number _, c => Numeral.continues c
  | .text _, _ => false
  | .name _, c | .keyword _, c => continuesWord c
  | .symbol _, c => c = '*' || c = '=' || c.isDigit

theorem not_continues_of_isBlank {t : Token} {c : Char} (h : isBlank c = true) :
    t.continues c = false := by
  simp only [isBlank, Bool.or_eq_true, decide_eq_true_eq, or_assoc] at h
  rcases h with rfl | rfl | rfl | rfl <;> cases t <;> rfl

theorem ofWord_sound {c : Char} {cs : List Char} (hc : startsWord c = true)
    (hcs : cs.all continuesWord = true) : Spells (c :: cs) (ofWord (c :: cs)) := by
  unfold ofWord
  split
  · rename_i k hk
    have hspelling : k.spelling = String.ofList (c :: cs) := by
      simpa using List.find?_some hk
    have := Spells.keyword k
    rwa [hspelling, String.toList_ofList] at this
  · rename_i hk
    have : isName (String.ofList (c :: cs)) = true := by
      simp only [isName, String.toList_ofList, hc, hcs, hk, Option.isNone_none, Bool.and_self]
    have := Spells.name this
    rwa [String.toList_ofList] at this

theorem read?_sound {cs rest : List Char} {t : Token} (h : read? cs = some (t, rest)) :
    ∃ sp, cs = sp ++ rest ∧ Spells sp t := by
  unfold read? at h
  split at h
  · rename_i n after hn
    cases h
    obtain ⟨rfl, hwf⟩ := Numeral.read?_sound hn
    exact ⟨_, rfl, .number hwf⟩
  · split at h
    · cases h
    · rename_i c cs _
      split at h
      · rename_i hc
        cases h
        refine ⟨c :: cs.takeWhile continuesWord, ?_, ofWord_sound hc List.all_takeWhile⟩
        rw [List.cons_append, List.takeWhile_append_dropWhile]
      · split at h
        · rename_i hq
          split at h
          · cases h
          · rename_i d after hd
            cases h
            have hsplit := List.takeWhile_append_dropWhile (p := (· ≠ c)) (l := cs)
            obtain rfl : d = c := by
              have := EndsRun.dropWhile (· ≠ c) cs
              rw [hd] at this
              simpa using EndsRun.cons_iff.mp this
            refine ⟨d :: (cs.takeWhile (· ≠ d) ++ [d]), ?_, .text hq fun hmem => ?_⟩
            · rw [List.cons_append, List.append_assoc, List.singleton_append, ← hd, hsplit]
            · have := List.all_eq_true.mp (List.all_takeWhile (p := (· ≠ d)) (l := cs)) d hmem
              simp at this
        · obtain ⟨⟨s, after⟩, hs, heq⟩ := Option.map_eq_some_iff.mp h
          cases heq
          exact ⟨_, Symbol.read?_sound hs, .symbol s⟩

theorem startsWord_iff_toNat {c : Char} : startsWord c = true ↔
    (65 ≤ c.toNat ∧ c.toNat ≤ 90) ∨ (97 ≤ c.toNat ∧ c.toNat ≤ 122) ∨ c.toNat = 95 := by
  have hunderscore : c = '_' ↔ c.toNat = 95 := by
    rw [← Char.toNat_inj]
    rfl
  unfold startsWord Char.isAlpha Char.isUpper Char.isLower
  simp [UInt32.le_iff_toNat_le, hunderscore, or_assoc]

theorem not_isDigit_of_startsWord {c : Char} (h : startsWord c = true) : c.isDigit = false := by
  rw [startsWord_iff_toNat] at h
  rw [Bool.eq_false_iff, ne_eq, Char.isDigit_iff_toNat]
  simp only [Char.reduceToNat]
  omega

/-- No word, text or sign is read as a number. -/
theorem numeral_read?_eq_none {c : Char} {cs : List Char} (hd : c.isDigit = false)
    (hp : c = '.' → EndsRun Char.isDigit cs) : Numeral.read? (c :: cs) = none := by
  by_cases hc : c = '.'
  · subst hc
    simp [Numeral.read?, (hp rfl).takeWhile_eq]
  · exact Numeral.read?_eq_none hd hc

theorem read?_word {c : Char} {cs rest : List Char} (hc : startsWord c = true)
    (hcs : cs.all continuesWord = true) (hrest : EndsRun continuesWord rest) :
    read? (c :: cs ++ rest) = some (ofWord (c :: cs), rest) := by
  have hpoint : c ≠ '.' := by
    rintro rfl
    exact absurd hc (by decide)
  have hnumber : Numeral.read? (c :: (cs ++ rest)) = none :=
    numeral_read?_eq_none (not_isDigit_of_startsWord hc) fun h => absurd h hpoint
  unfold read?
  rw [List.cons_append, hnumber]
  simp only [hc, if_true, hrest.takeWhile_append hcs, hrest.dropWhile_append hcs]

theorem read?_text {q : Char} {body : List Char} (rest : List Char) (hq : isQuote q = true)
    (hbody : q ∉ body) :
    read? (q :: (body ++ [q]) ++ rest) = some (.text (String.ofList body), rest) := by
  have hquotes : q = '\'' ∨ q = '"' := by simpa [isQuote] using hq
  have hnumber : Numeral.read? (q :: (body ++ q :: rest)) = none := by
    rcases hquotes with rfl | rfl <;> exact Numeral.read?_eq_none rfl (by decide)
  have hword : startsWord q = false := by
    rcases hquotes with rfl | rfl <;> rfl
  have hall : body.all (· ≠ q) = true :=
    List.all_eq_true.mpr fun c hc => decide_eq_true fun h => hbody (h ▸ hc)
  have hends : EndsRun (· ≠ q) (q :: rest) := EndsRun.cons_iff.mpr (by simp)
  unfold read?
  rw [List.cons_append, List.append_assoc, List.singleton_append, hnumber]
  simp only [hword, hq, Bool.false_eq_true, if_false, if_true, hends.dropWhile_append hall,
    hends.takeWhile_append hall]

theorem read?_of_symbol {s : Symbol} {rest : List Char}
    (hread : Symbol.read? (s.spelling ++ rest) = some (s, rest))
    (hdot : s = .dot → EndsRun Char.isDigit rest) :
    read? (s.spelling ++ rest) = some (.symbol s, rest) := by
  obtain ⟨c, cs, hcs, hd, hw, hq, hp⟩ : ∃ c cs, s.spelling ++ rest = c :: cs ∧ c.isDigit = false ∧
      startsWord c = false ∧ isQuote c = false ∧ (c = '.' → EndsRun Char.isDigit cs) := by
    cases s <;>
      exact ⟨_, _, rfl, rfl, rfl, rfl, by first | exact fun _ => hdot rfl | (intro h; cases h)⟩
  rw [hcs] at hread ⊢
  unfold read?
  rw [numeral_read?_eq_none hd hp]
  simp only [hw, hq, Bool.false_eq_true, if_false, hread, Option.map_some]

theorem read?_symbol {s : Symbol} {rest : List Char}
    (hrest : EndsRun (continues (.symbol s)) rest) :
    read? (s.spelling ++ rest) = some (.symbol s, rest) :=
  read?_of_symbol (Symbol.read?_spelling (hrest.mono fun c hc => by simp_all [continues]))
    fun _ => hrest.mono fun c hc => by simp [continues, hc]

/-- A spelling is read as its token where the token does not go on. -/
theorem read?_of_spells {sp rest : List Char} {t : Token} (h : Spells sp t)
    (hrest : EndsRun t.continues rest) : read? (sp ++ rest) = some (t, rest) := by
  cases h with
  | number hn =>
    unfold read?
    rw [Numeral.read?_spelling hn hrest]
  | text hq hbody => exact read?_text rest hq hbody
  | @name id hid =>
    obtain ⟨c, cs, heq, hc, hcs, hk⟩ := exists_cons_of_isName hid
    have hword : ofWord (c :: cs) = .name id := by
      simp only [ofWord, ← heq, String.ofList_toList, hk]
    rw [← hword, heq]
    exact read?_word hc hcs hrest
  | keyword k => cases k <;> exact read?_word rfl rfl hrest
  | symbol s => exact read?_symbol hrest

/-- A spelling begins with a visible character. -/
theorem Spells.exists_cons {sp : List Char} {t : Token} (h : Spells sp t) :
    ∃ c cs, sp = c :: cs ∧ 33 ≤ c.toNat ∧ c.toNat ≤ 126 := by
  cases h with
  | number hn =>
    obtain ⟨c, cs, heq, hc⟩ := Numeral.exists_cons_of_isWellFormed hn
    refine ⟨c, cs, heq, ?_⟩
    rcases hc with hc | rfl
    · rw [Char.isDigit_iff_toNat] at hc
      simp only [Char.reduceToNat] at hc
      omega
    · decide
  | @text q body hq _ =>
    refine ⟨q, _, rfl, ?_⟩
    simp only [isQuote, Bool.or_eq_true, decide_eq_true_eq] at hq
    rcases hq with rfl | rfl <;> decide
  | name hid =>
    obtain ⟨c, cs, heq, hc, -⟩ := exists_cons_of_isName hid
    rw [startsWord_iff_toNat] at hc
    exact ⟨c, cs, heq, by omega, by omega⟩
  | keyword k => cases k <;> exact ⟨_, _, rfl, by decide, by decide⟩
  | symbol s => cases s <;> exact ⟨_, _, rfl, by decide, by decide⟩

theorem not_isBlank_of_toNat {c : Char} (h : 33 ≤ c.toNat) : isBlank c = false := by
  rw [Bool.eq_false_iff]
  intro hb
  simp only [isBlank, Bool.or_eq_true, decide_eq_true_eq, or_assoc] at hb
  rcases hb with rfl | rfl | rfl | rfl <;> exact absurd h (by decide)

theorem not_isWhite_of_toNat {c : Char} (h : 33 ≤ c.toNat) (h' : c.toNat ≤ 126) :
    Text.isWhite c = false := by
  rw [Bool.eq_false_iff]
  intro hwhite
  simp only [Text.isWhite, Bool.or_eq_true, Bool.and_eq_true, decide_eq_true_eq] at hwhite
  omega

theorem isWhite_of_isBlank {c : Char} (h : isBlank c = true) : Text.isWhite c = true := by
  simp only [isBlank, Bool.or_eq_true, decide_eq_true_eq, or_assoc] at h
  rcases h with rfl | rfl | rfl | rfl <;> rfl

/-! ### Texts -/

/-- The text consists of spellings of the tokens, in order, and of blanks around them. -/
inductive Spaced : List Char → List Token → Prop
  | blank {bs : List Char} (hbs : bs.all isBlank = true) : Spaced bs []
  | cons {bs sp cs : List Char} {t : Token} {ts : List Token} (hbs : bs.all isBlank = true)
      (hsp : Spells sp t) (rest : Spaced cs ts) : Spaced (bs ++ (sp ++ cs)) (t :: ts)

/-- A text consists of the tokens it is read as and of blanks. -/
theorem spaced_of_list? {cs : List Char} {ts : List Token} (h : list? cs = some ts) :
    Spaced cs ts := by
  fun_induction list? cs generalizing ts with
  | case1 cs hd =>
    cases h
    have := List.takeWhile_append_dropWhile (p := isBlank) (l := cs)
    rw [hd, List.append_nil] at this
    exact .blank (this ▸ List.all_takeWhile)
  | case2 => cases h
  | case3 cs c rest hd t after hr ih =>
    obtain ⟨us, hus, rfl⟩ := Option.map_eq_some_iff.mp h
    obtain ⟨sp, hsp, hspells⟩ := read?_sound hr
    have := List.takeWhile_append_dropWhile (p := isBlank) (l := cs)
    rw [hd, hsp] at this
    exact this ▸ .cons List.all_takeWhile hspells (ih hus)

/-- The first token of a text is read behind its blanks. -/
theorem list?_spelling {bs sp rest : List Char} {t : Token} (hbs : bs.all isBlank = true)
    (hsp : Spells sp t) (hrest : EndsRun t.continues rest) :
    list? (bs ++ (sp ++ rest)) = (list? rest).map (t :: ·) := by
  obtain ⟨c, cs, rfl, hc, -⟩ := hsp.exists_cons
  have hends : EndsRun isBlank (c :: cs ++ rest) := EndsRun.cons_iff.mpr (not_isBlank_of_toNat hc)
  refine list?_cons ?_
  rw [hends.dropWhile_append hbs]
  exact read?_of_spells hsp hrest

/-- Spellings one after the other with a blank between two of them. -/
def spaced : List (List Char) → List Char
  | [] => []
  | [sp] => sp
  | sp :: sq :: sps => sp ++ ' ' :: spaced (sq :: sps)

/-- Spellings with single blanks between them, and blanks in front, are read as their tokens. -/
theorem list?_append_spaced {bs : List Char} {sps : List (List Char)} {ts : List Token}
    (hbs : bs.all isBlank = true) (h : List.Forall₂ Spells sps ts) :
    list? (bs ++ spaced sps) = some ts := by
  induction h generalizing bs with
  | nil =>
    refine list?_blank ?_
    rw [spaced, EndsRun.nil.dropWhile_append hbs]
  | @cons sp t sps ts hsp hsps ih =>
    cases sps with
    | nil =>
      cases hsps
      rw [spaced, ← List.append_nil sp, list?_spelling hbs hsp .nil, list?_blank rfl,
        Option.map_some]
    | cons sq sps =>
      have hends : EndsRun t.continues (' ' :: spaced (sq :: sps)) :=
        EndsRun.cons_iff.mpr (not_continues_of_isBlank rfl)
      have hrest : list? (' ' :: spaced (sq :: sps)) = some ts :=
        ih (show [' '].all isBlank = true from rfl)
      rw [spaced, list?_spelling hbs hsp hends, hrest, Option.map_some]

theorem list?_spaced {sps : List (List Char)} {ts : List Token} (h : List.Forall₂ Spells sps ts) :
    list? (spaced sps) = some ts :=
  list?_append_spaced List.all_nil h

end Token

end Reckoner
