import Reckoner.Proofs.Nesting.Cover
import Reckoner.Proofs.Token.Concatenation
import Reckoner.Proofs.Token.Layout

/-!
# Reading the front of a text

A token that ends in the front of a text is read in the front alone (`read?_front`): what is
cut off behind it can only have ended it. With `read?_before` the text behind some tokens of
a layout can be exchanged for any other that continues no token (`Laid.exchange`).
-/

namespace Reckoner

variable {cs after ys : List Char}

/-! ### Runs -/

theorem EndsRun.of_append {p : Char → Bool} (h : EndsRun p (cs ++ ys)) : EndsRun p cs := by
  cases cs with
  | nil => exact .nil
  | cons c cs => exact cons_iff.mpr (cons_iff.mp h)

/-- A run that ends in the front of a text ends there without the text behind. -/
theorem run_front {p : Char → Bool} (h : (cs ++ ys).dropWhile p = after ++ ys) :
    cs.takeWhile p = (cs ++ ys).takeWhile p ∧ cs.dropWhile p = after := by
  have hends : EndsRun p after := (h ▸ EndsRun.dropWhile p (cs ++ ys)).of_append
  have hsplit := List.takeWhile_append_dropWhile (p := p) (l := cs ++ ys)
  rw [h, ← List.append_assoc] at hsplit
  have hcs := List.append_cancel_right hsplit
  constructor
  · conv => lhs; rw [← hcs]
    exact hends.takeWhile_append List.all_takeWhile
  · conv => lhs; rw [← hcs]
    exact hends.dropWhile_append List.all_takeWhile

/-! ### Literals -/

namespace Exponent

theorem endsRun_of_read? {x : Exponent} (h : read? cs = some (x, after)) :
    EndsRun Char.isDigit after := by
  cases cs with
  | nil => cases h
  | cons c cs =>
    simp only [read?] at h
    split at h
    · split at h
      · cases h
      · cases h
        exact EndsRun.dropWhile _ _
    · cases h

theorem read?_front {x : Exponent} (h : read? (cs ++ ys) = some (x, after ++ ys)) :
    read? cs = some (x, after) := by
  obtain ⟨hsplit, hx⟩ := read?_sound h
  rw [← List.append_assoc] at hsplit
  rw [List.append_cancel_right hsplit]
  exact read?_spelling hx (endsRun_of_read? h).of_append

/-- Where an exponent is read, one is read whatever comes behind. -/
theorem read?_append_ne_none {x : Exponent} (h : read? cs = some (x, after)) (ys : List Char) :
    read? (cs ++ ys) ≠ none := by
  obtain ⟨rfl, hx⟩ := read?_sound h
  obtain ⟨marker, sign, digits⟩ := x
  simp only [isWellFormed, Bool.and_eq_true, Bool.or_eq_true, decide_eq_true_eq,
    Bool.not_eq_true', or_assoc] at hx
  obtain ⟨⟨⟨hmarker, hsign⟩, hne⟩, hdigits⟩ := hx
  obtain ⟨d, ds, rfl⟩ := List.exists_cons_of_ne_nil (l := digits) (by simpa using hne)
  have hd : d.isDigit = true := (Bool.and_eq_true_iff.mp hdigits).1
  have hread : readSign (sign.toList ++ (d :: (ds ++ (after ++ ys))))
      = (sign, d :: (ds ++ (after ++ ys))) :=
    readSign_append hsign (EndsRun.cons_iff.mpr (by simp [hd]))
  simp [spelling, read?, if_pos hmarker, hread, hd]

theorem read?_eq_none_front (h : read? (cs ++ ys) = none) : read? cs = none := by
  cases hread : read? cs with
  | none => rfl
  | some r => exact (read?_append_ne_none hread ys h).elim

end Exponent

namespace Numeral

variable {n : Numeral}

theorem withExponent_front {whole : List Char} {fraction : Option (List Char)}
    (h : withExponent whole fraction (cs ++ ys) = (n, after ++ ys)) :
    withExponent whole fraction cs = (n, after) := by
  unfold withExponent at h ⊢
  cases hx : Exponent.read? (cs ++ ys) with
  | none =>
    rw [hx] at h
    obtain ⟨hn, hsplit⟩ := Prod.mk.inj h
    rw [Exponent.read?_eq_none_front hx]
    exact Prod.ext hn (List.append_cancel_right hsplit)
  | some r =>
    obtain ⟨x, rest⟩ := r
    rw [hx] at h
    obtain ⟨hn, rfl⟩ := Prod.mk.inj h
    rw [Exponent.read?_front hx]
    exact Prod.ext hn rfl

theorem read?_front (h : read? (cs ++ ys) = some (n, after ++ ys)) :
    read? cs = some (n, after) := by
  by_cases hpoint : ∃ behind, (cs ++ ys).dropWhile Char.isDigit = '.' :: behind
  · obtain ⟨behind, hd⟩ := hpoint
    rw [read?_point hd] at h
    split at h
    · cases h
    · rename_i hne
      have hx := Option.some.inj h
      have hdrop : behind.dropWhile Char.isDigit = exponentSpelling n.exponent ++ after ++ ys := by
        rw [List.append_assoc]
        exact (withExponent_sound hx).2.2.1
      have hbehind := List.takeWhile_append_dropWhile (p := Char.isDigit) (l := behind)
      rw [hdrop, ← List.append_assoc] at hbehind
      generalize behind.takeWhile Char.isDigit ++ (exponentSpelling n.exponent ++ after) = front
        at hbehind
      subst hbehind
      obtain ⟨htake, hfront⟩ := run_front hdrop
      rw [← List.cons_append] at hd
      obtain ⟨hwhole, hcs⟩ := run_front hd
      rw [hdrop, ← htake, ← hwhole] at hx
      rw [← htake, ← hwhole] at hne
      rw [read?_point hcs, if_neg hne, hfront, withExponent_front hx]
  · have hd : ∀ behind, (cs ++ ys).dropWhile Char.isDigit ≠ '.' :: behind :=
      fun behind hbehind => hpoint ⟨behind, hbehind⟩
    rw [read?_whole hd] at h
    split at h
    · cases h
    · rename_i hne
      have hx := Option.some.inj h
      have hdrop : (cs ++ ys).dropWhile Char.isDigit
          = exponentSpelling n.exponent ++ after ++ ys := by
        rw [List.append_assoc]
        exact (withExponent_sound hx).2.2.1
      obtain ⟨hwhole, hcs⟩ := run_front hdrop
      have hcs' : ∀ behind, cs.dropWhile Char.isDigit ≠ '.' :: behind := by
        intro behind hbehind
        refine hd (behind ++ ys) ?_
        rw [hdrop, ← hcs, hbehind, List.cons_append]
      rw [hdrop, ← hwhole] at hx
      rw [← hwhole] at hne
      rw [read?_whole hcs', if_neg hne, hcs, withExponent_front hx]

/-- A point that is read as a sign has no digit behind it. -/
theorem endsRun_of_read?_eq_none (h : read? ('.' :: cs) = none) : EndsRun Char.isDigit cs := by
  cases cs with
  | nil => exact .nil
  | cons c cs =>
    refine EndsRun.cons_iff.mpr ?_
    by_contra hc
    rw [Bool.not_eq_false] at hc
    have hpoint : ('.' :: c :: cs).dropWhile Char.isDigit = '.' :: c :: cs := rfl
    rw [read?_point hpoint, if_neg (by simp [hc])] at h
    cases h

end Numeral

/-! ### Tokens -/

/-- Two characters are enough to read a sign. -/
theorem Symbol.read?_cons_cons (c d : Char) (cs ys : List Char) :
    read? (c :: d :: (cs ++ ys)) =
      (read? (c :: d :: cs)).map fun (s, after) => (s, after ++ ys) := by
  simp only [read?]
  split
  · rfl
  · rw [Option.map_map]
    rfl

theorem Symbol.read?_front {s : Symbol} (h : read? (cs ++ ys) = some (s, after ++ ys)) :
    read? cs = some (s, after) := by
  have hsplit := read?_sound h
  rw [← List.append_assoc] at hsplit
  have hcs := List.append_cancel_right hsplit
  cases after with
  | nil =>
    rw [hcs, List.append_nil]
    cases s <;> rfl
  | cons a after =>
    obtain ⟨c, d, ds, rfl⟩ : ∃ c d ds, cs = c :: d :: ds := by
      rw [hcs]
      cases s <;> exact ⟨_, _, _, rfl⟩
    rw [List.cons_append, List.cons_append, read?_cons_cons] at h
    obtain ⟨⟨s', behind⟩, hread, heq⟩ := Option.map_eq_some_iff.mp h
    obtain ⟨rfl, hbehind⟩ := Prod.mk.inj heq
    rw [hread, List.append_cancel_right hbehind]

namespace Token

theorem read?_numeral {n : Numeral} (h : read? cs = some (.number n, after)) :
    Numeral.read? cs = some (n, after) := by
  unfold read? at h
  split at h
  · cases h
    assumption
  · split at h
    · cases h
    · split at h
      · have hword := (Prod.mk.inj (Option.some.inj h)).1
        unfold ofWord at hword
        split at hword <;> cases hword
      · split at h
        · split at h <;> cases h
        · obtain ⟨_, -, heq⟩ := Option.map_eq_some_iff.mp h
          cases heq

theorem read?_sign {s : Symbol} (h : read? cs = some (.symbol s, after)) :
    Numeral.read? cs = none ∧ Symbol.read? cs = some (s, after) := by
  unfold read? at h
  split at h
  · cases h
  · split at h
    · cases h
    · split at h
      · have hword := (Prod.mk.inj (Option.some.inj h)).1
        unfold ofWord at hword
        split at hword <;> cases hword
      · split at h
        · split at h <;> cases h
        · obtain ⟨_, hs, heq⟩ := Option.map_eq_some_iff.mp h
          cases heq
          exact ⟨‹_›, hs⟩

/-- **A token that ends in the front of a text** is read in the front alone. -/
theorem read?_front {t : Token} (h : read? (cs ++ ys) = some (t, after ++ ys)) :
    read? cs = some (t, after) := by
  obtain ⟨sp, hsplit, hsp⟩ := read?_sound h
  rw [← List.append_assoc] at hsplit
  obtain rfl := List.append_cancel_right hsplit
  have hword := endsRun_of_read? h
  cases hsp with
  | number =>
    unfold read?
    rw [Numeral.read?_front (read?_numeral h)]
  | text hq hbody => exact read?_text after hq hbody
  | name hid => exact read?_of_spells (.name hid) (hword (.inl ⟨_, rfl⟩)).of_append
  | keyword k => exact read?_of_spells (.keyword k) (hword (.inr ⟨_, rfl⟩)).of_append
  | symbol s =>
    obtain ⟨hnone, hs⟩ := read?_sign h
    refine read?_of_symbol (Symbol.read?_front hs) ?_
    rintro rfl
    exact (Numeral.endsRun_of_read?_eq_none hnone).of_append

/-! ### Layouts -/

theorem not_mayContinue_of_isBlank {c : Char} (h : isBlank c = true) : mayContinue c = false := by
  simp only [isBlank, Bool.or_eq_true, decide_eq_true_eq, or_assoc] at h
  rcases h with rfl | rfl | rfl | rfl <;> rfl

theorem not_mayContinue_of_isQuote {c : Char} (h : isQuote c = true) : mayContinue c = false := by
  simp only [isQuote, Bool.or_eq_true, decide_eq_true_eq] at h
  rcases h with rfl | rfl <;> rfl

namespace Laid

variable {qs rs rs' : List Placed} {rest rest' : List Char}

/-- **The text behind some tokens** can be exchanged for any that continues no token. -/
theorem exchange (h : Laid (Placed.text qs ++ rest) (qs ++ rs))
    (hends : EndsRun mayContinue rest') (h' : Laid rest' rs') :
    Laid (Placed.text qs ++ rest') (qs ++ rs') := by
  induction qs with
  | nil => exact h'
  | cons q qs ih =>
    rw [Placed.text_cons, List.append_assoc, List.append_assoc] at h ⊢
    generalize hcs : q.gap ++ (q.spelling ++ (Placed.text qs ++ rest)) = cs at h
    cases h with
    | @cons _ behind _ hgap hread htail =>
      obtain rfl : behind = Placed.text qs ++ rest :=
        List.append_cancel_left (List.append_cancel_left hcs.symm)
      refine .cons hgap ?_ (ih htail)
      rw [← List.append_assoc] at hread ⊢
      exact read?_before hends (read?_front hread)

end Laid

end Token

end Reckoner
