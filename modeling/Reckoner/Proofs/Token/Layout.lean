import Reckoner.Proofs.Token.Spelling

/-!
# The layout of a text

A text that consists of tokens is laid out in one way: each token has a gap of blanks
before it and is read from the characters behind the gap (`Laid`). Unlike the list of the
tokens, the layout tells which of them touch. A place of the text is inside a token if the
token has characters on both sides of it (`Splits`); every other place is in a gap
(`between_iff`).
-/

namespace Reckoner

/-- A token in a text: the blanks before it and the characters it is read from. -/
structure Placed where
  gap : List Char
  spelling : List Char
  token : Token

/-- The characters of some tokens and of the gaps before them. -/
def Placed.text (ps : List Placed) : List Char := ps.flatMap fun p => p.gap ++ p.spelling

@[simp] theorem Placed.text_nil : text [] = [] := rfl

@[simp] theorem Placed.text_cons (p : Placed) (ps : List Placed) :
    text (p :: ps) = p.gap ++ p.spelling ++ text ps := rfl

namespace Token

/-- The text is read as these tokens, each behind its gap, and ends with blanks. -/
inductive Laid : List Char → List Placed → Prop
  | blank {bs : List Char} (hbs : bs.all isBlank = true) : Laid bs []
  | cons {p : Placed} {cs : List Char} {ps : List Placed} (hgap : p.gap.all isBlank = true)
      (hread : read? (p.spelling ++ cs) = some (p.token, cs)) (rest : Laid cs ps) :
      Laid (p.gap ++ (p.spelling ++ cs)) (p :: ps)

/-- The characters that a token is read from spell it. -/
theorem spells_of_read? {sp cs : List Char} {t : Token} (h : read? (sp ++ cs) = some (t, cs)) :
    Spells sp t := by
  obtain ⟨sq, hsplit, hsq⟩ := read?_sound h
  rwa [List.append_cancel_right hsplit]

namespace Laid

variable {cs : List Char} {ps qs rs : List Placed}

/-- A layout lists the tokens of the text. -/
theorem list?_eq (h : Laid cs ps) : list? cs = some (ps.map Placed.token) := by
  induction h with
  | blank hbs =>
    refine list?_blank ?_
    have := EndsRun.nil.dropWhile_append hbs
    rwa [List.append_nil] at this
  | @cons p cs ps hgap hread rest ih =>
    obtain ⟨c, sp, hsp, hc, -⟩ := (spells_of_read? hread).exists_cons
    have hends : EndsRun isBlank (p.spelling ++ cs) := by
      rw [hsp]
      exact EndsRun.cons_iff.mpr (not_isBlank_of_toNat hc)
    have hfirst : read? ((p.gap ++ (p.spelling ++ cs)).dropWhile isBlank) = some (p.token, cs) := by
      rwa [hends.dropWhile_append hgap]
    rw [list?_cons hfirst, ih]
    rfl

/-- The text is the part before some place and a text that is laid out from there on. -/
theorem exists_append (h : Laid cs (qs ++ rs)) :
    ∃ rest, cs = Placed.text qs ++ rest ∧ Laid rest rs := by
  induction qs generalizing cs with
  | nil => exact ⟨cs, rfl, h⟩
  | cons q qs ih =>
    cases h with
    | cons hgap hread htail =>
      obtain ⟨rest, rfl, hrest⟩ := ih htail
      exact ⟨rest, by simp, hrest⟩

end Laid

/-- Every text that consists of tokens is laid out. -/
theorem exists_laid {cs : List Char} {ts : List Token} (h : list? cs = some ts) :
    ∃ ps, Laid cs ps ∧ ps.map Placed.token = ts := by
  fun_induction list? cs generalizing ts with
  | case1 cs hd =>
    cases h
    have := List.takeWhile_append_dropWhile (p := isBlank) (l := cs)
    rw [hd, List.append_nil] at this
    exact ⟨[], .blank (this ▸ List.all_takeWhile), rfl⟩
  | case2 => cases h
  | case3 cs c rest hd t after hr ih =>
    obtain ⟨us, hus, rfl⟩ := Option.map_eq_some_iff.mp h
    obtain ⟨ps, hps, rfl⟩ := ih hus
    obtain ⟨sp, hsplit, -⟩ := read?_sound hr
    have hcs := List.takeWhile_append_dropWhile (p := isBlank) (l := cs)
    rw [hd, hsplit] at hcs
    rw [hsplit] at hr
    have hlaid := Laid.cons (p := ⟨cs.takeWhile isBlank, sp, t⟩) List.all_takeWhile hr hps
    rw [hcs] at hlaid
    exact ⟨_, hlaid, rfl⟩

/-! ### Places -/

/-- The place behind these characters is inside one of the tokens. -/
def Splits (pre : List Char) (ps : List Placed) : Prop :=
  ∃ qs p rs front back, ps = qs ++ p :: rs ∧ p.spelling = front ++ back ∧ front ≠ [] ∧ back ≠ [] ∧
    pre = Placed.text qs ++ (p.gap ++ front)

/-- The place between the two parts of a text is inside none of its tokens. -/
def Between (pre post : List Char) : Prop := ∃ ps, Laid (pre ++ post) ps ∧ ¬ Splits pre ps

theorem Splits.cons {pre : List Char} {ps : List Placed} (h : Splits pre ps) (p : Placed) :
    Splits (p.gap ++ (p.spelling ++ pre)) (p :: ps) := by
  obtain ⟨qs, r, rs, front, back, rfl, hsplit, hfront, hback, rfl⟩ := h
  refine ⟨p :: qs, r, rs, front, back, rfl, hsplit, hfront, hback, ?_⟩
  simp only [Placed.text_cons, List.append_assoc]

/-- A place that is inside no token is behind some tokens and perhaps some blanks. -/
theorem Laid.exists_of_not_splits {cs pre post : List Char} {ps : List Placed} (h : Laid cs ps)
    (hcs : cs = pre ++ post) (hplace : ¬ Splits pre ps) :
    ∃ qs rs bs, ps = qs ++ rs ∧ pre = Placed.text qs ++ bs ∧ bs.all isBlank = true := by
  induction h generalizing pre with
  | blank hbs =>
    rw [hcs, List.all_append, Bool.and_eq_true] at hbs
    exact ⟨[], [], pre, rfl, rfl, hbs.1⟩
  | @cons p cs ps hgap hread rest ih =>
    rcases List.append_eq_append_iff.mp hcs with ⟨w, rfl, hw⟩ | ⟨w, hw, -⟩
    · rcases List.append_eq_append_iff.mp hw with ⟨v, rfl, hv⟩ | ⟨v, hv, -⟩
      · -- the place is behind the token
        obtain ⟨qs, rs, bs, rfl, rfl, hbs⟩ := ih hv fun h => hplace (h.cons p)
        exact ⟨p :: qs, rs, bs, rfl, by simp, hbs⟩
      · by_cases hfront : w = []
        · subst hfront
          exact ⟨[], p :: ps, p.gap, rfl, by simp, hgap⟩
        · by_cases hback : v = []
          · subst hback
            rw [List.append_nil] at hv
            subst hv
            exact ⟨[p], ps, [], rfl, by simp, rfl⟩
          · exact (hplace ⟨[], p, ps, w, v, rfl, hv, hfront, hback, rfl⟩).elim
    · rw [hw, List.all_append, Bool.and_eq_true] at hgap
      exact ⟨[], p :: ps, pre, rfl, rfl, hgap.1⟩

/-- A place behind some tokens and blanks is inside no token. -/
theorem Laid.not_splits {bs post : List Char} {qs rs : List Placed}
    (h : Laid (Placed.text qs ++ bs ++ post) (qs ++ rs)) (hbs : bs.all isBlank = true) :
    ¬ Splits (Placed.text qs ++ bs) (qs ++ rs) := by
  rintro ⟨qs', p, rs', front, back, hps, hsplit, hfront, hback, hpre⟩
  induction qs generalizing qs' with
  | nil =>
    -- the token begins with a visible character, which cannot be one of the blanks
    rw [List.nil_append] at hps
    subst hps
    obtain ⟨rest, -, hrest⟩ : ∃ rest, _ ∧ Laid rest (p :: rs') := exists_append h
    cases hrest with
    | cons hgap hread _ =>
      obtain ⟨c, sp, hsp, hc, -⟩ := (spells_of_read? hread).exists_cons
      obtain ⟨d, front, rfl⟩ := List.exists_cons_of_ne_nil hfront
      obtain rfl : c = d := (List.cons.inj (hsp.symm.trans hsplit)).1
      have hmem : c ∈ bs := by
        rw [Placed.text_nil, List.nil_append] at hpre
        simp [hpre]
      have := List.all_eq_true.mp hbs c hmem
      rw [not_isBlank_of_toNat hc] at this
      cases this
  | cons q qs ih =>
    cases qs' with
    | nil =>
      obtain ⟨rfl, -⟩ := List.cons.inj hps
      have hlength := congrArg List.length hpre
      have := List.length_pos_iff.mpr hback
      simp only [Placed.text_cons, Placed.text_nil, hsplit, List.length_append,
        List.length_nil] at hlength
      omega
    | cons q' qs' =>
      obtain ⟨rfl, htail⟩ := List.cons.inj hps
      simp only [Placed.text_cons, List.append_assoc, List.append_cancel_left_eq] at hpre
      rw [Placed.text_cons, List.append_assoc, List.append_assoc, List.append_assoc] at h
      generalize hcs : q.gap ++ (q.spelling ++ (Placed.text qs ++ (bs ++ post))) = cs at h
      cases h with
      | cons hgap hread rest =>
        rw [← List.append_cancel_left (List.append_cancel_left hcs), ← List.append_assoc] at rest
        refine ih rest qs' htail ?_
        rw [hpre]

/-- The places inside no token are those in the gaps. -/
theorem between_iff {pre post : List Char} : Between pre post ↔
    ∃ qs rs bs, Laid (pre ++ post) (qs ++ rs) ∧ pre = Placed.text qs ++ bs
      ∧ bs.all isBlank = true := by
  constructor
  · rintro ⟨ps, hlaid, hplace⟩
    obtain ⟨qs, rs, bs, rfl, rfl, hbs⟩ := hlaid.exists_of_not_splits rfl hplace
    exact ⟨qs, rs, bs, hlaid, rfl, hbs⟩
  · rintro ⟨qs, rs, bs, hlaid, rfl, hbs⟩
    exact ⟨qs ++ rs, hlaid, hlaid.not_splits hbs⟩

end Token

end Reckoner
