import Reckoner.Numeral

/-!
# The spelling of number literals

What is read as a number literal is well formed and is spelled by the characters that
were read. Conversely the spelling of a well-formed literal is read as this literal,
if no character follows that a literal could go on with.
-/

namespace Reckoner

/-- The text does not go on with a character of this kind. -/
def EndsRun (p : Char → Bool) (cs : List Char) : Prop := ∀ c ∈ cs.head?, p c = false

namespace EndsRun

variable {p q : Char → Bool} {c : Char} {cs ds : List Char}

@[simp] theorem nil : EndsRun p [] := by
  simp [EndsRun]

@[simp] theorem cons_iff : EndsRun p (c :: cs) ↔ p c = false := by
  simp [EndsRun]

theorem mono (h : EndsRun q cs) (hpq : ∀ c, p c = true → q c = true) : EndsRun p cs := by
  intro c hc
  cases hp : p c with
  | false => rfl
  | true => exact absurd (h c hc) (by simp [hpq c hp])

theorem dropWhile (p : Char → Bool) (cs : List Char) : EndsRun p (cs.dropWhile p) := by
  intro c hc
  cases hd : cs.dropWhile p with
  | nil => simp [hd] at hc
  | cons d ds =>
    obtain rfl : d = c := by simpa [hd] using hc
    have := List.head_dropWhile_not (p := p) (l := cs) (by simp [hd])
    simpa [hd] using this

theorem takeWhile_append (hds : ds.all p = true) (h : EndsRun p cs) :
    (ds ++ cs).takeWhile p = ds := by
  rw [List.takeWhile_append_of_pos (List.all_eq_true.mp hds)]
  cases cs with
  | nil => simp
  | cons c cs => simp [cons_iff.mp h]

theorem dropWhile_append (hds : ds.all p = true) (h : EndsRun p cs) :
    (ds ++ cs).dropWhile p = cs := by
  rw [List.dropWhile_append_of_pos (List.all_eq_true.mp hds)]
  cases cs with
  | nil => rfl
  | cons c cs => simp [cons_iff.mp h]

theorem takeWhile_eq (h : EndsRun p cs) : cs.takeWhile p = [] :=
  h.takeWhile_append List.all_nil

theorem dropWhile_eq (h : EndsRun p cs) : cs.dropWhile p = cs :=
  h.dropWhile_append List.all_nil

end EndsRun

/-! ### Exponents -/

namespace Exponent

/-- Whether a text can hold the exponent. -/
def isWellFormed (x : Exponent) : Bool :=
  (x.marker = 'e' || x.marker = 'E') && (x.sign = none || x.sign = some '+' || x.sign = some '-')
    && !x.digits.isEmpty && x.digits.all Char.isDigit

theorem readSign_sound (cs : List Char) :
    cs = (readSign cs).1.toList ++ (readSign cs).2 ∧
      ((readSign cs).1 = none ∨ (readSign cs).1 = some '+' ∨ (readSign cs).1 = some '-') := by
  unfold readSign
  split <;> simp

theorem read?_sound {cs rest : List Char} {x : Exponent} (h : read? cs = some (x, rest)) :
    cs = x.spelling ++ rest ∧ x.isWellFormed = true := by
  cases cs with
  | nil => cases h
  | cons c cs =>
    obtain ⟨hsplit, hsign⟩ := readSign_sound cs
    simp only [read?] at h
    split at h
    · rename_i hc
      split at h
      · cases h
      · rename_i ds hds
        cases h
        have htake := List.takeWhile_append_dropWhile (p := Char.isDigit) (l := (readSign cs).2)
        have hall := List.all_takeWhile (p := Char.isDigit) (l := (readSign cs).2)
        refine ⟨?_, ?_⟩
        · simp only [spelling, List.cons_append, List.append_assoc, htake, ← hsplit]
        · rcases hc with rfl | rfl <;> rcases hsign with hs | hs | hs <;>
            simp [isWellFormed, hs, hall] <;> simpa using hds
    · cases h

theorem readSign_append {sign : Option Char} {ds : List Char}
    (hsign : sign = none ∨ sign = some '+' ∨ sign = some '-') (hds : EndsRun (!·.isDigit) ds) :
    readSign (sign.toList ++ ds) = (sign, ds) := by
  rcases hsign with rfl | rfl | rfl
  · -- a digit is no sign
    unfold readSign
    split
    · rename_i heq
      rw [show ds = '+' :: _ from heq] at hds
      exact absurd (EndsRun.cons_iff.mp hds) (by decide)
    · rename_i heq
      rw [show ds = '-' :: _ from heq] at hds
      exact absurd (EndsRun.cons_iff.mp hds) (by decide)
    · rfl
  · rfl
  · rfl

theorem read?_spelling {x : Exponent} {rest : List Char} (hx : x.isWellFormed = true)
    (hrest : EndsRun Char.isDigit rest) : read? (x.spelling ++ rest) = some (x, rest) := by
  obtain ⟨marker, sign, digits⟩ := x
  simp only [isWellFormed, Bool.and_eq_true, Bool.or_eq_true, decide_eq_true_eq,
    Bool.not_eq_true', or_assoc] at hx
  obtain ⟨⟨⟨hmarker, hsign⟩, hne⟩, hdigits⟩ := hx
  obtain ⟨d, ds, rfl⟩ := List.exists_cons_of_ne_nil (l := digits) (by simpa using hne)
  have hd : d.isDigit = true := (Bool.and_eq_true_iff.mp hdigits).1
  have hread : readSign (sign.toList ++ (d :: ds ++ rest)) = (sign, d :: ds ++ rest) :=
    readSign_append hsign (EndsRun.cons_iff.mpr (by simp [hd]))
  simp only [spelling, List.cons_append, List.append_assoc, read?, if_pos hmarker] at hread ⊢
  rw [hread]
  simp only [← List.cons_append]
  rw [hrest.takeWhile_append hdigits, hrest.dropWhile_append hdigits]

theorem read?_eq_none {cs : List Char} (h : EndsRun (fun c => c = 'e' || c = 'E') cs) :
    read? cs = none := by
  cases cs with
  | nil => rfl
  | cons c cs =>
    have hc := EndsRun.cons_iff.mp h
    simp only [Bool.or_eq_false_iff, decide_eq_false_iff_not] at hc
    rw [read?, if_neg (by simp [hc])]

end Exponent

/-! ### Literals -/

namespace Numeral

/-- Whether a text can hold the literal. -/
def isWellFormed (n : Numeral) : Bool :=
  n.whole.all Char.isDigit && (n.fraction.getD []).all Char.isDigit
    && !(n.whole ++ n.fraction.getD []).isEmpty && n.exponent.all Exponent.isWellFormed

/-- The characters that a literal can go on with. -/
def continues (c : Char) : Bool := c.isDigit || c = '.' || c = 'e' || c = 'E'

/-- The characters of a fraction. -/
def fractionSpelling (fraction : Option (List Char)) : List Char :=
  match fraction with
  | none => []
  | some ds => '.' :: ds

/-- The characters of the exponent that may stand behind a literal. -/
def exponentSpelling (exponent : Option Exponent) : List Char :=
  match exponent with
  | none => []
  | some x => x.spelling

theorem spelling_eq (n : Numeral) :
    n.spelling = n.whole ++ fractionSpelling n.fraction ++ exponentSpelling n.exponent := rfl

theorem withExponent_sound {whole : List Char} {fraction : Option (List Char)} {cs rest : List Char}
    {n : Numeral} (h : withExponent whole fraction cs = (n, rest)) :
    n.whole = whole ∧ n.fraction = fraction ∧ cs = exponentSpelling n.exponent ++ rest ∧
      n.exponent.all Exponent.isWellFormed = true := by
  unfold withExponent at h
  split at h
  · cases h
    exact ⟨rfl, rfl, rfl, rfl⟩
  · rename_i x rest hx
    cases h
    obtain ⟨hcs, hwf⟩ := Exponent.read?_sound hx
    exact ⟨rfl, rfl, hcs, hwf⟩

theorem withExponent_spelling {n : Numeral} {rest : List Char} (hn : n.isWellFormed = true)
    (hrest : EndsRun continues rest) :
    withExponent n.whole n.fraction (exponentSpelling n.exponent ++ rest) = (n, rest) := by
  obtain ⟨whole, fraction, exponent⟩ := n
  simp only [isWellFormed, Bool.and_eq_true] at hn
  cases exponent with
  | none =>
    have : Exponent.read? rest = none :=
      Exponent.read?_eq_none (hrest.mono fun c hc => by
        simp only [Bool.or_eq_true, decide_eq_true_eq] at hc
        rcases hc with rfl | rfl <;> rfl)
    simp [withExponent, exponentSpelling, this]
  | some x =>
    have hends : EndsRun Char.isDigit rest := hrest.mono fun c hc => by simp [continues, hc]
    have := Exponent.read?_spelling hn.2 hends
    simp [withExponent, exponentSpelling, this]

theorem read?_sound {cs rest : List Char} {n : Numeral} (h : read? cs = some (n, rest)) :
    cs = n.spelling ++ rest ∧ n.isWellFormed = true := by
  have hwhole := List.takeWhile_append_dropWhile (p := Char.isDigit) (l := cs)
  have hall (l : List Char) := List.all_takeWhile (p := Char.isDigit) (l := l)
  simp only [read?] at h
  split at h
  · rename_i after hd
    split at h
    · cases h
    · rename_i hne
      have hfraction := List.takeWhile_append_dropWhile (p := Char.isDigit) (l := after)
      obtain ⟨hw, hf, hcs, hx⟩ := withExponent_sound (Option.some.inj h)
      refine ⟨?_, ?_⟩
      · rw [spelling_eq, hw, hf, fractionSpelling, List.append_assoc, ← hcs, List.append_assoc,
          List.cons_append, hfraction, ← hd, hwhole]
      · simp [isWellFormed, hw, hf, hx, hall]
        simpa using hne
  · split at h
    · cases h
    · rename_i hne
      obtain ⟨hw, hf, hcs, hx⟩ := withExponent_sound (Option.some.inj h)
      refine ⟨?_, ?_⟩
      · rw [spelling_eq, hw, hf, fractionSpelling, List.append_nil, List.append_assoc, ← hcs,
          hwhole]
      · simp [isWellFormed, hw, hf, hx, hall]
        simpa using hne

/-- The digits of a literal end where its exponent begins. -/
theorem endsRun_exponentSpelling {n : Numeral} {rest : List Char} (hn : n.isWellFormed = true)
    (hrest : EndsRun continues rest) :
    EndsRun (fun c => c.isDigit || c = '.') (exponentSpelling n.exponent ++ rest) := by
  obtain ⟨whole, fraction, exponent⟩ := n
  cases exponent with
  | none => exact hrest.mono fun c hc => by simp_all [continues]
  | some x =>
    have hx : x.isWellFormed = true := (Bool.and_eq_true_iff.mp hn).2
    simp only [Exponent.isWellFormed, Bool.and_eq_true, Bool.or_eq_true, decide_eq_true_eq] at hx
    refine EndsRun.cons_iff.mpr ?_
    rcases hx.1.1.1 with h | h <;> rw [h] <;> decide

theorem read?_spelling {n : Numeral} {rest : List Char} (hn : n.isWellFormed = true)
    (hrest : EndsRun continues rest) : read? (n.spelling ++ rest) = some (n, rest) := by
  have hexponent := withExponent_spelling hn hrest
  have hends := endsRun_exponentSpelling hn hrest
  have hdigits := hends.mono (p := Char.isDigit) fun c hc => by simp [hc]
  obtain ⟨whole, fraction, exponent⟩ := n
  simp only [isWellFormed, Bool.and_eq_true, Bool.not_eq_true'] at hn
  obtain ⟨⟨⟨hwhole, hfraction⟩, hne⟩, -⟩ := hn
  simp only [read?, spelling_eq]
  cases fraction with
  | none =>
    have hne : whole ≠ [] := by simpa using hne
    simp only [fractionSpelling, List.append_nil, List.append_assoc,
      hdigits.takeWhile_append hwhole, hdigits.dropWhile_append hwhole]
    split
    · rename_i heq
      rw [heq] at hends
      exact absurd (EndsRun.cons_iff.mp hends) (by decide)
    · rw [if_neg hne, hexponent]
  | some ds =>
    have hfraction : ds.all Char.isDigit = true := hfraction
    have hpoint : EndsRun Char.isDigit ('.' :: (ds ++ (exponentSpelling exponent ++ rest))) :=
      EndsRun.cons_iff.mpr rfl
    simp only [fractionSpelling, List.append_assoc, List.cons_append,
      hpoint.takeWhile_append hwhole, hpoint.dropWhile_append hwhole,
      hdigits.takeWhile_append hfraction, hdigits.dropWhile_append hfraction]
    rw [if_neg (by simpa using hne), hexponent]

/-- A literal begins with a digit or a point. -/
theorem exists_cons_of_isWellFormed {n : Numeral} (hn : n.isWellFormed = true) :
    ∃ c cs, n.spelling = c :: cs ∧ (c.isDigit = true ∨ c = '.') := by
  obtain ⟨whole, fraction, exponent⟩ := n
  simp only [isWellFormed, Bool.and_eq_true, Bool.not_eq_true'] at hn
  cases whole with
  | cons d ds =>
    exact ⟨d, _, rfl, .inl (Bool.and_eq_true_iff.mp hn.1.1.1).1⟩
  | nil =>
    cases fraction with
    | none => exact absurd hn.1.2 (by simp)
    | some ds => exact ⟨'.', _, rfl, .inr rfl⟩

/-- Only a digit or a point begins a literal. -/
theorem read?_eq_none {c : Char} {cs : List Char} (hd : c.isDigit = false) (hp : c ≠ '.') :
    read? (c :: cs) = none := by
  simp [read?, hd, hp]

end Numeral

end Reckoner
