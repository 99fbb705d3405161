import Reckoner.Token

/-!
# The tokens of a text

Blanks separate tokens and mean nothing else. Reading a token always uses up part
of the text, so the tokens of a text are a finite list; there is none when the
text holds a character that starts no token or a quote that is never closed.
-/

namespace Reckoner

theorem length_dropWhile_le (p : α → Bool) (l : List α) : (l.dropWhile p).length ≤ l.length :=
  (List.dropWhile_sublist p).length_le

/-! ### Every token uses up characters -/

theorem Exponent.length_readSign_le (cs : List Char) :
    (Exponent.readSign cs).2.length ≤ cs.length := by
  unfold Exponent.readSign
  split <;> simp

theorem Exponent.length_lt_of_read? {cs rest : List Char} {x : Exponent}
    (h : Exponent.read? cs = some (x, rest)) : rest.length < cs.length := by
  cases cs with
  | nil => simp [Exponent.read?] at h
  | cons c cs =>
    have hs := Exponent.length_readSign_le cs
    have hd := length_dropWhile_le Char.isDigit (Exponent.readSign cs).2
    simp only [Exponent.read?] at h
    split at h
    · split at h
      · simp at h
      · simp only [Option.some.injEq, Prod.mk.injEq] at h
        obtain ⟨-, rfl⟩ := h
        simp only [List.length_cons]
        omega
    · simp at h

theorem Numeral.length_withExponent_le (whole : List Char) (fraction : Option (List Char))
    (cs : List Char) : (Numeral.withExponent whole fraction cs).2.length ≤ cs.length := by
  unfold Numeral.withExponent
  split
  · exact Nat.le_refl _
  · rename_i h
    exact Nat.le_of_lt (Exponent.length_lt_of_read? h)

theorem Numeral.length_lt_of_read? {cs rest : List Char} {n : Numeral}
    (h : Numeral.read? cs = some (n, rest)) : rest.length < cs.length := by
  have hsplit := congrArg List.length (List.takeWhile_append_dropWhile (p := Char.isDigit) (l := cs))
  rw [List.length_append] at hsplit
  simp only [Numeral.read?] at h
  split at h
  · rename_i after hd
    rw [hd, List.length_cons] at hsplit
    have hf := length_dropWhile_le Char.isDigit after
    split at h
    · simp at h
    · have hw := Numeral.length_withExponent_le (cs.takeWhile Char.isDigit)
        (some (after.takeWhile Char.isDigit)) (after.dropWhile Char.isDigit)
      rw [Option.some.injEq] at h
      rw [h] at hw
      simp only at hw
      omega
  · split at h
    · simp at h
    · rename_i hne
      have hw := Numeral.length_withExponent_le (cs.takeWhile Char.isDigit) none
        (cs.dropWhile Char.isDigit)
      have hpos := List.length_pos_iff.mpr hne
      rw [Option.some.injEq] at h
      rw [h] at hw
      simp only at hw
      omega

theorem Symbol.length_lt_of_read? {cs rest : List Char} {s : Symbol}
    (h : Symbol.read? cs = some (s, rest)) : rest.length < cs.length := by
  unfold Symbol.read? at h
  split at h
  · split at h
    · simp only [Option.some.injEq, Prod.mk.injEq] at h
      obtain ⟨-, rfl⟩ := h
      simp only [List.length_cons]
      omega
    · simp only [Option.map_eq_some_iff, Prod.mk.injEq] at h
      obtain ⟨_, -, -, rfl⟩ := h
      simp
  · simp only [Option.map_eq_some_iff, Prod.mk.injEq] at h
    obtain ⟨_, -, -, rfl⟩ := h
    simp
  · simp at h

namespace Token

theorem length_lt_of_read? {cs rest : List Char} {t : Token}
    (h : read? cs = some (t, rest)) : rest.length < cs.length := by
  unfold read? at h
  split at h
  · rename_i hn
    simp only [Option.some.injEq, Prod.mk.injEq] at h
    obtain ⟨-, rfl⟩ := h
    exact Numeral.length_lt_of_read? hn
  · split at h
    · simp at h
    · rename_i c cs _
      split at h
      · simp only [Option.some.injEq, Prod.mk.injEq] at h
        obtain ⟨-, rfl⟩ := h
        exact Nat.lt_succ_of_le (length_dropWhile_le _ _)
      · split at h
        · split at h
          · simp at h
          · rename_i after hd
            simp only [Option.some.injEq, Prod.mk.injEq] at h
            obtain ⟨-, rfl⟩ := h
            have := length_dropWhile_le (fun x => decide (x ≠ c)) cs
            rw [hd, List.length_cons] at this
            exact Nat.lt_succ_of_le (Nat.le_of_lt this)
        · simp only [Option.map_eq_some_iff, Prod.mk.injEq] at h
          obtain ⟨⟨s, after⟩, hs, -, rfl⟩ := h
          exact Symbol.length_lt_of_read? hs

/-! ### The stream -/

/-- The tokens of a text, if it consists of tokens and blanks. -/
def list? (cs : List Char) : Option (List Token) :=
  match _h : cs.dropWhile isBlank with
  | [] => some []
  | c :: rest =>
    match _hr : read? (c :: rest) with
    | none => none
    | some (t, after) => (list? after).map (t :: ·)
termination_by cs.length
decreasing_by
  have hl := length_lt_of_read? _hr
  have hb := length_dropWhile_le isBlank cs
  rw [_h] at hb
  omega

/-- A text of nothing but blanks has no tokens. -/
theorem list?_blank {cs : List Char} (h : cs.dropWhile isBlank = []) : list? cs = some [] := by
  rw [list?]
  split
  · rfl
  · simp_all

/-- The first token comes after the blanks, and the others are those of what is left. -/
theorem list?_cons {cs after : List Char} {t : Token}
    (h : read? (cs.dropWhile isBlank) = some (t, after)) :
    list? cs = (list? after).map (t :: ·) := by
  rw [list?]
  split
  · rename_i hd
    rw [hd] at h
    simp [read?, Numeral.read?] at h
  · rename_i hd
    rw [hd] at h
    split <;> simp_all

/-- A text that goes on with no token has no tokens at all. -/
theorem list?_none {cs : List Char} (hne : cs.dropWhile isBlank ≠ [])
    (h : read? (cs.dropWhile isBlank) = none) : list? cs = none := by
  rw [list?]
  split
  · contradiction
  · rename_i hd
    rw [hd] at h
    split <;> simp_all

end Token

end Reckoner
