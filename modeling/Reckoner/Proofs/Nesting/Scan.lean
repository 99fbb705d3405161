import Reckoner.Nesting

/-!
# The scan computes a bound

The bound of the scan never falls, a mark raises it by one at most, and the levels that
are open always leave it the room that the early exit asks for. So giving up early
changes nothing: a text passes if and only if the bound at its end is within the limit
(`fits_iff`).
-/

namespace Reckoner.Nesting

namespace Level

/-- No more operators and no greater bound inside. -/
def Below (a b : Level) : Prop := a.operators ≤ b.operators ∧ a.inner ≤ b.inner

theorem Below.refl (a : Level) : a.Below a := ⟨Nat.le_refl _, Nat.le_refl _⟩

theorem Below.bound_le {a b : Level} (h : a.Below b) : a.bound ≤ b.bound := by
  have := h.1
  have := h.2
  unfold bound
  omega

theorem Below.enclose {a b c d : Level} (h : a.Below b) (h' : c.Below d) :
    (a.enclose c).Below (b.enclose d) := by
  have := h'.bound_le
  have := h.2
  refine ⟨h.1, ?_⟩
  simp only [Level.enclose]
  omega

end Level

namespace Scan

variable {s t : Scan} {limit : Nat}

/-- The scan after some marks. -/
def run (s : Scan) (ms : List Mark) : Scan := ms.foldl step s

@[simp] theorem run_nil : s.run [] = s := rfl

@[simp] theorem run_cons {m : Mark} {ms : List Mark} : s.run (m :: ms) = (s.step m).run ms := rfl

theorem run_append (s : Scan) (ms ns : List Mark) : s.run (ms ++ ns) = (s.run ms).run ns :=
  List.foldl_append

/-- The outermost level once the levels inside it are closed. -/
def closed (current : Level) (enclosing : List Level) : Level :=
  enclosing.foldl (fun l parent => parent.enclose l) current

theorem bound_eq (s : Scan) : s.bound = (closed s.current s.enclosing).bound := rfl

theorem closed_below {a b : Level} (h : a.Below b) (ls : List Level) :
    (closed a ls).Below (closed b ls) := by
  induction ls generalizing a b with
  | nil => exact h
  | cons l ls ih => exact ih ((Level.Below.refl l).enclose h)

/-- A level that is one deeper makes the bound greater by one at most. -/
theorem closed_bound_le_succ {a b : Level} (h : a.bound ≤ b.bound + 1) (ls : List Level) :
    (closed a ls).bound ≤ (closed b ls).bound + 1 := by
  induction ls generalizing a b with
  | nil => exact h
  | cons l ls ih =>
    refine ih ?_
    simp only [Level.enclose, Level.bound] at h ⊢
    omega

theorem closed_bound_ge (a : Level) (ls : List Level) :
    a.bound + ls.length ≤ (closed a ls).bound := by
  induction ls generalizing a with
  | nil => exact Nat.le_refl _
  | cons l ls ih =>
    have := ih (l.enclose a)
    simp only [closed, List.foldl_cons, List.length_cons] at this ⊢
    have hl : a.bound + 1 ≤ (l.enclose a).bound := by
      simp only [Level.enclose, Level.bound]
      omega
    omega

/-! ### One mark -/

theorem bound_step_opening (current : Level) (enclosing : List Level) :
    (step ⟨current, enclosing⟩ .opening).bound
      = (closed (current.enclose {}) enclosing).bound := rfl

theorem bound_step_closing (s : Scan) : (s.step .closing).bound = s.bound := by
  obtain ⟨current, enclosing⟩ := s
  cases enclosing <;> rfl

theorem bound_step_operator (current : Level) (enclosing : List Level) :
    (step ⟨current, enclosing⟩ .operator).bound
      = (closed ⟨current.operators + 1, current.inner⟩ enclosing).bound := rfl

theorem bound_le_step (s : Scan) (m : Mark) : s.bound ≤ (s.step m).bound := by
  obtain ⟨current, enclosing⟩ := s
  cases m with
  | opening =>
    rw [bound_step_opening]
    refine Level.Below.bound_le (closed_below ?_ enclosing)
    exact ⟨Nat.le_refl _, Nat.le_max_left _ _⟩
  | closing => exact Nat.le_of_eq (bound_step_closing _).symm
  | operator =>
    rw [bound_step_operator]
    refine Level.Below.bound_le (closed_below ?_ enclosing)
    exact ⟨Nat.le_succ _, Nat.le_refl _⟩

theorem bound_step_le (s : Scan) (m : Mark) : (s.step m).bound ≤ s.bound + 1 := by
  obtain ⟨current, enclosing⟩ := s
  cases m with
  | opening =>
    rw [bound_step_opening]
    refine closed_bound_le_succ ?_ enclosing
    simp only [Level.enclose, Level.bound]
    omega
  | closing => exact Nat.le_succ_of_le (Nat.le_of_eq (bound_step_closing _))
  | operator =>
    rw [bound_step_operator]
    refine closed_bound_le_succ ?_ enclosing
    simp only [Level.bound]
    omega

/-! ### All marks -/

theorem bound_le_run (s : Scan) (ms : List Mark) : s.bound ≤ (s.run ms).bound := by
  induction ms generalizing s with
  | nil => exact Nat.le_refl _
  | cons m ms ih => exact Nat.le_trans (s.bound_le_step m) (ih _)

theorem bound_run_le (s : Scan) (ms : List Mark) : (s.run ms).bound ≤ s.bound + ms.length := by
  induction ms generalizing s with
  | nil => exact Nat.le_refl _
  | cons m ms ih =>
    have := ih (s.step m)
    have := s.bound_step_le m
    simp only [run_cons, List.length_cons]
    omega

/-- A scan within the limit has room. -/
theorem hasRoom_of_bound_le (h : s.bound ≤ limit) : s.hasRoom limit = true := by
  have := closed_bound_ge s.current s.enclosing
  rw [← bound_eq] at this
  simp only [Level.bound, hasRoom, decide_eq_true_eq] at this ⊢
  omega

/-- Giving up early is right: the scan passes if the bound at its end is within the limit. -/
theorem fits_iff {ms : List Mark} : s.fits limit ms = true ↔ (s.run ms).bound ≤ limit := by
  induction ms generalizing s with
  | nil => simp [fits]
  | cons m ms ih =>
    rw [fits, Bool.and_eq_true, ih, run_cons]
    refine ⟨And.right, fun h => ⟨?_, h⟩⟩
    exact hasRoom_of_bound_le (Nat.le_trans (bound_le_run _ ms) h)

end Scan

/-- The bound that the scan computes for a text. -/
def bound (cs : List Char) : Nat := (Scan.run {} (marks ' ' cs)).bound

theorem fits_iff {limit : Nat} {cs : List Char} : fits limit cs = true ↔ bound cs ≤ limit :=
  Scan.fits_iff

/-! ### Short texts -/

theorem length_markOf_le (previous c : Char) : (markOf previous c).length ≤ 1 := by
  unfold markOf
  split
  · exact Nat.le_refl _
  · split
    · exact Nat.le_refl _
    · unfold markIf
      split <;> simp

theorem length_marks_le (previous : Char) (cs : List Char) :
    (marks previous cs).length ≤ cs.length := by
  have hif (b : Bool) (m : Mark) : (markIf b m).length ≤ 1 := by
    unfold markIf
    split <;> simp
  have hdrop (p : Char → Bool) (ds : List Char) : (ds.dropWhile p).length ≤ ds.length :=
    (List.dropWhile_sublist p).length_le
  fun_induction marks previous cs with
  | case1 => exact Nat.zero_le _
  | case2 previous c cs hq ih =>
    have := hdrop (· ≠ c) cs
    simp only [List.length_tail, List.length_cons] at ih ⊢
    omega
  | case3 previous c cs hq hw ih =>
    have := hdrop Token.continuesWord cs
    have := hif (Keyword.ofWord? (String.ofList (c :: cs.takeWhile Token.continuesWord))).isSome
      .operator
    simp only [List.length_append, List.length_cons]
    omega
  | case4 previous cs hq hw ih =>
    have := hdrop Text.isWhite cs
    have := hif (nameFollows (cs.dropWhile Text.isWhite)) .operator
    simp only [List.length_append, List.length_cons]
    omega
  | case5 previous c cs hq hw hp ih =>
    have := length_markOf_le previous c
    simp only [List.length_append, List.length_cons]
    omega

/-- The bound of a text is at most one more than its length. -/
theorem bound_le_length (cs : List Char) : bound cs ≤ cs.length + 1 := by
  have h := Scan.bound_run_le {} (marks ' ' cs)
  have hlength := length_marks_le ' ' cs
  have hstart : Scan.bound {} = 1 := rfl
  unfold bound
  omega

end Reckoner.Nesting
