/-!
# Carets

A caret is another way to write the power sign `**`. It is rewritten wherever it
stands, and a text without one stays as it is.
-/

namespace Reckoner.Text

/-- Every `^` becomes `**`, in quoted texts too. -/
def expandCarets : List Char → List Char
  | [] => []
  | '^' :: cs => '*' :: '*' :: expandCarets cs
  | c :: cs => c :: expandCarets cs

/-- The text with `**` for every `^`. -/
def normalize (text : String) : String := String.ofList (expandCarets text.toList)

/-- Whether normalizing rewrites anything. -/
def hasCaret (text : String) : Bool := text.toList.contains '^'

@[simp] theorem expandCarets_nil : expandCarets [] = [] := rfl

@[simp] theorem expandCarets_caret (cs : List Char) :
    expandCarets ('^' :: cs) = '*' :: '*' :: expandCarets cs := rfl

theorem expandCarets_cons {c : Char} (h : c ≠ '^') (cs : List Char) :
    expandCarets (c :: cs) = c :: expandCarets cs := by
  simp [expandCarets]

theorem expandCarets_append (cs ds : List Char) :
    expandCarets (cs ++ ds) = expandCarets cs ++ expandCarets ds := by
  induction cs with
  | nil => rfl
  | cons c cs ih =>
    by_cases h : c = '^'
    · subst h
      simp [ih]
    · simp [expandCarets_cons h, ih]

/-- No caret is left. -/
theorem caret_notMem_expandCarets (cs : List Char) : '^' ∉ expandCarets cs := by
  induction cs with
  | nil => simp
  | cons c cs ih =>
    by_cases h : c = '^'
    · subst h
      simpa using ih
    · simpa [expandCarets_cons h, ih] using fun e => h e.symm

/-- A text without carets stays as it is. -/
theorem expandCarets_of_notMem {cs : List Char} (h : '^' ∉ cs) : expandCarets cs = cs := by
  induction cs with
  | nil => rfl
  | cons c cs ih =>
    simp only [List.mem_cons, not_or] at h
    rw [expandCarets_cons fun e => h.1 e.symm, ih h.2]

end Reckoner.Text
