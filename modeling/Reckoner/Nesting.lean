import Reckoner.Text.White
import Reckoner.Token

/-!
# How deep a text could nest

Before a text is read as an expression, its brackets and operators bound the depth
of the tree. A level is what stands between a bracket and its partner; its bound is
the number of its operators and the greatest bound of a level inside, and one more.
The scan gives up early once the levels still open leave no room.
-/

namespace Reckoner.Nesting

/-! ### What counts -/

/-- The parts of a text that can make a tree deeper. -/
inductive Mark where
  | opening
  | closing
  | operator
  deriving DecidableEq

/-- The characters that are operators wherever they stand. -/
def isOperator (c : Char) : Bool :=
  c = '+' || c = '-' || c = '/' || c = '%' || c = '<' || c = '>' || c = '!'

/-- Whether an assignment sign that follows this character belongs to it. -/
def joinsEqual (c : Char) : Bool := c = '=' || c = '!' || c = '<' || c = '>'

/-- Whether a name stands next, so that a point before it reaches for an attribute. -/
def nameFollows (cs : List Char) : Bool := cs.head?.any Token.startsWord

/-- Some marks if a condition holds. -/
def markIf (b : Bool) (m : Mark) : List Mark := if b then [m] else []

/-- The mark of a character that is no part of a word, a quoted text or an attribute.

The second star of two and the second sign of a comparison do not count again. -/
def markOf (previous c : Char) : List Mark :=
  if c = '(' || c = '[' then [.opening]
  else if c = ')' || c = ']' then [.closing]
  else markIf (isOperator c || (c = '*' && previous ≠ '*') || (c = '=' && !joinsEqual previous))
    .operator

/-- The marks of a text, given the character before it.

Quoted texts are skipped up to the closing quote. A word counts if it is a keyword,
a point if a name follows, and of a word or a quoted text only its first character
is remembered as the one before. -/
def marks (previous : Char) : List Char → List Mark
  | [] => []
  | c :: cs =>
    if Token.isQuote c then marks c (cs.dropWhile (· ≠ c)).tail
    else if Token.startsWord c then
      markIf (Keyword.ofWord? (String.ofList (c :: cs.takeWhile Token.continuesWord))).isSome .operator
        ++ marks c (cs.dropWhile Token.continuesWord)
    else if c = '.' then
      markIf (nameFollows (cs.dropWhile Text.isWhite)) .operator ++ marks c (cs.dropWhile Text.isWhite)
    else markOf previous c ++ marks c cs
termination_by cs => cs.length
decreasing_by
  all_goals simp only [List.length_cons, List.length_tail]
  · have := (List.dropWhile_sublist (· ≠ c) (l := cs)).length_le
    omega
  · have := (List.dropWhile_sublist Token.continuesWord (l := cs)).length_le
    omega
  · have := (List.dropWhile_sublist Text.isWhite (l := cs)).length_le
    omega
  · omega

/-! ### Levels -/

/-- A level that is still open: its operators so far and the greatest bound inside it. -/
structure Level where
  operators : Nat := 0
  inner : Nat := 0
  deriving DecidableEq

/-- The depth that a level can reach. -/
def Level.bound (l : Level) : Nat := l.operators + l.inner + 1

/-- The level after a level inside it has been closed. -/
def Level.enclose (l closed : Level) : Level := { l with inner := max l.inner closed.bound }

/-- The innermost open level and the levels around it. -/
structure Scan where
  current : Level := {}
  enclosing : List Level := []
  deriving DecidableEq

namespace Scan

/-- A closing bracket without a partner is passed over. -/
def step (s : Scan) : Mark → Scan
  | .opening => ⟨{}, s.current :: s.enclosing⟩
  | .closing =>
    match s.enclosing with
    | [] => s
    | parent :: rest => ⟨parent.enclose s.current, rest⟩
  | .operator => ⟨{ s.current with operators := s.current.operators + 1 }, s.enclosing⟩

/-- Whether the open levels leave room for one more under the limit. -/
def hasRoom (limit : Nat) (s : Scan) : Bool :=
  s.current.operators + s.enclosing.length < limit

/-- The bound of the whole text once all open levels are closed. -/
def bound (s : Scan) : Nat := (s.enclosing.foldl (fun l parent => parent.enclose l) s.current).bound

/-- Goes on with the scan, and gives up as soon as there is no room. -/
def fits (limit : Nat) : Scan → List Mark → Bool
  | s, [] => s.bound ≤ limit
  | s, m :: ms => (s.step m).hasRoom limit && (s.step m).fits limit ms

end Scan

/-- Whether the text passes the scan under a limit. -/
def fits (limit : Nat) (cs : List Char) : Bool := Scan.fits limit {} (marks ' ' cs)

end Reckoner.Nesting
