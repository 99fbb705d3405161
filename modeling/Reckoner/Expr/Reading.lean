import Reckoner.Grammar
import Reckoner.Nesting
import Reckoner.Policy
import Reckoner.Refusal
import Reckoner.Text.Caret
import Reckoner.Token.Stream

/-!
# Reading expressions

A text is refused when it is blank, when its nesting could exceed the limit, when
the grammar has no such expression, when a literal is too large, and when the tree
is too deep; the first of these is reported. Under a policy the length is limited
too, and `^` is another spelling of `**`.
-/

namespace Reckoner

/-- The first number literal that is beyond the largest double. -/
def Token.firstLarge? : List Token → Option Numeral
  | [] => none
  | .number n :: ts => if n.value.isFinite then firstLarge? ts else some n
  | _ :: ts => firstLarge? ts

namespace Expr

/-- The tree of a text, at most `limit` levels deep. -/
def ofChars (limit : Nat) (cs : List Char) : Except Fault Expr :=
  if cs.all Text.isWhite then .error .empty
  else if !Nesting.fits limit cs then .error (.nested limit)
  else
    match Token.list? cs with
    | none => .error .malformed
    | some ts =>
      match Grammar.parse? ts with
      | none => .error .malformed
      | some e =>
        match Token.firstLarge? ts with
        | some n => .error (.large (String.ofList n.spelling))
        | none => if limit < e.depth then .error (.deep e.depth limit) else .ok e

/-- The tree of a text, at most `limit` levels deep; a refusal quotes the text. -/
def parse (limit : Nat) (text : String) : Except Refusal Expr :=
  (ofChars limit text.toList).mapError (.unreadable text)

end Expr

/-! ### Under a policy -/

/-- The tree of a text under a policy; a refusal quotes the text as it was given. -/
def Policy.parse (p : Policy) (text : String) : Except Refusal Expr :=
  if p.maxLength < text.length then
    .error (.unreadable text (.long text.length p.maxLength))
  else (Expr.ofChars p.maxDepth (Text.expandCarets text.toList)).mapError (.unreadable text)

end Reckoner
