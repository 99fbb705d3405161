import Reckoner.Numeral

/-!
# Tokens

The pieces that a text consists of: number literals, quoted texts, names,
keywords and signs. Each token is the longest one that starts where it does.
-/

namespace Reckoner

/-- The words that cannot be names. -/
inductive Keyword where
  | and
  | or
  | not
  | lambda
  deriving DecidableEq

namespace Keyword

/-- The spelling of the keyword. -/
def spelling : Keyword → String
  | .and => "and"
  | .or => "or"
  | .not => "not"
  | .lambda => "lambda"

/-- Every keyword once. -/
def all : List Keyword := [.and, .or, .not, .lambda]

/-- The keyword that is spelled that way. -/
def ofWord? (w : String) : Option Keyword := all.find? (spelling · = w)

theorem ofWord?_spelling (k : Keyword) : ofWord? k.spelling = some k := by
  cases k <;> rfl

end Keyword

/-- The signs of one or two characters. -/
inductive Symbol where
  | plus
  | minus
  | star
  | slash
  | percent
  | power
  | greater
  | less
  | greaterOrEqual
  | lessOrEqual
  | equal
  | notEqual
  | assign
  | comma
  | colon
  | dot
  | openParen
  | closeParen
  | openBracket
  | closeBracket
  deriving DecidableEq

namespace Symbol

/-- The characters of the sign. -/
def spelling : Symbol → List Char
  | .plus => ['+']
  | .minus => ['-']
  | .star => ['*']
  | .slash => ['/']
  | .percent => ['%']
  | .power => ['*', '*']
  | .greater => ['>']
  | .less => ['<']
  | .greaterOrEqual => ['>', '=']
  | .lessOrEqual => ['<', '=']
  | .equal => ['=', '=']
  | .notEqual => ['!', '=']
  | .assign => ['=']
  | .comma => [',']
  | .colon => [':']
  | .dot => ['.']
  | .openParen => ['(']
  | .closeParen => [')']
  | .openBracket => ['[']
  | .closeBracket => [']']

/-- The sign of one character, if there is one. -/
def ofChar? : Char → Option Symbol
  | '+' => some .plus
  | '-' => some .minus
  | '*' => some .star
  | '/' => some .slash
  | '%' => some .percent
  | '>' => some .greater
  | '<' => some .less
  | '=' => some .assign
  | ',' => some .comma
  | ':' => some .colon
  | '.' => some .dot
  | '(' => some .openParen
  | ')' => some .closeParen
  | '[' => some .openBracket
  | ']' => some .closeBracket
  | _ => none

/-- The sign of two characters, if there is one. -/
def ofChars? : Char → Char → Option Symbol
  | '*', '*' => some .power
  | '>', '=' => some .greaterOrEqual
  | '<', '=' => some .lessOrEqual
  | '=', '=' => some .equal
  | '!', '=' => some .notEqual
  | _, _ => none

/-- Reads the longest sign that the text starts with. -/
def read? : List Char → Option (Symbol × List Char)
  | c :: d :: cs =>
    match ofChars? c d with
    | some s => some (s, cs)
    | none => (ofChar? c).map (·, d :: cs)
  | [c] => (ofChar? c).map (·, [])
  | [] => none

end Symbol

/-- A piece of a text. -/
inductive Token where
  | number (n : Numeral)
  | text (body : String)
  | name (id : String)
  | keyword (k : Keyword)
  | symbol (s : Symbol)
  deriving DecidableEq

/-- The characters a word can start with. -/
def Token.startsWord (c : Char) : Bool := c.isAlpha || c = '_'

/-- The characters a word can go on with. -/
def Token.continuesWord (c : Char) : Bool := c.isAlphanum || c = '_'

/-- The quotes around a text. -/
def Token.isQuote (c : Char) : Bool := c = '\'' || c = '"'

/-- The characters that may stand between tokens. -/
def Token.isBlank (c : Char) : Bool := c = ' ' || c = '\t' || c = '\r' || c = '\n'

namespace Token

/-- A word is a keyword or a name. -/
def ofWord (w : List Char) : Token :=
  match Keyword.ofWord? (String.ofList w) with
  | some k => .keyword k
  | none => .name (String.ofList w)

/-- Reads the token that the text starts with.

A point with a digit after it starts a number. A text ends at the first quote like
the one that opened it, and nothing in it is escaped. -/
def read? (cs : List Char) : Option (Token × List Char) :=
  match Numeral.read? cs with
  | some (n, rest) => some (.number n, rest)
  | none =>
    match cs with
    | [] => none
    | c :: rest =>
      if startsWord c then
        some (ofWord (c :: rest.takeWhile continuesWord), rest.dropWhile continuesWord)
      else if isQuote c then
        match rest.dropWhile (· ≠ c) with
        | [] => none
        | _ :: after => some (.text (String.ofList (rest.takeWhile (· ≠ c))), after)
      else (Symbol.read? (c :: rest)).map fun (s, after) => (.symbol s, after)

end Token

end Reckoner
