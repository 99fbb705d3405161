import Reckoner.Presentation
import Reckoner.Text.Lowercase

/-!
# A session with the calculator

The calculator greets, then answers line by line until the user leaves or the
lines end. It remembers the results it has shown until they are cleared.
-/

namespace Reckoner

/-- What a line asks for. -/
inductive Command where
  | nothing
  | leave
  | history
  | clear
  | calculate (text : String)
  deriving DecidableEq

/-- The meaning of a line, whatever white space is around it and whatever its case. -/
def Command.ofLine (line : String) : Command :=
  match String.ofList (Text.lowercase (Text.trim line.toList)) with
  | "" => .nothing
  | "quit" => .leave
  | "exit" => .leave
  | "history" => .history
  | "clear" => .clear
  | text => .calculate text

/-- The results shown so far, the oldest first. -/
structure Session where
  records : List String := []
  deriving DecidableEq

namespace Session

/-- A text as a line of output. -/
def outputLine (s : String) : String := s ++ "\n"

/-- What is shown before the first prompt. -/
def greeting : String :=
  outputLine
    "Operators: + - * / % ** ^   Functions: sqrt sin cos tan log log10   Constants: pi e"
    ++ outputLine "Commands: history, clear, quit"

/-- What is shown before each line is read. -/
def prompt : String := "> "

/-- The records from the given number on, each on a line after its number. -/
def numbered : Nat → List String → String
  | _, [] => ""
  | n, r :: rs =>
    outputLine (String.ofList ((digits n).leftpad 3 ' ') ++ ". " ++ r) ++ numbered (n + 1) rs

/-- What is shown for the records. -/
def historyText (s : Session) : String :=
  if s.records = [] then outputLine "(no calculations yet)" else numbered 1 s.records

/-- A result as it is shown and remembered. -/
def recordText (text : String) (x : Float) : String := text ++ " = " ++ resultText x

/-- The answer to a command, and the session after it. -/
def answer (s : Session) : Command → String × Session
  | .nothing => (outputLine "input cannot be empty", s)
  | .leave => ("", s)
  | .history => (s.historyText, s)
  | .clear => (outputLine "history cleared", {})
  | .calculate text =>
    match Reckoner.calculate text with
    | .ok x => (outputLine (recordText text x), ⟨s.records ++ [recordText text x]⟩)
    | .error r => (outputLine ("error: " ++ r.explanation), s)

/-- Everything shown from the next prompt on, for these lines of input. -/
def run (s : Session) : List String → String
  | [] => prompt
  | line :: lines =>
    match Command.ofLine line with
    | .leave => prompt
    | c => prompt ++ (s.answer c).1 ++ (s.answer c).2.run lines

/-- Everything shown in a session with these lines of input. -/
def transcript (lines : List String) : String := greeting ++ run {} lines

end Session

end Reckoner
