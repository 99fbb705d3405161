import Reckoner.Session

/-!
# The interactive calculator

Reads lines from the standard input and shows what the session answers.
-/

namespace Reckoner

/-- Shows the prompt and answers lines until the user leaves or there is no further line. -/
partial def Session.interact (s : Session) (input output : IO.FS.Stream) : IO Unit := do
  output.putStr prompt
  output.flush
  let line ← input.getLine
  if line.isEmpty then return
  match Command.ofLine line with
  | .leave => return
  | c =>
    let (shown, next) := s.answer c
    output.putStr shown
    next.interact input output

end Reckoner

/-- The calculator on the standard streams; a stream that fails ends the session. -/
def main : IO Unit := do
  let input ← IO.getStdin
  let output ← IO.getStdout
  output.putStr Reckoner.Session.greeting
  try
    Reckoner.Session.interact {} input output
  catch _ =>
    return
