import Reckoner.Evaluation
import Reckoner.Text.Quoted

/-!
# The journal of a calculation

Every evaluation of a text leaves two entries: one when it starts and one with its
outcome. A forbidden construct is a warning, everything else is there for debugging.
-/

namespace Reckoner

/-- How much an entry matters. -/
inductive Severity where
  | debug
  | warning
  deriving DecidableEq

/-- A line of the journal. -/
structure Entry where
  severity : Severity
  message : String
  deriving DecidableEq

namespace Entry

/-- The entry at the start of an evaluation. -/
def started (m : Mode) (text : String) : Entry :=
  ⟨.debug, "Evaluating " ++ Text.quoted text ++ " in " ++ m.label ++ " mode"⟩

/-- The entry for the outcome of an evaluation. -/
def finished (text : String) : Except Refusal Float → Entry
  | .ok x => ⟨.debug, Text.quoted text ++ " = " ++ numberText x⟩
  | .error (.forbidden c) => ⟨.warning, "Rejected expression " ++ Text.quoted text ++ ": " ++ c.message⟩
  | .error r => ⟨.debug, Text.quoted text ++ " failed (" ++ r.category ++ "): " ++ r.message⟩

end Entry

/-- The value of a text and the journal of its evaluation. -/
def Policy.evaluateLogged (p : Policy) (m : Mode) (text : String) :
    Except Refusal Float × List Entry :=
  let outcome := p.evaluate m text
  (outcome, [.started m text, .finished text outcome])

end Reckoner
