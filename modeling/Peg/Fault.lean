/-!
Faults: uses of the library that break a rule its caller has to keep. A fault
ends the operation it happens in; it is not a failed match and nothing
backtracks over it.
-/

namespace Peg

/-- The ways in which an operation can be misused. -/
inductive Fault where
  /-- A cursor was sent past the end of its input. -/
  | outOfBounds (pos : Nat)
  /-- A span was to end before it starts. -/
  | invertedSpan
  /-- The content of a span was taken from an input too short for it. -/
  | sliceOutsideInput
  /-- A rule reference was followed that no grammar has bound. -/
  | unresolvedRule (name : String)
  /-- A bound rule reference was followed outside its grammar. -/
  | noGrammar (handle : Nat)
  /-- A handle was followed that the grammar has no rule for. -/
  | missingRule (handle : Nat)
  /-- A precedence rule without levels was called. -/
  | noLevels (rule : String)
deriving DecidableEq

/-- What is reported for a fault, where there is something to report. -/
def Fault.message? : Fault → Option String
  | .outOfBounds pos => some s!"Position {pos} is out of bounds"
  | .invertedSpan => some "Token ends before it starts"
  | .unresolvedRule name => some s!"Rule `{name}` was never resolved"
  | .noGrammar handle => some s!"Rule RuleHandle({handle}) called without a rule set"
  | .sliceOutsideInput | .missingRule _ | .noLevels _ => none

end Peg
