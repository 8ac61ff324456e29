import Peg.Expr.Render
import Peg.Grammar.Error

/-!
The record of what a grammar and its matches do. Events are kept as data; their
lines are made when somebody reads them.
-/

namespace Peg

/-- How much an event matters. -/
inductive Severity where
  | trace
  | debug
  | warn
deriving DecidableEq

/-- The name of a severity as a line begins with it. -/
def Severity.label : Severity → String
  | trace => "TRACE"
  | debug => "DEBUG"
  | warn => "WARN"

/-- What can happen while a grammar is built or matched. -/
inductive Event where
  /-- A rule was called at a position. -/
  | entered (rule : String) (start : Nat)
  /-- The call ended, having matched up to `stop`. -/
  | matched (rule : String) (start stop : Nat)
  /-- The call ended in a mismatch at `pos`. -/
  | failed (rule : String) (pos : Nat)
  /-- A repetition ended because its body matched nothing. -/
  | idleBody (body : Expr) (pos : Nat)
  /-- A run of operators after an operand ended because the last matched nothing. -/
  | idlePostfixOp (pos : Nat)
  /-- A run of operators between operands ended because the last, with its
  operand, matched nothing. -/
  | idleInfixOp (pos : Nat)
  /-- A precedence rule was split into levels. -/
  | levelsMade (rule : String) (count : Nat)
  /-- A mistake was found in a grammar. -/
  | mistake (error : GrammarError)
  /-- A grammar was built. -/
  | built (name : String) (rules levels : Nat) (entry : String)

namespace Event

def severity : Event → Severity
  | entered .. | matched .. | failed .. => .trace
  | idleBody .. | idlePostfixOp .. | idleInfixOp .. => .warn
  | levelsMade .. | mistake .. | built .. => .debug

def message : Event → String
  | entered rule start => s!"enter `{rule}` at {start}"
  | matched rule start stop => s!"`{rule}` matched {start}..{stop}"
  | failed rule pos => s!"`{rule}` failed at {pos}"
  | idleBody body pos =>
    s!"`{body}` matched without consuming input at {pos}, ending repetition"
  | idlePostfixOp pos => s!"postfix operator matched without consuming input at {pos}"
  | idleInfixOp pos => s!"infix operator matched without consuming input at {pos}"
  | levelsMade rule count => s!"precedence rule `{rule}` synthesized {count} levels"
  | mistake error => "grammar error: " ++ error.message
  | built name rules levels entry =>
    "built rule set " ++ Text.quote name ++
      s!": {rules} rules ({levels} synthesized), entrypoint `{entry}`"

/-- The event as one line of a record. -/
def line (event : Event) : String :=
  event.severity.label ++ " " ++ event.message

end Event

end Peg
