import Peg.Captures
import Peg.Text.Quoted

/-!
Semantic actions. An action turns what was matched into a value; it sees the
whole input and the names bound where it stands. Its source text takes no part
in matching and appears only where a grammar is written out.
-/

namespace Peg

/-- What an action sees beside the matched value. -/
structure ActionContext where
  input : Bytes
  captures : Captures

namespace ActionContext

def capture? (context : ActionContext) (name : String) : Option Value :=
  context.captures.get? name

/-- The text of a value of this match. -/
def text (context : ActionContext) (value : Value) : Except Fault String :=
  value.text context.input

/-- The text of a bound name, empty for a name that is not bound. -/
def captureText (context : ActionContext) (name : String) : Except Fault String :=
  match context.capture? name with
  | some value => context.text value
  | none => .ok ""

end ActionContext

/-- An action on a matched expression. `captures` are the names it expects
labels to bind. -/
structure Action where
  source : String
  captures : List String
  run : ActionContext → Value → Except Fault Value

/-- An action of an operator with one operand: given the matched parts, then
the operand. -/
structure UnaryAction where
  source : String
  run : ActionContext → Value → Value → Except Fault Value

/-- An action of an operator between two operands: given the matched parts,
then the left and the right operand. -/
structure BinaryAction where
  source : String
  run : ActionContext → Value → Value → Value → Except Fault Value

/-- The description of an action for people. -/
def Action.describe (action : Action) : String :=
  "ActionFunc \x7b source: " ++ Text.quote action.source ++ ", names: [" ++
    String.intercalate ", " (action.captures.map Text.quote) ++ "], .. \x7d"

def UnaryAction.describe (action : UnaryAction) : String :=
  "UnaryFn(" ++ Text.quote action.source ++ ")"

def BinaryAction.describe (action : BinaryAction) : String :=
  "InfixFn(" ++ Text.quote action.source ++ ")"

end Peg
