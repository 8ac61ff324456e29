/-!
Mistakes in a grammar, found when it is built.
-/

namespace Peg

/-- What can be wrong with the definitions of a grammar. -/
inductive GrammarError where
  /-- A rule refers to a name that no rule has. -/
  | unknownRule (name referrer : String)
  /-- A name is defined more than once. -/
  | duplicateRule (name : String)
  /-- A precedence rule has no atoms. -/
  | missingAtoms (name : String)
  /-- A precedence rule has an operator level after an atom. -/
  | misplacedAtom (name : String)
  /-- An action expects a name that no label around it binds. -/
  | unknownCapture (rule action name : String)
  /-- The rule to start with does not exist. -/
  | unknownEntry (name : String)
  /-- There are no definitions. -/
  | empty
deriving DecidableEq

namespace GrammarError

def message : GrammarError → String
  | unknownRule name referrer => s!"Rule `{name}` referenced from `{referrer}` is not defined"
  | duplicateRule name => s!"Duplicate rule name `{name}`"
  | missingAtoms name => s!"Precedence rule `{name}` has no atoms"
  | misplacedAtom name =>
    s!"Precedence rule `{name}` has an atom before an operator level, atoms must come last"
  | unknownCapture rule action name =>
    s!"Action `{action}` in rule `{rule}` expects capture `{name}` which no label provides"
  | unknownEntry name => s!"Entrypoint `{name}` not found"
  | empty => "Rule set contains no rules"

/-- The report on all errors of a grammar, one on a line. -/
def report (errors : List GrammarError) : String :=
  String.intercalate "\n" (errors.map message)

end GrammarError

end Peg
