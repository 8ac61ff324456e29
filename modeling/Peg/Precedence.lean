import Peg.Grammar.Error
import Peg.Operators

/-!
Precedence rules: operator levels from the loosest to the tightest, then the
atoms that the operators work on.
-/

namespace Peg

/-- An item of a precedence rule. -/
inductive PrecedenceItem where
  | operators (level : OperatorLevel)
  | atom (e : Expr)

namespace PrecedenceItem

def level? : PrecedenceItem → Option OperatorLevel
  | operators level => some level
  | atom _ => none

def atom? : PrecedenceItem → Option Expr
  | operators _ => none
  | atom e => some e

end PrecedenceItem

/-- A named list of levels and atoms. It is well formed when there is an atom
and no level stands after one. -/
structure PrecedenceRule where
  name : String
  items : List PrecedenceItem

namespace PrecedenceRule

def levels (rule : PrecedenceRule) : List OperatorLevel :=
  rule.items.filterMap PrecedenceItem.level?

def atoms (rule : PrecedenceRule) : List Expr :=
  rule.items.filterMap PrecedenceItem.atom?

/-- Whether some level stands after an atom. -/
def hasMisplacedAtom (rule : PrecedenceRule) : Bool :=
  (rule.items.dropWhile (·.level?.isSome)).any (·.level?.isSome)

/-- What keeps the rule from being well formed. -/
def errors (rule : PrecedenceRule) : List GrammarError :=
  (if rule.hasMisplacedAtom then [.misplacedAtom rule.name] else []) ++
    (if rule.atoms = [] then [.missingAtoms rule.name] else [])

/-- The atoms as one expression: the only one itself, several as a choice. -/
def atom (rule : PrecedenceRule) : Expr :=
  match rule.atoms with
  | [e] => e
  | es => .choice es

/-- The name of a level. The levels are counted from the loosest on, and the
atoms count as the level after the last. -/
def levelName (name : String) (i : Nat) : String :=
  s!"{name}_{i}"

/-- A precedence rule as a grammar writes it, from its levels and atoms. -/
def renderParts (name : String) (levels : List OperatorLevel) (atoms : List Expr) : String :=
  name ++ " <-" ++ String.join (levels.map OperatorLevel.render) ++ "\n  |--\n  | " ++
    String.intercalate "\n  | " (atoms.map (Expr.render false))

/-- The rule as a grammar writes it, whether well formed or not. -/
def render (rule : PrecedenceRule) : String :=
  renderParts rule.name rule.levels rule.atoms

end PrecedenceRule

end Peg
