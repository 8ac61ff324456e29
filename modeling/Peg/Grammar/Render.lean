import Peg.Grammar

/-!
Grammars written out. Levels appear inside their precedence rule, so the text
of a grammar is the text of its definitions.
-/

namespace Peg

/-- The operators of a rule that is a level. -/
def Rule.operators? (rule : Rule) : Option OperatorLevel :=
  match rule.body with
  | .level operators _ => some operators
  | _ => none

/-- The atoms that a rule chooses from: the alternatives of a choice, or the one
expression of a rule that is no choice. -/
def Rule.atoms (rule : Rule) : List Expr :=
  match rule.body with
  | .expr (.choice es) => es
  | .expr e => [e]
  | _ => []

namespace Grammar

/-- One rule: a plain one with its expression, a precedence rule with all of
its levels, a level with its operators. -/
def renderRule (grammar : Grammar) (rule : Rule) : String :=
  match rule.body with
  | .expr e => rule.name ++ " <- " ++ e.render false
  | .precedence handles =>
    let levels := handles.filterMap (grammar.rules[·]?)
    PrecedenceRule.renderParts rule.name (levels.filterMap Rule.operators?)
      (levels.flatMap Rule.atoms)
  | .level operators _ => rule.name ++ " <-" ++ operators.render

/-- All rules but the levels, in the order of their definitions. -/
def render (grammar : Grammar) : String :=
  String.intercalate "\n"
    ((grammar.rules.filter (·.kind ≠ .precedenceLevel)).map grammar.renderRule)

end Grammar

end Peg
