import Peg.Precedence

/-!
The rules of a grammar and the definitions they come from. A grammar keeps its
rules in one list and refers to them by their place in it, the handle. A plain
definition becomes one rule. A precedence rule with `n` levels becomes `n + 2`:
the head, which has the name and calls the loosest level, then the atoms, then
the levels from the tightest to the loosest, each with the handle of the next
tighter one as its operand.
-/

namespace Peg

/-- Where a rule comes from: a plain definition, a precedence rule, or a level
of a precedence rule. -/
inductive RuleKind where
  | plain
  | precedence
  | precedenceLevel
deriving DecidableEq

/-- What calling a rule does. -/
inductive RuleBody where
  /-- Match the expression. -/
  | expr (e : Expr)
  /-- Call the first of these levels, which run from the loosest to the atoms. -/
  | precedence (levels : List Nat)
  /-- Match operators around operands, which the rule `operand` matches. -/
  | level (operators : OperatorLevel) (operand : Nat)

namespace RuleBody

/-- All expressions of a body: its own, or those of its operators. -/
def exprs : RuleBody → List Expr
  | expr e => [e]
  | precedence _ => []
  | level operators _ => operators.exprs

/-- Applies `f` to each expression of a body. -/
def mapExprs (f : Expr → Expr) : RuleBody → RuleBody
  | expr e => expr (f e)
  | precedence levels => precedence levels
  | level operators operand => level (operators.mapExprs f) operand

@[simp] theorem exprs_mapExprs (f : Expr → Expr) (body : RuleBody) :
    (body.mapExprs f).exprs = body.exprs.map f := by
  cases body <;> simp [mapExprs, exprs]

end RuleBody

/-- A rule of a grammar. -/
structure Rule where
  name : String
  kind : RuleKind
  body : RuleBody

namespace Rule

def exprs (rule : Rule) : List Expr :=
  rule.body.exprs

/-- The expression of a rule that is one. -/
def expr? (rule : Rule) : Option Expr :=
  match rule.body with
  | .expr e => some e
  | _ => none

def mapExprs (f : Expr → Expr) (rule : Rule) : Rule :=
  { rule with body := rule.body.mapExprs f }

end Rule

/-- What a grammar is made from. -/
inductive Definition where
  | plain (name : String) (e : Expr)
  | precedence (rule : PrecedenceRule)

namespace PrecedenceRule

/-- The handles of the levels, loosest first, when the head has handle `head`. -/
def levelHandles (rule : PrecedenceRule) (head : Nat) : List Nat :=
  (List.range (rule.levels.length + 1)).map fun i => head + 1 + (rule.levels.length - i)

/-- The rule that matches the atoms. -/
def atomRule (rule : PrecedenceRule) : Rule :=
  ⟨levelName rule.name rule.levels.length, .precedenceLevel, .expr rule.atom⟩

/-- The rule of the level with number `i`. -/
def levelRule (rule : PrecedenceRule) (head : Nat) (level : OperatorLevel) (i : Nat) : Rule :=
  ⟨levelName rule.name i, .precedenceLevel, .level level (head + (rule.levels.length - i))⟩

/-- The rules of a precedence rule whose head has handle `head`. One that is
not well formed keeps its place and its name, but has no levels. -/
def expand (rule : PrecedenceRule) (head : Nat) : List Rule :=
  if rule.errors = [] then
    ⟨rule.name, .precedence, .precedence (rule.levelHandles head)⟩ :: rule.atomRule ::
      rule.levels.zipIdx.reverse.map fun (level, i) => rule.levelRule head level i
  else
    [⟨rule.name, .precedence, .precedence []⟩]

end PrecedenceRule

namespace Definition

def name : Definition → String
  | plain name _ => name
  | precedence rule => rule.name

/-- What is wrong with a definition on its own. -/
def errors : Definition → List GrammarError
  | plain _ _ => []
  | precedence rule => rule.errors

/-- The rules of a definition that starts at handle `base`. -/
def expand (base : Nat) : Definition → List Rule
  | plain name e => [⟨name, .plain, .expr e⟩]
  | precedence rule => rule.expand base

/-- The rules of several definitions, the first of which starts at `base`. -/
def expandAll (base : Nat) : List Definition → List Rule
  | [] => []
  | definition :: rest =>
    let block := definition.expand base
    block ++ expandAll (base + block.length) rest

/-- The definition as a grammar writes it. -/
def render : Definition → String
  | plain name e => name ++ " <- " ++ e.render false
  | precedence rule => rule.render

end Definition

end Peg
