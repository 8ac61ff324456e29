import Peg.Grammar.Rule
import Peg.Matcher.Expr

/-!
What the rules of a grammar match. A level of operators matches operands with
the next tighter level, and itself again where it repeats on the right; the
call depth is bounded, so that a rule that calls itself without taking input
does not go on for ever.
-/

namespace Peg

open Matcher

namespace OperatorLevel

/-- The first operator that matches, with its value. The operators share one
scope, and where none matches the cursor is where it was. -/
def firstOperator {α : Type} (call : Nat → Matcher Value) :
    List (Expr × α) → Matcher (Option (Value × α))
  | [] => return none
  | (e, a) :: operators => do
    match ← probe (e.eval call) with
    | .ok value => return some (value, a)
    | .error _ => firstOperator call operators

/-- The first operator that matches in a scope of its own, with that scope. -/
def operator {α : Type} (call : Nat → Matcher Value) (operators : List (Expr × α)) :
    Matcher (Option (Value × α) × Captures) :=
  withScope .empty (firstOperator call operators)

/-- Matches a level, given the matchers of the level itself and its operand. -/
def eval (call : Nat → Matcher Value) (self operand : Matcher Value) :
    OperatorLevel → Matcher Value
  | prefixOps ops => do
    match ← operator call ops with
    | (some (op, action), captures) =>
      let x ← self
      ofFault (action.run (← context captures) (.list [op, x]) x)
    | (none, _) => operand
  | postfixOps ops => do
    let x ← operand
    iterate .idlePostfixOp (fun x => do
      match ← operator call ops with
      | (some (op, action), captures) =>
        some <$> ofFault (action.run (← context captures) (.list [x, op]) x)
      | (none, _) => return none) x
  | leftAssoc ops => do
    let left ← operand
    iterate .idleInfixOp (fun left => do
      match ← operator call ops with
      | (some (op, action), captures) =>
        let right ← operand
        some <$> ofFault (action.run (← context captures) (.list [left, op, right]) left right)
      | (none, _) => return none) left
  | rightAssoc ops => do
    let left ← operand
    match ← operator call ops with
    | (some (op, action), captures) =>
      let right ← self
      ofFault (action.run (← context captures) (.list [left, op, right]) left right)
    | (none, _) => return left

end OperatorLevel

/-- Matches the body of the rule `handle`. -/
def Rule.evalBody (call : Nat → Matcher Value) (handle : Nat) (rule : Rule) : Matcher Value :=
  match rule.body with
  | .expr e => e.eval call
  | .precedence (first :: _) => call first
  | .precedence [] => throw (.fault (.noLevels rule.name))
  | .level operators operand => operators.eval call (call handle) (call operand)

/-- Calls a rule, in a scope of its own. Calls may nest `depth` deep. -/
def callRule (rules : List Rule) : (depth : Nat) → (handle : Nat) → Matcher Value
  | 0, _ => throw .exhausted
  | depth + 1, handle =>
    match rules[handle]? with
    | none => throw (.fault (.missingRule handle))
    | some rule => traced rule.name do
      let (value, _) ← withScope .empty (rule.evalBody (callRule rules depth) handle)
      return value

end Peg
