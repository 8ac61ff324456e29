import Peg.Expr.Render

/-!
Operators of one precedence level. All operators of a level are of one kind:
before their operand, after it, or between two operands, where the level groups
to the left or to the right.
-/

namespace Peg

/-- The operators of one level with their actions, in the order they are tried. -/
inductive OperatorLevel where
  | prefixOps (operators : List (Expr × UnaryAction))
  | postfixOps (operators : List (Expr × UnaryAction))
  | leftAssoc (operators : List (Expr × BinaryAction))
  | rightAssoc (operators : List (Expr × BinaryAction))

namespace OperatorLevel

/-- The expressions of the operators. -/
def exprs : OperatorLevel → List Expr
  | prefixOps ops | postfixOps ops => ops.map Prod.fst
  | leftAssoc ops | rightAssoc ops => ops.map Prod.fst

/-- Applies `f` to the expression of each operator. -/
def mapExprs (f : Expr → Expr) : OperatorLevel → OperatorLevel
  | prefixOps ops => prefixOps (ops.map fun (e, a) => (f e, a))
  | postfixOps ops => postfixOps (ops.map fun (e, a) => (f e, a))
  | leftAssoc ops => leftAssoc (ops.map fun (e, a) => (f e, a))
  | rightAssoc ops => rightAssoc (ops.map fun (e, a) => (f e, a))

/-- One operator with the places of its operands, and its action. -/
def renderRow (before : String) (operator : Expr) (after source : String) : String :=
  "\n  | " ++ before ++ operator.render true ++ after ++ " \x7b " ++ source ++ " \x7d"

/-- The level as a block of rows. `@` marks an operand; in a level between
operands, `@'` marks the side on which the level does not repeat. -/
def render (level : OperatorLevel) : String :=
  "\n  |--" ++ String.join (
    match level with
    | prefixOps ops => ops.map fun (e, a) => renderRow "" e " @" a.source
    | postfixOps ops => ops.map fun (e, a) => renderRow "@ " e "" a.source
    | leftAssoc ops => ops.map fun (e, a) => renderRow "@' " e " @" a.source
    | rightAssoc ops => ops.map fun (e, a) => renderRow "@ " e " @'" a.source)

@[simp] theorem exprs_mapExprs (f : Expr → Expr) (level : OperatorLevel) :
    (level.mapExprs f).exprs = level.exprs.map f := by
  cases level <;> simp [mapExprs, exprs, Function.comp_def]

end OperatorLevel

end Peg
