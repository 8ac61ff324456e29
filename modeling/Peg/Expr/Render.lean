import Peg.Expr

/-!
Expressions as grammars write them.
-/

namespace Peg.Expr

/-- Parentheses around a group, where one is needed. -/
def group (needed : Bool) (text : String) : String :=
  if needed then "( " ++ text ++ " )" else text

mutual
/-- The text of an expression. An atomic one can stand as an operand: groups of
more than one part, and actions, are put into parentheses. -/
def render (atomic : Bool) : Expr → String
  | literal l => l.render
  | charClass c => c.render
  | anyChar => "."
  | seq es => group (atomic && 1 < es.length) (String.intercalate " " (renderAll es))
  | choice es => group (atomic && 1 < es.length) (String.intercalate " / " (renderAll es))
  | star e => e.render true ++ "*"
  | plus e => e.render true ++ "+"
  | optional e => e.render true ++ "?"
  | ahead e => "&" ++ e.render true
  | notAhead e => "!" ++ e.render true
  | discard e => "-" ++ e.render true
  | label name e => name ++ ":" ++ e.render true
  | action e a => group atomic (e.render true ++ " \x7b " ++ a.source ++ " \x7d")
  | slice e => "$" ++ e.render true
  | concat e => "$$" ++ e.render true
  | rule ref => ref.name

/-- The text of each expression as an operand. -/
def renderAll : List Expr → List String
  | [] => []
  | e :: es => e.render true :: renderAll es
end

theorem renderAll_eq_map (es : List Expr) : renderAll es = es.map (render true) := by
  induction es with
  | nil => rfl
  | cons e es ih => simp [renderAll, ih]

/-- The text of an expression that stands alone. -/
instance : ToString Expr where
  toString e := e.render false

end Peg.Expr
