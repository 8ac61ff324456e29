import Peg.Expr.Render

/-!
Failed matches. A mismatch names the expression that did not match and the
position where it was tried. Where several alternatives fail, the one that got
furthest into the input is kept.
-/

namespace Peg

/-- An expression that did not match at a position. -/
structure Mismatch where
  expr : Expr
  pos : Nat

namespace Mismatch

/-- The one of two that got further; `first` where they got equally far. -/
def furthest (first second : Mismatch) : Mismatch :=
  if first.pos < second.pos then second else first

/-- Adds a mismatch to the furthest so far. -/
def mergeInto (mismatch : Mismatch) (best : Option Mismatch) : Mismatch :=
  match best with
  | some other => other.furthest mismatch
  | none => mismatch

def message (mismatch : Mismatch) : String :=
  s!"{mismatch.expr} doesn't match at {mismatch.pos}"

/-- Which of three mismatches is kept does not depend on the grouping. -/
theorem furthest_assoc (a b c : Mismatch) :
    (a.furthest b).furthest c = a.furthest (b.furthest c) := by
  grind [furthest]

end Mismatch

end Peg
