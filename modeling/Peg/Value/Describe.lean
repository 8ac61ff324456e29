import Peg.Text.Quoted
import Peg.Value

/-!
The description of a value for people: each value with its kind, strings in
quotes, lists in brackets.
-/

namespace Peg.Value

mutual
/-- The description of one value. What a foreign object holds is not shown. -/
def describe : Value → String
  | token span => s!"Token({span})"
  | composite c => s!"Pseudo({c.span}, " ++ Text.quote c.text ++ ")"
  | list items => "[" ++ String.intercalate ", " (describeAll items) ++ "]"
  | int n => "Int(" ++ toString n.toInt ++ ")"
  | float x => "Float(" ++ Decimal.ofFloat x ++ ")"
  | str text => "Str(" ++ Text.quote text ++ ")"
  | bool b => if b then "Bool(true)" else "Bool(false)"
  | nil => "Nil"
  | foreign _ => "Custom(..)"

/-- The description of each value in turn. -/
def describeAll : List Value → List String
  | [] => []
  | v :: vs => v.describe :: describeAll vs
end

end Peg.Value
