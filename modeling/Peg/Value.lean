import Peg.Decimal
import Peg.Span

/-!
The values that matches produce. Terminals give spans, sequences and
repetitions give lists, and actions give whatever they like, down to objects
the library knows nothing about. A value is seen through its leaves: what is
left when the nesting of lists is forgotten.
-/

namespace Peg

/-- An object that only the embedding program understands. Its identity tells
it from all others, its tag says what it holds. -/
structure Foreign where
  identity : Nat
  tag : String

/-- The result of a match. -/
inductive Value where
  | token (span : Span)
  | composite (composite : Composite)
  | list (items : List Value)
  | int (n : Int64)
  | float (x : Float)
  | str (text : String)
  | bool (b : Bool)
  | nil
  | foreign (object : Foreign)

namespace Value

/-! ## Parts of a value -/

def token? : Value → Option Span
  | token span => some span
  | _ => none

def int? : Value → Option Int64
  | int n => some n
  | _ => none

/-- The number as a floating point number; integers count as numbers. -/
def float? : Value → Option Float
  | float x => some x
  | int n => some (Float.ofInt n.toInt)
  | _ => none

def bool? : Value → Option Bool
  | bool b => some b
  | _ => none

def str? : Value → Option String
  | str text => some text
  | _ => none

def list? : Value → Option (List Value)
  | list items => some items
  | _ => none

def foreign? : Value → Option Foreign
  | foreign object => some object
  | _ => none

def isNil : Value → Bool
  | nil => true
  | _ => false

/-- The stretch of input that a token or a composite stands for. -/
def span? : Value → Option Span
  | token span => some span
  | composite c => some c.span
  | _ => none

/-! ## Leaves and content -/

mutual
/-- The parts of a value that are no lists, in order. -/
def leaves : Value → List Value
  | list items => leavesOfAll items
  | v => [v]

/-- The leaves of each value in turn. -/
def leavesOfAll : List Value → List Value
  | [] => []
  | v :: vs => v.leaves ++ leavesOfAll vs
end

mutual
/-- The content a value stands for in an input. Lists join the content of
their items, numbers and truth values are written out. -/
def bytes (input : Bytes) : Value → Except Fault Bytes
  | token span => span.slice input
  | composite c => .ok c.content
  | list items => bytesOfAll input items
  | int n => .ok (Utf8.encode (toString n.toInt))
  | float x => .ok (Utf8.encode (Decimal.ofFloat x))
  | str text => .ok (Utf8.encode text)
  | bool b => .ok (Utf8.encode (if b then "true" else "false"))
  | nil => .ok []
  | foreign _ => .ok []

/-- The content of each value in turn. -/
def bytesOfAll (input : Bytes) : List Value → Except Fault Bytes
  | [] => .ok []
  | v :: vs => do
    let front ← v.bytes input
    let rest ← bytesOfAll input vs
    return front ++ rest
end

/-- The content as text, decoded after the parts are joined. -/
def text (input : Bytes) (v : Value) : Except Fault String :=
  Utf8.lossy <$> v.bytes input

/-! ## Equality -/

mutual
/-- Values are equal when they have the same shape and equal contents. Numbers
compare as floating point numbers do, foreign objects by identity. -/
def beq : Value → Value → Bool
  | token a, token b => a == b
  | composite a, composite b => a == b
  | list a, list b => beqAll a b
  | int a, int b => a == b
  | float a, float b => a == b
  | str a, str b => a == b
  | bool a, bool b => a == b
  | nil, nil => true
  | foreign a, foreign b => a.identity == b.identity
  | _, _ => false

/-- Item by item. -/
def beqAll : List Value → List Value → Bool
  | [], [] => true
  | a :: as, b :: bs => a.beq b && beqAll as bs
  | _, _ => false
end

instance : BEq Value := ⟨beq⟩

@[simp] theorem leaves_list (items : List Value) : (list items).leaves = leavesOfAll items := rfl

theorem leavesOfAll_eq_flatMap (vs : List Value) : leavesOfAll vs = vs.flatMap leaves := by
  induction vs with
  | nil => rfl
  | cons v vs ih => simp [leavesOfAll, ih]

end Value

end Peg
