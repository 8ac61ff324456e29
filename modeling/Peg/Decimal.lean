/-!
Binary floating point numbers in decimal: the fewest digits that read back as
the same number, in positional notation. A number is surrounded by the interval
of reals that round to it; the search goes through the grids of powers of ten
from the coarsest on and takes the first that has a point in the interval.
-/

namespace Peg.Decimal

/-- A positive value and the distances to both ends of the interval that rounds
to it, all counted in units of `1 / unit`. -/
structure Target where
  value : Nat
  below : Nat
  above : Nat
  unit : Nat
  closed : Bool

/-- The same interval around a number `factor` times as large. -/
def Target.scale (t : Target) (factor : Nat) : Target :=
  { t with value := t.value * factor, below := t.below * factor, above := t.above * factor }

/-- Whether a point lies in the interval; the ends count in a closed one. -/
def Target.admits (t : Target) (point : Nat) : Bool :=
  if t.closed then t.value ≤ point + t.below && point ≤ t.value + t.above
  else t.value < point + t.below && point < t.value + t.above

/-- The multiple of `step` nearest to the value among its two neighbours that
the interval admits. Of two equally near, the larger. -/
def Target.nearest? (t : Target) (step : Nat) : Option Nat :=
  let n := t.value / step
  match t.admits (n * step), t.admits ((n + 1) * step) with
  | true, true =>
    some (if t.value - n * step < (n + 1) * step - t.value then n else n + 1)
  | true, false => some n
  | false, true => some (n + 1)
  | false, false => none

/-- The digits of the point on the grid of multiples of `10 ^ exponent`. A grid
finer than one is the grid of the scaled number. -/
def Target.onGrid? (t : Target) : (exponent : Int) → Option Nat
  | .ofNat k => t.nearest? (t.unit * Nat.pow 10 k)
  | .negSucc k => (t.scale (Nat.pow 10 (k + 1))).nearest? t.unit

/-- The exponents of the grids that matter for 64 bit numbers, coarsest first. -/
def exponents : List Int :=
  (List.range 640).map fun i : Nat => 310 - (i : Int)

/-- The digits and the exponent of the shortest decimal in the interval. -/
def Target.shortest? (t : Target) : Option (Nat × Int) :=
  exponents.findSome? fun k => (t.onGrid? k).map (·, k)

/-- The number `digits * 10 ^ exponent`, written without an exponent and without
a needless point. -/
def positional (digits : Nat) (exponent : Int) : String :=
  match exponent with
  | .ofNat k => String.ofList (Nat.toDigits 10 digits ++ List.replicate k '0')
  | .negSucc k =>
    let places := k + 1
    let padded := List.replicate (places + 1 - (Nat.toDigits 10 digits).length) '0' ++
      Nat.toDigits 10 digits
    String.ofList (padded.take (padded.length - places) ++ '.' ::
      padded.drop (padded.length - places))

/-- The interval of a positive finite number, from its exponent field and its
fraction field. Below a power of two the next number is half as far away. -/
def Target.ofFields (exponent fraction : Nat) : Target :=
  let significand := if exponent = 0 then fraction else 1 <<< 52 + fraction
  let below := if fraction = 0 then 1 else 2
  -- The value is `4 * significand` quarters of the last place, `2 ^ power` each.
  let power : Int := (max exponent 1 : Nat) - 1077
  let quarters : Target := ⟨4 * significand, below, 2, 1, significand % 2 = 0⟩
  match power with
  | .ofNat k => quarters.scale (1 <<< k)
  | .negSucc k => { quarters with unit := 1 <<< (k + 1) }

/-- The text of a number; zero keeps its sign. -/
def ofFloat (x : Float) : String :=
  let bits := x.toBits.toNat
  let sign := if bits >>> 63 = 1 then "-" else ""
  let exponent := bits >>> 52 % 0x800
  let fraction := bits % 0x10000000000000
  if exponent = 0x7FF then
    if fraction = 0 then sign ++ "inf" else "NaN"
  else if exponent = 0 ∧ fraction = 0 then
    sign ++ "0"
  else
    match (Target.ofFields exponent fraction).shortest? with
    | some (digits, k) => sign ++ positional digits k
    | none => sign

end Peg.Decimal
