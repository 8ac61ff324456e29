/-!
Numbers written in hexadecimal, with a fixed count of digits or as few as it takes.
-/

namespace Peg.Text.Hex

/-- The lowest `width` digits, most significant first, in small letters. -/
def padded : (width : Nat) → (n : Nat) → List Char
  | 0, _ => []
  | width + 1, n => padded width (n / 16) ++ [Nat.digitChar (n % 16)]

/-- All digits without leading zeros, in small letters. -/
def short (n : Nat) : List Char :=
  Nat.toDigits 16 n

@[simp] theorem length_padded (width n : Nat) : (padded width n).length = width := by
  induction width generalizing n with
  | zero => rfl
  | succ width ih => simp [padded, ih]

end Peg.Text.Hex
