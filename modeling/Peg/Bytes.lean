/-!
Byte strings. Inputs and literals are bytes; nothing requires them to be valid
UTF-8, so no operation here looks at characters.
-/

namespace Peg

/-- Input and literal content. -/
abbrev Bytes := List UInt8

/-- An ASCII capital becomes its small letter, every other byte stays. -/
def asciiLower (b : UInt8) : UInt8 :=
  if 0x41 ≤ b ∧ b ≤ 0x5A then b + 0x20 else b

end Peg
