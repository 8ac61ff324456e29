import Peg.Text.Quoted

/-!
Literals: byte strings that a grammar asks for.
-/

namespace Peg

/-- The bytes to match, exactly or without regard to the case of ASCII letters. -/
structure Literal where
  bytes : Bytes
  ignoreCase : Bool
deriving DecidableEq

namespace Literal

/-- Matches these bytes and no others. -/
def exact (bytes : Bytes) : Literal :=
  ⟨bytes, false⟩

/-- Matches these bytes in any case; they are kept in small letters. -/
def ignoringCase (bytes : Bytes) : Literal :=
  ⟨bytes.map asciiLower, true⟩

/-- Whether `found` is what the literal asks for. -/
def accepts (literal : Literal) (found : Bytes) : Bool :=
  if literal.ignoreCase then found.map asciiLower == literal.bytes.map asciiLower
  else found == literal.bytes

/-- How many bytes the literal takes from the front of `rest`, if it is there. -/
def width? (literal : Literal) (rest : Bytes) : Option Nat :=
  if literal.accepts (rest.take literal.bytes.length) then some literal.bytes.length else none

/-- The literal as a grammar writes it: quoted, with an `i` when case is ignored. -/
def render (literal : Literal) : String :=
  Text.quoteBytes "\"" literal.bytes ++ if literal.ignoreCase then "i" else ""

theorem accepts_length {literal : Literal} {found : Bytes} (h : literal.accepts found = true) :
    found.length = literal.bytes.length := by
  unfold accepts at h
  split at h
  · simpa using congrArg List.length (eq_of_beq h)
  · simp [eq_of_beq h]

/-- A literal takes no more than there is. -/
theorem width?_le {literal : Literal} {rest : Bytes} {size : Nat}
    (h : literal.width? rest = some size) : size ≤ rest.length := by
  unfold width? at h
  split at h
  · next accepted =>
    cases h
    have := accepts_length accepted
    simp only [List.length_take] at this
    omega
  · cases h

end Literal

end Peg
