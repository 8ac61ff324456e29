import Peg.Utf8
import Peg.Text.Hex

/-!
Character classes: sets of characters written in brackets, given by single
characters and by inclusive ranges of code points.
-/

namespace Peg

/-- The characters listed and those between the bounds of some range. -/
structure CharClass where
  singles : List Char
  ranges : List (Char × Char)
deriving DecidableEq

namespace CharClass

def contains (cls : CharClass) (c : Char) : Bool :=
  cls.singles.contains c || cls.ranges.any fun (low, high) => low ≤ c && c ≤ high

/-- How many bytes the class takes from the front of `rest`, if a character of
the class stands there. An ill-formed run counts as U+FFFD. -/
def width? (cls : CharClass) (rest : Bytes) : Option Nat :=
  match Utf8.first? rest with
  | some segment => if cls.contains segment.char then some segment.size else none
  | none => none

/-- One character inside the brackets. Brackets and backslashes take a
backslash; what is not printable ASCII is written by code point. -/
def renderChar (c : Char) : List Char :=
  match c with
  | '\t' => ['\\', 't']
  | '\n' => ['\\', 'n']
  | '\r' => ['\\', 'r']
  | '\\' => ['\\', '\\']
  | ']' => ['\\', ']']
  | '[' => ['\\', '[']
  | _ =>
    let code := c.toNat
    if 0x20 ≤ code ∧ code ≤ 0x7E then [c]
    else if code ≤ 0xFF then '\\' :: 'x' :: Text.Hex.padded 2 code
    else if code ≤ 0xFFFF then '\\' :: 'u' :: Text.Hex.padded 4 code
    else '\\' :: 'U' :: Text.Hex.padded 8 code

/-- A range inside the brackets. -/
def renderRange (range : Char × Char) : List Char :=
  renderChar range.1 ++ '-' :: renderChar range.2

/-- What stands between the brackets. A single dash comes first, where it
cannot be taken for a range. -/
def body (cls : CharClass) : List Char :=
  (if cls.singles.contains '-' then ['-'] else []) ++
    (cls.singles.filter (· ≠ '-')).flatMap renderChar ++
    cls.ranges.flatMap renderRange

/-- The class as a grammar writes it. -/
def render (cls : CharClass) : String :=
  String.ofList ('[' :: cls.body ++ [']'])

theorem width?_pos {cls : CharClass} {rest : Bytes} {size : Nat}
    (h : cls.width? rest = some size) : 0 < size := by
  unfold width? at h
  split at h
  · next segment found =>
    split at h <;> cases h
    exact Utf8.first?_size_pos found
  · cases h

theorem width?_le {cls : CharClass} {rest : Bytes} {size : Nat}
    (h : cls.width? rest = some size) : size ≤ rest.length := by
  unfold width? at h
  split at h
  · next segment found =>
    split at h <;> cases h
    exact Utf8.first?_size_le found
  · cases h

end CharClass

end Peg
