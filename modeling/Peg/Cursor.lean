import Peg.Span

/-!
The cursor over an input. It moves forward over what is matched and jumps back
when an attempt is given up; nothing but the cursor says how far a match has
got. Beside its position it knows the furthest position it ever jumped away from.
-/

namespace Peg

/-- A place in a text, both counted from one. -/
structure Location where
  line : Nat
  column : Nat
deriving DecidableEq

instance : ToString Location where
  toString location := s!"{location.line}:{location.column}"

/-- A position in an input, and the furthest position left by a jump. -/
structure Cursor where
  input : Bytes
  pos : Nat
  left : Nat
deriving DecidableEq

namespace Cursor

/-- The cursor before the first byte. -/
def start (input : Bytes) : Cursor :=
  ⟨input, 0, 0⟩

/-- The bytes after the cursor. -/
def remaining (cursor : Cursor) : Bytes :=
  cursor.input.drop cursor.pos

/-- The furthest position the cursor has been at. -/
def furthest (cursor : Cursor) : Nat :=
  max cursor.left cursor.pos

def atEnd (cursor : Cursor) : Bool :=
  cursor.pos == cursor.input.length

/-- Steps over `size` bytes. -/
def advance (cursor : Cursor) (size : Nat) : Cursor :=
  { cursor with pos := cursor.pos + size }

/-- Goes to a position the cursor has been at. -/
def jump (cursor : Cursor) (pos : Nat) : Cursor :=
  { cursor with pos, left := cursor.furthest }

/-- Goes to any position of the input, its end included. -/
def moveTo (cursor : Cursor) (pos : Nat) : Except Fault Cursor :=
  if pos ≤ cursor.input.length then .ok (cursor.jump pos) else .error (.outOfBounds pos)

/-- The character after the cursor; an ill-formed run reads as U+FFFD. -/
def peek? (cursor : Cursor) : Option Char :=
  (Utf8.first? cursor.remaining).map Utf8.Segment.char

/-- The character after the cursor, and the cursor behind it. -/
def next? (cursor : Cursor) : Option (Char × Cursor) :=
  (Utf8.first? cursor.remaining).map fun segment =>
    (segment.char, cursor.advance segment.size)

/-- Takes as many bytes as `width?` finds at the cursor: their span, and the
cursor behind them. -/
def take? (cursor : Cursor) (width? : Bytes → Option Nat) : Option (Span × Cursor) :=
  (width? cursor.remaining).map fun size =>
    (⟨cursor.pos, cursor.pos + size, Nat.le_add_right ..⟩, cursor.advance size)

/-- The span from a position up to the cursor. -/
def spanSince (cursor : Cursor) (start : Nat) : Except Fault Span :=
  Span.between start cursor.pos

/-- The line and column of a position. A line ends after its newline byte, a
column is as wide as one character or one ill-formed run, and a position past
the end is the end. -/
def location (cursor : Cursor) (pos : Nat) : Location :=
  let before := cursor.input.take pos
  let line := (before.reverse.takeWhile (· ≠ 0x0A)).reverse
  ⟨before.count 0x0A + 1, (Utf8.segments line).length + 1⟩

@[simp] theorem advance_input (cursor : Cursor) (size : Nat) :
    (cursor.advance size).input = cursor.input := rfl

@[simp] theorem advance_pos (cursor : Cursor) (size : Nat) :
    (cursor.advance size).pos = cursor.pos + size := rfl

@[simp] theorem jump_input (cursor : Cursor) (pos : Nat) :
    (cursor.jump pos).input = cursor.input := rfl

@[simp] theorem jump_pos (cursor : Cursor) (pos : Nat) : (cursor.jump pos).pos = pos := rfl

theorem remaining_advance (cursor : Cursor) (size : Nat) :
    (cursor.advance size).remaining = cursor.remaining.drop size := by
  simp [remaining, Nat.add_comm]

theorem length_remaining (cursor : Cursor) :
    cursor.remaining.length = cursor.input.length - cursor.pos := by
  simp [remaining]

/-- A jump keeps the furthest position, or moves it to where the jump leads. -/
theorem furthest_jump (cursor : Cursor) (pos : Nat) :
    (cursor.jump pos).furthest = max cursor.furthest pos := rfl

/-- A step moves the furthest position only by passing it. -/
theorem furthest_advance (cursor : Cursor) (size : Nat) :
    (cursor.advance size).furthest = max cursor.furthest (cursor.pos + size) := by
  simp only [furthest, advance]
  omega

end Cursor

end Peg
