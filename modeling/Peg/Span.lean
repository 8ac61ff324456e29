import Peg.Fault
import Peg.Utf8

/-!
Stretches of the input. A span is a pair of byte positions; its content is
taken from the input on demand. A composite has a span too, but carries content
of its own.
-/

namespace Peg

/-- The bytes from `start` up to, not including, `stop`. -/
@[ext] structure Span where
  start : Nat
  stop : Nat
  start_le_stop : start ≤ stop := by omega
deriving DecidableEq

namespace Span

/-- The span between two positions, which have to be in order. -/
def between (start stop : Nat) : Except Fault Span :=
  if h : start ≤ stop then .ok ⟨start, stop, h⟩ else .error .invertedSpan

/-- The span of no bytes at a position. -/
def empty (pos : Nat) : Span :=
  ⟨pos, pos, Nat.le_refl pos⟩

def length (span : Span) : Nat :=
  span.stop - span.start

def isEmpty (span : Span) : Bool :=
  span.start == span.stop

/-- The content of the span, which has to lie inside the input. -/
def slice (span : Span) (input : Bytes) : Except Fault Bytes :=
  if span.stop ≤ input.length then .ok ((input.take span.stop).drop span.start)
  else .error .sliceOutsideInput

/-- Spans are ordered by their start, then by their end. -/
instance : Ord Span where
  compare a b := (compare a.start b.start).then (compare a.stop b.stop)

instance : ToString Span where
  toString span := s!"{span.start}..{span.stop}"

theorem between_eq_ok_iff {start stop : Nat} {span : Span} :
    between start stop = .ok span ↔ span.start = start ∧ span.stop = stop := by
  unfold between
  split
  · next h =>
    simp only [Except.ok.injEq, Span.ext_iff]
    exact ⟨fun ⟨a, b⟩ => ⟨a.symm, b.symm⟩, fun ⟨a, b⟩ => ⟨a.symm, b.symm⟩⟩
  · next h =>
    simp only [reduceCtorEq, false_iff, not_and]
    rintro rfl rfl
    exact h span.start_le_stop

theorem start_add_length (span : Span) : span.start + span.length = span.stop := by
  have hle := span.start_le_stop
  unfold length
  omega

end Span

/-- Content put together from parts, standing for the stretch of input they
were matched in. -/
structure Composite where
  span : Span
  content : Bytes
deriving DecidableEq

/-- The content as text. -/
def Composite.text (composite : Composite) : String :=
  Utf8.lossy composite.content

end Peg
