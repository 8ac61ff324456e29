import Peg.Bytes

/-!
Reading bytes as UTF-8. A byte string splits into segments: the characters it
encodes and, between them, the ill-formed runs, each as long as it could still
have been the beginning of a character. The segments of a byte string put
together again are that byte string (`segments_flatten`).
-/

namespace Peg.Utf8

/-- One row of the table of well-formed sequences: the range of each byte, and
what the lead byte carries beside its payload. -/
structure Form where
  marker : Nat
  ranges : List (UInt8 × UInt8)

/-- The well-formed byte sequences, by the range of the lead byte. The second
ranges leave out overlong forms, surrogates and code points past U+10FFFF. -/
def forms : List Form :=
  [⟨0x00, [(0x00, 0x7F)]⟩,
   ⟨0xC0, [(0xC2, 0xDF), (0x80, 0xBF)]⟩,
   ⟨0xE0, [(0xE0, 0xE0), (0xA0, 0xBF), (0x80, 0xBF)]⟩,
   ⟨0xE0, [(0xE1, 0xEC), (0x80, 0xBF), (0x80, 0xBF)]⟩,
   ⟨0xE0, [(0xED, 0xED), (0x80, 0x9F), (0x80, 0xBF)]⟩,
   ⟨0xE0, [(0xEE, 0xEF), (0x80, 0xBF), (0x80, 0xBF)]⟩,
   ⟨0xF0, [(0xF0, 0xF0), (0x90, 0xBF), (0x80, 0xBF), (0x80, 0xBF)]⟩,
   ⟨0xF0, [(0xF1, 0xF3), (0x80, 0xBF), (0x80, 0xBF), (0x80, 0xBF)]⟩,
   ⟨0xF0, [(0xF4, 0xF4), (0x80, 0x8F), (0x80, 0xBF), (0x80, 0xBF)]⟩]

/-- How many bytes, from the first on, lie in their ranges. -/
def agreement : List (UInt8 × UInt8) → Bytes → Nat
  | (low, high) :: ranges, b :: bytes =>
    if low ≤ b ∧ b ≤ high then agreement ranges bytes + 1 else 0
  | _, _ => 0

theorem agreement_le_length (ranges : List (UInt8 × UInt8)) (bytes : Bytes) :
    agreement ranges bytes ≤ bytes.length := by
  fun_induction agreement ranges bytes <;> simp_all

/-- The code point of a complete sequence: the payload of the lead byte, then
six bits from each byte after it. -/
def Form.codePoint (form : Form) : Bytes → Nat
  | [] => 0
  | lead :: tail =>
    tail.foldl (fun code b => code * 64 + (b.toNat - 0x80)) (lead.toNat - form.marker)

/-- A piece of a byte string: the bytes of one character, or an ill-formed run
that stands for no character. -/
structure Segment where
  char? : Option Char
  bytes : Bytes
deriving DecidableEq

/-- The character a reader sees: U+FFFD stands for an ill-formed run. -/
def Segment.char (segment : Segment) : Char :=
  segment.char?.getD '\uFFFD'

/-- How many bytes the piece takes. -/
def Segment.size (segment : Segment) : Nat :=
  segment.bytes.length

/-- The first segment. A byte that begins no character stands alone, and a
sequence that breaks off is as long as it agrees with its form. -/
def first? : Bytes → Option Segment
  | [] => none
  | lead :: tail =>
    match forms.find? fun form => agreement form.ranges (lead :: tail) ≠ 0 with
    | none => some ⟨none, [lead]⟩
    | some form =>
      let front := (lead :: tail).take (agreement form.ranges (lead :: tail))
      if front.length = form.ranges.length then
        some ⟨some (Char.ofNat (form.codePoint front)), front⟩
      else
        some ⟨none, front⟩

/-- The segments found within a number of steps. -/
def segmentsWithin : Nat → Bytes → List Segment
  | 0, _ => []
  | steps + 1, bytes =>
    match first? bytes with
    | none => []
    | some segment => segment :: segmentsWithin steps (bytes.drop segment.size)

/-- All segments; one step a byte is enough because none is empty. -/
def segments (bytes : Bytes) : List Segment :=
  segmentsWithin bytes.length bytes

/-- The text a reader sees, with one U+FFFD for each ill-formed run. -/
def lossy (bytes : Bytes) : String :=
  String.ofList ((segments bytes).map Segment.char)

/-- The text that the bytes encode, if all of them do. -/
def text? (bytes : Bytes) : Option String :=
  ((segments bytes).mapM Segment.char?).map String.ofList

/-- The encoding of a text. -/
def encode (text : String) : Bytes :=
  text.toList.flatMap String.utf8EncodeChar

@[simp] theorem first?_nil : first? [] = none := rfl

/-- The first segment is the beginning of the bytes it was read from. -/
theorem first?_isPrefix {bytes : Bytes} {segment : Segment}
    (h : first? bytes = some segment) : segment.bytes <+: bytes := by
  cases bytes with
  | nil => simp at h
  | cons lead tail =>
    simp only [first?] at h
    split at h
    · cases h
      exact ⟨tail, rfl⟩
    · split at h <;> cases h <;> exact List.take_prefix ..

theorem first?_size_pos {bytes : Bytes} {segment : Segment}
    (h : first? bytes = some segment) : 0 < segment.size := by
  cases bytes with
  | nil => simp at h
  | cons lead tail =>
    simp only [first?] at h
    split at h
    · cases h
      simp [Segment.size]
    · next form found =>
      have agrees := List.find?_some found
      simp only [decide_eq_true_eq] at agrees
      split at h <;> cases h <;> simp [Segment.size] <;> omega

theorem first?_size_le {bytes : Bytes} {segment : Segment}
    (h : first? bytes = some segment) : segment.size ≤ bytes.length :=
  (first?_isPrefix h).length_le

@[simp] theorem first?_eq_none_iff {bytes : Bytes} : first? bytes = none ↔ bytes = [] := by
  cases bytes with
  | nil => simp
  | cons lead tail =>
    simp only [first?, reduceCtorEq, iff_false]
    split
    · simp
    · split <;> simp

/-- Any number of steps that covers the bytes finds the same segments. -/
theorem segmentsWithin_eq_segments {steps : Nat} {bytes : Bytes}
    (h : bytes.length ≤ steps) : segmentsWithin steps bytes = segments bytes := by
  suffices same : ∀ m n (bytes : Bytes), bytes.length ≤ m → bytes.length ≤ n →
      segmentsWithin m bytes = segmentsWithin n bytes from
    same _ _ bytes h (Nat.le_refl _)
  intro m
  induction m with
  | zero =>
    intro n bytes hm _
    obtain rfl : bytes = [] := List.length_eq_zero_iff.1 (by omega)
    cases n <;> rfl
  | succ m ih =>
    intro n bytes hm hn
    cases n with
    | zero =>
      obtain rfl : bytes = [] := List.length_eq_zero_iff.1 (by omega)
      rfl
    | succ n =>
      simp only [segmentsWithin]
      split
      · rfl
      · next segment found =>
        have pos := first?_size_pos found
        have le := first?_size_le found
        rw [ih n _ (by simp; omega) (by simp; omega)]

@[simp] theorem segments_nil : segments [] = [] := rfl

theorem segments_of_first? {bytes : Bytes} {segment : Segment}
    (h : first? bytes = some segment) :
    segments bytes = segment :: segments (bytes.drop segment.size) := by
  have pos := first?_size_pos h
  have le := first?_size_le h
  obtain ⟨steps, hsteps⟩ : ∃ steps, bytes.length = steps + 1 := ⟨bytes.length - 1, by omega⟩
  rw [segments, hsteps, segmentsWithin, h]
  simp only [List.cons.injEq, true_and]
  exact segmentsWithin_eq_segments (by simp; omega)

/-- No byte is lost: the segments put together are the bytes. -/
theorem segments_flatten (bytes : Bytes) : (segments bytes).flatMap Segment.bytes = bytes := by
  generalize hn : bytes.length = n
  induction n using Nat.strongRecOn generalizing bytes with
  | _ n ih =>
    cases found : first? bytes with
    | none => simp_all
    | some segment =>
      have pos := first?_size_pos found
      have le := first?_size_le found
      rw [segments_of_first? found, List.flatMap_cons,
        ih (bytes.drop segment.size).length (by simp; omega) _ rfl]
      obtain ⟨rest, rfl⟩ := first?_isPrefix found
      simp [Segment.size]

end Peg.Utf8
