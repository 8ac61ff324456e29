import Peg.Proofs.Text.Pieces
import Peg.Proofs.Utf8

/-!
Reading a byte literal back. A byte string is made of characters and of bytes that belong to
none, and each of them is written so that it can be read off again; none begins with the
delimiter. So the bytes of a literal can be told from its text, whatever comes behind it.
-/

namespace Peg.Utf8

/-! ## Characters and the bytes that encode them -/

/-- The encoding of a code point, by its size. -/
theorem encodeChar_ofNat {v : Nat} (hvalid : v.isValidChar) :
    String.utf8EncodeChar (Char.ofNat v) =
      if v ≤ 0x7F then [UInt8.ofNat v]
      else if v ≤ 0x7FF then [UInt8.ofNat (v / 64 % 32 + 192), UInt8.ofNat (v % 64 + 128)]
      else if v ≤ 0xFFFF then
        [UInt8.ofNat (v / 4096 % 16 + 224), UInt8.ofNat (v / 64 % 64 + 128),
          UInt8.ofNat (v % 64 + 128)]
      else
        [UInt8.ofNat (v / 262144 % 8 + 240), UInt8.ofNat (v / 4096 % 64 + 128),
          UInt8.ofNat (v / 64 % 64 + 128), UInt8.ofNat (v % 64 + 128)] := by
  have hval : (Char.ofNat v).val.toNat = v := by
    rw [Char.ofNat, dif_pos hvalid]
    rfl
  rw [String.utf8EncodeChar.eq_1, hval]

/-- Bytes that fit a row are the encoding of the character with their code point. -/
theorem encodeChar_codePoint {form : Form} (hform : form ∈ forms) {bytes : Bytes}
    (hfits : form.Fits bytes) :
    String.utf8EncodeChar (Char.ofNat (form.codePoint bytes)) = bytes := by
  have hbyte (n : Nat) (b : UInt8) (h : n = b.toNat) : UInt8.ofNat n = b := by
    rw [h, UInt8.ofNat_toNat]
  simp only [forms, List.mem_cons, List.not_mem_nil, or_false] at hform
  rcases hform with rfl | rfl | rfl | rfl | rfl | rfl | rfl | rfl | rfl
  all_goals
    simp only [Form.Fits, List.forall₂_cons_left_iff, List.forall₂_nil_left_iff,
      UInt8.le_iff_toNat_le] at hfits
  · obtain ⟨a, _, ha, rfl, rfl⟩ := hfits
    simp [Form.codePoint] at *
    rw [encodeChar_ofNat (Or.inl (by omega)), if_pos ha, hbyte _ a rfl]
  · obtain ⟨a, _, ha, ⟨b, _, hb, rfl, rfl⟩, rfl⟩ := hfits
    simp [Form.codePoint] at *
    rw [encodeChar_ofNat (Or.inl (by omega)), if_neg (by omega), if_pos (by omega),
      hbyte _ a (by omega), hbyte _ b (by omega)]
  -- the rows of three bytes, then those of four
  iterate 4
    · obtain ⟨a, _, ha, ⟨b, _, hb, ⟨c, _, hc, rfl, rfl⟩, rfl⟩, rfl⟩ := hfits
      simp [Form.codePoint] at *
      rw [encodeChar_ofNat (by unfold Nat.isValidChar; omega), if_neg (by omega),
        if_neg (by omega), if_pos (by omega), hbyte _ a (by omega), hbyte _ b (by omega),
        hbyte _ c (by omega)]
  iterate 3
    · obtain ⟨a, _, ha, ⟨b, _, hb, ⟨c, _, hc, ⟨d, _, hd, rfl, rfl⟩, rfl⟩, rfl⟩, rfl⟩ := hfits
      simp [Form.codePoint] at *
      rw [encodeChar_ofNat (by unfold Nat.isValidChar; omega), if_neg (by omega),
        if_neg (by omega), if_neg (by omega), hbyte _ a (by omega), hbyte _ b (by omega),
        hbyte _ c (by omega), hbyte _ d (by omega)]

/-- Bytes that agree with all ranges fit them. -/
theorem forall₂_of_agreement {ranges : List (UInt8 × UInt8)} {bytes : Bytes}
    (h : agreement ranges bytes = ranges.length) :
    List.Forall₂ (fun range b => range.1 ≤ b ∧ b ≤ range.2) ranges (bytes.take ranges.length) := by
  induction ranges generalizing bytes with
  | nil => exact .nil
  | cons range ranges ih =>
    cases bytes with
    | nil => cases h
    | cons b bytes =>
      rw [agreement] at h
      split at h
      · next hin => exact .cons hin (ih (Nat.succ.inj h))
      · cases h

/-- A segment that is read as a character is its encoding. -/
theorem bytes_of_first? {bytes : Bytes} {segment : Segment} (h : first? bytes = some segment)
    {c : Char} (hc : segment.char? = some c) : segment.bytes = String.utf8EncodeChar c := by
  cases bytes with
  | nil => cases h
  | cons lead tail =>
    rw [first?] at h
    split at h
    · cases h
      cases hc
    · next form hfound =>
      dsimp only at h
      split at h
      · next hlength =>
        cases h
        cases hc
        have hagreement : agreement form.ranges (lead :: tail) = form.ranges.length := by
          have hle := agreement_le_length form.ranges (lead :: tail)
          rw [List.length_take] at hlength
          omega
        have hfits := forall₂_of_agreement hagreement
        rw [← hagreement] at hfits
        exact (encodeChar_codePoint (List.mem_of_find?_eq_some hfound) hfits).symm
      · cases h
        cases hc

/-- What a byte string is made of: characters, and bytes that belong to none. -/
def Segment.atoms (segment : Segment) : List (Char ⊕ UInt8) :=
  match segment.char? with
  | some c => [.inl c]
  | none => segment.bytes.map .inr

def atoms (bytes : Bytes) : List (Char ⊕ UInt8) :=
  (segments bytes).flatMap Segment.atoms

def atomBytes : Char ⊕ UInt8 → Bytes
  | .inl c => String.utf8EncodeChar c
  | .inr b => [b]

/-- The atoms put together are the bytes. -/
theorem flatMap_atoms (bytes : Bytes) : (atoms bytes).flatMap atomBytes = bytes := by
  induction hn : bytes.length using Nat.strongRecOn generalizing bytes with
  | _ n ih =>
    cases hfirst : first? bytes with
    | none =>
      obtain rfl := first?_eq_none_iff.mp hfirst
      rfl
    | some segment =>
      have hpos := first?_size_pos hfirst
      have hle := first?_size_le hfirst
      have hrest := ih (bytes.drop segment.size).length (by rw [List.length_drop]; omega) _ rfl
      have hatoms : segment.atoms.flatMap atomBytes = segment.bytes := by
        unfold Segment.atoms
        split
        · next c hc => simp [atomBytes, bytes_of_first? hfirst hc]
        · simp [List.flatMap_map, atomBytes]
      obtain ⟨tail, htail⟩ := first?_isPrefix hfirst
      rw [atoms, segments_of_first? hfirst, List.flatMap_cons, List.flatMap_append, ← atoms,
        hrest, hatoms, ← htail, Segment.size, List.drop_left]

end Peg.Utf8

namespace Peg.Text

open Utf8

/-! ## Reading off what a literal is made of -/

/-- The text of an atom in a byte literal. -/
def atomText (delimiter : String) : Char ⊕ UInt8 → List Char
  | .inl c => literalChar delimiter c
  | .inr b => strayByte b

theorem literalBody_eq (delimiter : String) (bytes : Bytes) :
    literalBody delimiter bytes = (atoms bytes).flatMap (atomText delimiter) := by
  rw [literalBody, atoms, List.flatMap_assoc]
  refine List.flatMap_congr fun segment _ => ?_
  unfold literalSegment Segment.atoms
  cases segment.char? with
  | some c => exact (List.append_nil _).symm
  | none => exact (List.flatMap_map .inr (atomText delimiter) segment.bytes).symm

/-- Reads an escape, of which the backslash has been read. -/
def readEscape? (delimiter : Char) : List Char → Option ((Char ⊕ UInt8) × List Char)
  | 'n' :: rest => some (.inl '\n', rest)
  | 't' :: rest => some (.inl '\t', rest)
  | 'r' :: rest => some (.inl '\r', rest)
  | 'u' :: '\x7b' :: rest =>
    let digits := rest.takeWhile (· ≠ '\x7d')
    some (.inl (Char.ofNat (Hex.value digits)), rest.drop (digits.length + 1))
  | 'x' :: high :: low :: rest => some (.inr (UInt8.ofNat (Hex.value [high, low])), rest)
  | c :: rest => if c = '\\' ∨ c = delimiter then some (.inl c, rest) else none
  | [] => none

/-- Reads the first atom of the body of a literal, if the body does not end there. -/
def readAtom? (delimiter : Char) : List Char → Option ((Char ⊕ UInt8) × List Char)
  | [] => none
  | c :: rest =>
    if c = '\\' then readEscape? delimiter rest
    else if c = delimiter then none
    else some (.inl c, rest)

/-- No escape but that of the delimiter itself looks like it. -/
def ReadableDelimiter (delimiter : String) (first : Char) : Prop :=
  delimiter.toList.head? = some first ∧ first ∉ ['\\', 'n', 't', 'r', 'u', 'x']

section Reading

variable {delimiter : String} {first : Char}

theorem readAtom?_strayByte (b : UInt8) (rest : List Char) :
    readAtom? first (strayByte b ++ rest) = some (.inr b, rest) := by
  have hpadded : (Hex.padded 2 b.toNat).map Char.toUpper =
      [(Nat.digitChar (b.toNat / 16 % 16)).toUpper, (Nat.digitChar (b.toNat % 16)).toUpper] := rfl
  have hvalue := Hex.value_map_toUpper_padded 2 b.toNat
  rw [hpadded, Nat.mod_eq_of_lt (show b.toNat < 16 ^ 2 from b.toNat_lt)] at hvalue
  rw [strayByte, hpadded]
  simp [readAtom?, readEscape?, hvalue]

/-- The digits of a code point end before the brace. -/
theorem ne_brace_of_mem_short {n : Nat} {c : Char} (h : c ∈ Hex.short n) : c ≠ '\x7d' := by
  obtain ⟨d, hd, rfl⟩ := Hex.exists_digitChar_of_mem_short h
  interval_cases d <;> decide

theorem readAtom?_codePointEscape (c : Char) (rest : List Char) :
    readAtom? first (codePointEscape c ++ rest) = some (.inl c, rest) := by
  have htext : codePointEscape c ++ rest =
      '\\' :: 'u' :: '\x7b' :: (Hex.short c.toNat ++ '\x7d' :: rest) := by
    simp [codePointEscape]
  have hdigits : (Hex.short c.toNat ++ '\x7d' :: rest).takeWhile (· ≠ '\x7d') =
      Hex.short c.toNat := by
    rw [List.takeWhile_append_of_pos fun d hd => by simpa using ne_brace_of_mem_short hd]
    simp
  have hrest : (Hex.short c.toNat ++ '\x7d' :: rest).drop ((Hex.short c.toNat).length + 1) =
      rest := by
    rw [List.drop_append]
    simp
  rw [htext, readAtom?, if_pos rfl, readEscape?]
  simp only [hdigits, hrest, Hex.value_short, Char.ofNat_toNat]

theorem readAtom?_literalChar (h : ReadableDelimiter delimiter first) (c : Char)
    (rest : List Char) :
    readAtom? first (literalChar delimiter c ++ rest) = some (.inl c, rest) := by
  obtain ⟨hfirst, hnot⟩ := h
  unfold literalChar
  split
  · simp [readAtom?, readEscape?]
  · simp [readAtom?, readEscape?]
  · simp [readAtom?, readEscape?]
  · simp [readAtom?, readEscape?]
  · next hback _ _ _ =>
    split
    · next hd =>
      rw [hfirst] at hd
      obtain rfl := Option.some.inj hd
      have hescape : readEscape? first (first :: rest) = some (.inl first, rest) := by
        unfold readEscape?
        split <;> simp_all
      exact hescape
    · next hd =>
      split
      · exact readAtom?_codePointEscape c rest
      · have hne : c ≠ first := fun heq => hd (heq ▸ hfirst)
        exact (if_neg hback).trans (if_neg hne)

theorem readAtom?_atomText (h : ReadableDelimiter delimiter first) (atom : Char ⊕ UInt8)
    (rest : List Char) :
    readAtom? first (atomText delimiter atom ++ rest) = some (atom, rest) := by
  cases atom with
  | inl c => exact readAtom?_literalChar h c rest
  | inr b => exact readAtom?_strayByte b rest

/-- The body ends at the delimiter. -/
theorem readAtom?_delimiter (h : ReadableDelimiter delimiter first) (rest : List Char) :
    readAtom? first (first :: rest) = none := by
  have hback : first ≠ '\\' := fun heq => h.2 (heq ▸ List.mem_cons_self)
  exact (if_neg hback).trans (if_pos rfl)

/-- The bytes between the delimiters can be told from the text, and so can where they end. -/
theorem cancel_literalBody (h : ReadableDelimiter delimiter first) {bytes bytes' : Bytes}
    {rest rest' : List Char} (heq : literalBody delimiter bytes ++ first :: rest =
      literalBody delimiter bytes' ++ first :: rest') :
    bytes = bytes' ∧ rest = rest' := by
  rw [literalBody_eq, literalBody_eq] at heq
  obtain ⟨hatoms, hrest⟩ := cancel_pieces (fun _ => True)
    (fun atom _ => readAtom?_atomText h atom) (fun _ _ => trivial) (fun _ _ => trivial)
    (readAtom?_delimiter h rest) (readAtom?_delimiter h rest') heq
  rw [← flatMap_atoms bytes, hatoms, flatMap_atoms]
  exact ⟨rfl, (List.cons.inj hrest).2⟩

end Reading

end Peg.Text

namespace Peg.Literal

theorem toList_render_append (l : Literal) (rest : List Char) :
    l.render.toList ++ rest = '"' :: (Text.literalBody "\"" l.bytes ++
      '"' :: ((if l.ignoreCase then ['i'] else []) ++ rest)) := by
  unfold render Text.quoteBytes
  split <;> simp

/-- Literals can be told apart by their texts, whatever stands behind them but the mark for
letters in any case. -/
theorem cancel_render {l l' : Literal} {rest rest' : List Char}
    (hrest : ∀ c ∈ rest.head?, c ≠ 'i') (hrest' : ∀ c ∈ rest'.head?, c ≠ 'i')
    (heq : l.render.toList ++ rest = l'.render.toList ++ rest') : l = l' ∧ rest = rest' := by
  rw [toList_render_append, toList_render_append] at heq
  obtain ⟨hbytes, hmarks⟩ := Text.cancel_literalBody ⟨rfl, by decide⟩ (List.cons.inj heq).2
  obtain ⟨bytes, ignoreCase⟩ := l
  obtain ⟨bytes', ignoreCase'⟩ := l'
  obtain rfl : bytes = bytes' := hbytes
  cases ignoreCase <;> cases ignoreCase'
  · exact ⟨rfl, hmarks⟩
  · obtain rfl : rest = 'i' :: rest' := hmarks
    exact absurd rfl (hrest _ rfl)
  · obtain rfl : 'i' :: rest = rest' := hmarks
    exact absurd rfl (hrest' _ rfl)
  · exact ⟨rfl, (List.cons.inj hmarks).2⟩

end Peg.Literal
