import Mathlib.Data.List.Forall2
import Peg.CharClass
import Peg.Literal

/-!
Reading what was encoded. The bytes that encode a character lie in the ranges of
one row of the table of well-formed sequences, and the rows are told apart by
their first byte; so a reader finds the character again, whatever comes after.
Read from one boundary between characters, a text goes on at the next, and so does
the search for a literal or a class.
-/

namespace Peg.Utf8

/-- Each byte lies in the range for its place, and there are no more bytes. -/
def Form.Fits (form : Form) (bytes : Bytes) : Prop :=
  List.Forall₂ (fun range b => range.1 ≤ b ∧ b ≤ range.2) form.ranges bytes

theorem agreement_append {ranges : List (UInt8 × UInt8)} {bytes : Bytes}
    (h : List.Forall₂ (fun range b => range.1 ≤ b ∧ b ≤ range.2) ranges bytes) (rest : Bytes) :
    agreement ranges (bytes ++ rest) = ranges.length := by
  induction h with
  | nil => simp [agreement]
  | cons hrange _ ih => simp [agreement, hrange, ih]

/-- The rows are sorted by their first byte. -/
theorem pairwise_forms : forms.Pairwise fun form later =>
    ∀ range ∈ form.ranges.head?, ∀ above ∈ later.ranges.head?, range.2 < above.1 := by
  simp [forms]

theorem agreement_eq_zero {ranges : List (UInt8 × UInt8)} {lead : UInt8} {tail : Bytes}
    (h : ∀ range ∈ ranges.head?, range.2 < lead) : agreement ranges (lead :: tail) = 0 := by
  cases ranges with
  | nil => simp [agreement]
  | cons range ranges =>
    have habove := h range rfl
    have hnot : ¬ (range.1 ≤ lead ∧ lead ≤ range.2) := fun hin =>
      absurd habove (UInt8.not_lt.mpr hin.2)
    simp [agreement, hnot]

/-- The first row that agrees in anything with bytes that fit a row is that row. -/
theorem find?_form {form : Form} (hform : form ∈ forms) {lead : UInt8} {tail : Bytes}
    (hfits : form.Fits (lead :: tail)) (rest : Bytes) :
    forms.find? (fun other => agreement other.ranges (lead :: (tail ++ rest)) ≠ 0) =
      some form := by
  obtain ⟨before, after, hsplit⟩ := List.append_of_mem hform
  have hsorted := pairwise_forms
  rw [hsplit, List.pairwise_append] at hsorted
  have hagreement : agreement form.ranges (lead :: (tail ++ rest)) = form.ranges.length :=
    agreement_append hfits rest
  have hlength : form.ranges.length = tail.length + 1 := hfits.length_eq
  rw [List.find?_eq_some_iff_append]
  refine ⟨?_, before, after, hsplit, ?_⟩
  · rw [hagreement, hlength]
    simp
  · intro other hother
    have hzero : agreement other.ranges (lead :: (tail ++ rest)) = 0 := by
      apply agreement_eq_zero
      intro range hrange
      unfold Form.Fits at hfits
      cases hranges : form.ranges with
      | nil => simp [hranges] at hlength
      | cons first ranges =>
        rw [hranges, List.forall₂_cons] at hfits
        have hbelow := hsorted.2.2 other hother form List.mem_cons_self range hrange first
          (by simp [hranges])
        exact UInt8.lt_of_lt_of_le hbelow hfits.1.1
    simp [hzero]

/-- Bytes that fit a row are read as the character with their code point. -/
theorem first?_of_fits {form : Form} (hform : form ∈ forms) {bytes : Bytes}
    (hfits : form.Fits bytes) (rest : Bytes) :
    first? (bytes ++ rest) = some ⟨some (Char.ofNat (form.codePoint bytes)), bytes⟩ := by
  cases bytes with
  | nil =>
    -- no row is empty
    have hranges : form.ranges = [] := List.length_eq_zero_iff.mp hfits.length_eq
    have hnot : ∀ other ∈ forms, other.ranges ≠ [] := by decide
    exact absurd hranges (hnot form hform)
  | cons lead tail =>
    have hagreement : agreement form.ranges (lead :: (tail ++ rest)) = (lead :: tail).length :=
      (agreement_append hfits rest).trans hfits.length_eq
    have htake : (lead :: (tail ++ rest)).take (lead :: tail).length = lead :: tail :=
      List.take_left' rfl
    rw [List.cons_append, first?, find?_form hform hfits rest]
    simp only [hagreement, htake, hfits.length_eq, if_true]

/-- The row for a code point of three bytes: the second byte is kept off overlong
forms and off surrogates. -/
theorem exists_row_three {v : Nat} (hlow : 0x7FF < v) (hhigh : v ≤ 0xFFFF)
    (hvalid : v < 0xD800 ∨ 0xDFFF < v) :
    ∃ lead second, ⟨0xE0, [lead, second, (0x80, 0xBF)]⟩ ∈ forms ∧
      (lead.1.toNat ≤ v / 4096 + 224 ∧ v / 4096 + 224 ≤ lead.2.toNat) ∧
      second.1.toNat ≤ v / 64 % 64 + 128 ∧ v / 64 % 64 + 128 ≤ second.2.toNat := by
  by_cases hfirst : v < 0x1000
  · refine ⟨(0xE0, 0xE0), (0xA0, 0xBF), by simp [forms], ?_⟩
    simp
    omega
  by_cases hbelow : v < 0xD000
  · refine ⟨(0xE1, 0xEC), (0x80, 0xBF), by simp [forms], ?_⟩
    simp
    omega
  by_cases hbefore : v < 0xE000
  · refine ⟨(0xED, 0xED), (0x80, 0x9F), by simp [forms], ?_⟩
    simp
    omega
  · refine ⟨(0xEE, 0xEF), (0x80, 0xBF), by simp [forms], ?_⟩
    simp
    omega

/-- The row for a code point of four bytes. -/
theorem exists_row_four {v : Nat} (hlow : 0xFFFF < v) (hhigh : v < 0x110000) :
    ∃ lead second, ⟨0xF0, [lead, second, (0x80, 0xBF), (0x80, 0xBF)]⟩ ∈ forms ∧
      (lead.1.toNat ≤ v / 262144 + 240 ∧ v / 262144 + 240 ≤ lead.2.toNat) ∧
      second.1.toNat ≤ v / 4096 % 64 + 128 ∧ v / 4096 % 64 + 128 ≤ second.2.toNat := by
  by_cases hfirst : v < 0x40000
  · refine ⟨(0xF0, 0xF0), (0x90, 0xBF), by simp [forms], ?_⟩
    simp
    omega
  by_cases hbelow : v < 0x100000
  · refine ⟨(0xF1, 0xF3), (0x80, 0xBF), by simp [forms], ?_⟩
    simp
    omega
  · refine ⟨(0xF4, 0xF4), (0x80, 0x8F), by simp [forms], ?_⟩
    simp
    omega

/-- The encoding of a character fits a row, and the row gives its code point. -/
theorem exists_form_encodeChar (c : Char) :
    ∃ form ∈ forms, form.Fits (String.utf8EncodeChar c) ∧
      form.codePoint (String.utf8EncodeChar c) = c.toNat := by
  have hvalid : c.toNat < 0xD800 ∨ 0xDFFF < c.toNat ∧ c.toNat < 0x110000 := c.valid
  have hval : c.val.toNat = c.toNat := rfl
  rw [String.utf8EncodeChar.eq_1, hval]
  generalize c.toNat = v at hvalid
  by_cases hone : v ≤ 0x7F
  · refine ⟨⟨0x00, [(0x00, 0x7F)]⟩, by simp [forms], ?_, ?_⟩
    · simp [Form.Fits, hone, UInt8.le_iff_toNat_le]
      omega
    · simp [Form.codePoint, hone]
      omega
  by_cases htwo : v ≤ 0x7FF
  · refine ⟨⟨0xC0, [(0xC2, 0xDF), (0x80, 0xBF)]⟩, by simp [forms], ?_, ?_⟩
    · simp [Form.Fits, hone, htwo, UInt8.le_iff_toNat_le]
      omega
    · simp [Form.codePoint, hone, htwo]
      omega
  by_cases hthree : v ≤ 0xFFFF
  · obtain ⟨lead, second, hform, hlead, hsecond⟩ :=
      exists_row_three (v := v) (by omega) hthree (by omega)
    refine ⟨_, hform, ?_, ?_⟩
    · simp [Form.Fits, hone, htwo, hthree, UInt8.le_iff_toNat_le]
      omega
    · simp [Form.codePoint, hone, htwo, hthree]
      omega
  · obtain ⟨lead, second, hform, hlead, hsecond⟩ :=
      exists_row_four (v := v) (by omega) (by omega)
    refine ⟨_, hform, ?_, ?_⟩
    · simp [Form.Fits, hone, htwo, hthree, UInt8.le_iff_toNat_le]
      omega
    · simp [Form.codePoint, hone, htwo, hthree]
      omega

/-- A reader finds the character that was encoded. -/
theorem first?_encodeChar (c : Char) (rest : Bytes) :
    first? (String.utf8EncodeChar c ++ rest) = some ⟨some c, String.utf8EncodeChar c⟩ := by
  obtain ⟨form, hform, hfits, hcode⟩ := exists_form_encodeChar c
  rw [first?_of_fits hform hfits rest, hcode, Char.ofNat_toNat]

/-! ## Texts -/

/-- The encoding of characters one after another. -/
def encodeChars (cs : List Char) : Bytes :=
  cs.flatMap String.utf8EncodeChar

theorem encodeChars_append (cs ds : List Char) :
    encodeChars (cs ++ ds) = encodeChars cs ++ encodeChars ds :=
  List.flatMap_append

theorem encodeChars_cons (c : Char) (cs : List Char) :
    encodeChars (c :: cs) = String.utf8EncodeChar c ++ encodeChars cs :=
  List.flatMap_cons

theorem encode_ofList (cs : List Char) : encode (String.ofList cs) = encodeChars cs := by
  rw [encode, String.toList_ofList, encodeChars]

theorem segments_encodeChars (cs : List Char) :
    segments (encodeChars cs) = cs.map fun c => ⟨some c, String.utf8EncodeChar c⟩ := by
  induction cs with
  | nil => rfl
  | cons c cs ih =>
    have hfirst := first?_encodeChar c (encodeChars cs)
    have hrest : (String.utf8EncodeChar c ++ encodeChars cs).drop
        (Segment.size ⟨some c, String.utf8EncodeChar c⟩) = encodeChars cs := List.drop_left
    rw [encodeChars_cons, segments_of_first? hfirst, hrest, ih, List.map_cons]

/-- What was encoded is read back. -/
theorem lossy_encodeChars (cs : List Char) : lossy (encodeChars cs) = String.ofList cs := by
  have hchar : Segment.char ∘ (fun c => ⟨some c, String.utf8EncodeChar c⟩) = id := rfl
  rw [lossy, segments_encodeChars, List.map_map, hchar, List.map_id]

theorem lossy_encode (text : String) : lossy (encode text) = text :=
  (lossy_encodeChars text.toList).trans String.ofList_toList

/-- Where the encoding of characters begins with that of others, the characters do. -/
theorem isPrefix_of_encodeChars {cs ds : List Char} (h : encodeChars cs <+: encodeChars ds) :
    cs <+: ds := by
  induction cs generalizing ds with
  | nil => exact List.nil_prefix
  | cons c cs ih =>
    obtain ⟨rest, hrest⟩ := h
    rw [encodeChars_cons, List.append_assoc] at hrest
    have hfirst := first?_encodeChar c (encodeChars cs ++ rest)
    rw [hrest] at hfirst
    cases ds with
    | nil => cases hfirst
    | cons d ds =>
      rw [encodeChars_cons, first?_encodeChar] at hfirst
      obtain rfl : d = c := by simpa using congrArg (·.bind Segment.char?) hfirst
      rw [encodeChars_cons, List.append_cancel_left_eq] at hrest
      exact (List.prefix_cons_inj d).mpr (ih ⟨rest, hrest⟩)

/-- The row of ASCII apart, all bytes of a row are above ASCII. -/
theorem ascii_or_above {form : Form} (hform : form ∈ forms) :
    (form.marker = 0 ∧ form.ranges = [(0x00, 0x7F)]) ∨ ∀ range ∈ form.ranges, 0x80 ≤ range.1 := by
  have hrows : ∀ form ∈ forms, (form.marker = 0 ∧ form.ranges = [(0x00, 0x7F)]) ∨
      form.ranges.all (0x80 ≤ ·.1) := by decide
  simpa using hrows form hform

/-- The bytes of a character that is not ASCII are not ASCII either. -/
theorem le_of_mem_encodeChar {c : Char} (hc : 0x7F < c.toNat) {b : UInt8}
    (hb : b ∈ String.utf8EncodeChar c) : 0x80 ≤ b := by
  obtain ⟨form, hform, hfits, hcode⟩ := exists_form_encodeChar c
  generalize String.utf8EncodeChar c = bytes at hb hfits hcode
  unfold Form.Fits at hfits
  rcases ascii_or_above hform with ⟨hmarker, hranges⟩ | hlow
  · rw [hranges] at hfits
    obtain ⟨only, rest, honly, hrest, rfl⟩ := List.forall₂_cons_left_iff.mp hfits
    obtain rfl := List.forall₂_nil_left_iff.mp hrest
    have hcode : only.toNat = c.toNat := by simpa [Form.codePoint, hmarker] using hcode
    have hascii : only.toNat ≤ 0x7F := UInt8.le_iff_toNat_le.mp honly.2
    omega
  · clear hcode
    generalize form.ranges = ranges at hfits hlow
    induction hfits with
    | nil => cases hb
    | cons hrange _ ih =>
      rcases List.mem_cons.mp hb with rfl | hb
      · exact UInt8.le_trans (hlow _ List.mem_cons_self) hrange.1
      · exact ih hb fun range hrange => hlow range (List.mem_cons_of_mem _ hrange)

theorem map_asciiLower_encodeChar (c : Char) :
    (String.utf8EncodeChar c).map asciiLower = String.utf8EncodeChar c.toLower := by
  by_cases hc : c.toNat ≤ 0x7F
  · have hascii : ∀ n ≤ 0x7F, (String.utf8EncodeChar (Char.ofNat n)).map asciiLower =
        String.utf8EncodeChar (Char.ofNat n).toLower := by decide
    rw [← Char.ofNat_toNat c]
    exact hascii c.toNat hc
  · have hbytes : ∀ b ∈ String.utf8EncodeChar c, asciiLower b = b := by
      intro b hb
      have hlow := le_of_mem_encodeChar (Nat.lt_of_not_le hc) hb
      rw [asciiLower, if_neg]
      intro hletter
      exact absurd (UInt8.le_trans hlow hletter.2) (by decide)
    have hlower : c.toLower = c := by
      refine dif_neg fun hupper => hc ?_
      have hle : c.toNat ≤ 0x5A := UInt32.le_iff_toNat_le.mp hupper.2
      omega
    rw [hlower, List.map_congr_left hbytes, List.map_id']

theorem map_asciiLower_encodeChars (cs : List Char) :
    (encodeChars cs).map asciiLower = encodeChars (cs.map Char.toLower) := by
  rw [encodeChars, encodeChars, List.map_flatMap, List.flatMap_map]
  exact List.flatMap_congr fun c _ => map_asciiLower_encodeChar c

/-! ## Boundaries -/

/-- The input is the encoding of a text, and the position lies between two of its characters,
or at one of its ends. -/
def Boundary (input : Bytes) (pos : Nat) : Prop :=
  ∃ before after, input = encodeChars before ++ encodeChars after ∧
    pos = (encodeChars before).length

theorem Boundary.start (text : String) : Boundary (encode text) 0 :=
  ⟨[], text.toList, rfl, rfl⟩

theorem Boundary.max {input : Bytes} {pos pos' : Nat} (h : Boundary input pos)
    (h' : Boundary input pos') : Boundary input (Max.max pos pos') := by
  rw [Nat.max_def]
  split
  · exact h'
  · exact h

/-- The text between two boundaries. -/
theorem Boundary.exists_between {input : Bytes} {start stop : Nat} (hstart : Boundary input start)
    (hstop : Boundary input stop) (hle : start ≤ stop) :
    ∃ before middle after, input = encodeChars (before ++ middle ++ after) ∧
      start = (encodeChars before).length ∧ stop = (encodeChars (before ++ middle)).length := by
  obtain ⟨before, after, hinput, rfl⟩ := hstart
  obtain ⟨longer, after', hinput', rfl⟩ := hstop
  have hfront : encodeChars before <+: encodeChars longer :=
    List.prefix_of_prefix_length_le ⟨_, hinput.symm⟩ ⟨_, hinput'.symm⟩ hle
  obtain ⟨middle, rfl⟩ := isPrefix_of_encodeChars hfront
  exact ⟨before, middle, after', by rw [hinput', encodeChars_append (before ++ middle)], rfl, rfl⟩

/-- Of the encoding of characters some of the first characters are taken, if any. -/
def TakesCharacters (width? : Bytes → Option Nat) : Prop :=
  ∀ cs size, width? (encodeChars cs) = some size →
    ∃ front rest, cs = front ++ rest ∧ size = (encodeChars front).length

theorem Boundary.advance {input : Bytes} {pos : Nat} (h : Boundary input pos)
    {width? : Bytes → Option Nat} (hwidth : TakesCharacters width?) {size : Nat}
    (hsize : width? (input.drop pos) = some size) : Boundary input (pos + size) := by
  obtain ⟨before, after, rfl, rfl⟩ := h
  rw [List.drop_left] at hsize
  obtain ⟨front, rest, rfl, rfl⟩ := hwidth after size hsize
  refine ⟨before ++ front, rest, ?_, ?_⟩
  · rw [encodeChars_append, encodeChars_append, List.append_assoc]
  · rw [encodeChars_append, List.length_append]

theorem takesCharacters_first : TakesCharacters fun rest => (first? rest).map Segment.size := by
  intro cs size hsize
  cases cs with
  | nil => cases hsize
  | cons c cs =>
    dsimp only at hsize
    rw [encodeChars_cons, first?_encodeChar] at hsize
    obtain rfl := Option.some.inj hsize
    exact ⟨[c], cs, rfl, by simp [encodeChars, Segment.size]⟩

end Peg.Utf8

namespace Peg.CharClass

/-- A class takes the encoding of a character just if the character is of it. -/
theorem width?_encodeChar (cls : CharClass) (c : Char) (rest : Bytes) :
    cls.width? (String.utf8EncodeChar c ++ rest) =
      if cls.contains c then some (String.utf8EncodeChar c).length else none := by
  rw [width?, Utf8.first?_encodeChar]
  rfl

theorem takesCharacters (cls : CharClass) : Utf8.TakesCharacters cls.width? := by
  intro cs size hsize
  apply Utf8.takesCharacters_first cs size
  unfold width? at hsize
  split at hsize
  · next segment hsegment =>
    dsimp only
    rw [hsegment]
    split at hsize
    · exact hsize
    · cases hsize
  · cases hsize

end Peg.CharClass

namespace Peg.Literal

open Utf8

/-- The bytes of the literal are the encoding of a text. -/
def Valid (l : Literal) : Prop :=
  ∃ text, l.bytes = encode text

/-- A literal that ignores case is kept in small letters, which encode a text if the bytes that
it was made of do. -/
theorem valid_ignoringCase (text : String) : (ignoringCase (encode text)).Valid := by
  refine ⟨String.ofList (text.toList.map Char.toLower), ?_⟩
  rw [encode_ofList]
  exact map_asciiLower_encodeChars text.toList

theorem Valid.takesCharacters {l : Literal} (h : l.Valid) : TakesCharacters l.width? := by
  obtain ⟨text, htext⟩ := h
  intro cs size hsize
  rw [width?] at hsize
  split at hsize
  · next haccepts =>
    obtain rfl := Option.some.inj hsize
    -- Both sides are compared in small letters, or as they are; either way byte by byte, so
    -- that the characters of the one are the first characters of the other.
    unfold accepts at haccepts
    rw [htext, encode, ← encodeChars] at haccepts ⊢
    split at haccepts
    · have hlower := eq_of_beq haccepts
      rw [List.map_take, map_asciiLower_encodeChars, map_asciiLower_encodeChars] at hlower
      have hfront := isPrefix_of_encodeChars (hlower ▸ List.take_prefix _ _)
      rw [List.prefix_iff_eq_take, List.length_map, ← List.map_take] at hfront
      refine ⟨_, _, (List.take_append_drop text.toList.length cs).symm, ?_⟩
      rw [← List.length_map asciiLower, map_asciiLower_encodeChars, hfront,
        ← map_asciiLower_encodeChars, List.length_map]
    · have hfront := isPrefix_of_encodeChars (eq_of_beq haccepts ▸ List.take_prefix _ _)
      obtain ⟨rest, rfl⟩ := hfront
      exact ⟨_, rest, rfl, rfl⟩
  · cases hsize

end Peg.Literal
