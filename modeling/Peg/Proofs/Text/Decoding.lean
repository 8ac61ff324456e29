import Peg.Proofs.Text.Literal

/-!
Decoding a byte literal. What stands between the delimiters is read from left to right: a
backslash begins an escape, and what begins none stands for itself. Read so, the text of a
literal gives back its bytes, whether they encode a text or not. The delimiter has to begin
with a character that escapes are not written with; then that character occurs in the literal
only behind the backslash of its own escape, and nothing in between can be taken for the end.
-/

namespace Peg.Text

open Utf8

/-! ## The decoder -/

/-- A digit of a number in hexadecimal, in small letters or in capitals. -/
def Hex.isDigit (c : Char) : Bool :=
  c.isDigit || ('a' ≤ c && c ≤ 'f') || ('A' ≤ c && c ≤ 'F')

/-- What follows a backslash is no number, or one that is written as it has to be: two digits
for a byte, or the code point of a character in braces. -/
def wellNumbered : List Char → Bool
  | 'u' :: '\x7b' :: rest =>
    let digits := rest.takeWhile Hex.isDigit
    digits ≠ [] && rest[digits.length]? = some '\x7d' &&
      (Hex.value digits < 0xD800 || (0xDFFF < Hex.value digits && Hex.value digits < 0x110000))
  | 'x' :: high :: low :: _ => Hex.isDigit high && Hex.isDigit low
  | _ => true

/-- The escape at the front of a text, if there is one, and the text behind it. -/
def escape? (delimiter : Char) : List Char → Option ((Char ⊕ UInt8) × List Char)
  | '\\' :: text => if wellNumbered text then readEscape? delimiter text else none
  | _ => none

theorem length_of_readEscape? {delimiter : Char} {text rest : List Char} {atom : Char ⊕ UInt8}
    (h : readEscape? delimiter text = some (atom, rest)) : rest.length < text.length := by
  unfold readEscape? at h
  split at h
  case h_6 c rest' _ _ _ _ _ =>
    split at h
    · cases h
      exact Nat.lt_succ_self _
    · cases h
  case h_7 => cases h
  all_goals
    cases h
    simp only [List.length_cons, List.length_drop]
    omega

theorem length_of_escape? {delimiter : Char} {text rest : List Char} {atom : Char ⊕ UInt8}
    (h : escape? delimiter text = some (atom, rest)) : rest.length < text.length := by
  unfold escape? at h
  split at h
  · split at h
    · exact Nat.lt_succ_of_lt (length_of_readEscape? h)
    · cases h
  · cases h

/-- The bytes that a text between delimiters stands for: an escape for what it names, and every
character that begins none for itself. -/
def decode (delimiter : Char) : List Char → Bytes
  | [] => []
  | c :: text =>
    match _ : escape? delimiter (c :: text) with
    | some (atom, rest) => atomBytes atom ++ decode delimiter rest
    | none => String.utf8EncodeChar c ++ decode delimiter text
termination_by text => text.length
decreasing_by
  · exact length_of_escape? ‹_›
  · exact Nat.lt_succ_self _

theorem decode_of_escape? {delimiter : Char} {text rest : List Char} {atom : Char ⊕ UInt8}
    (h : escape? delimiter text = some (atom, rest)) :
    decode delimiter text = atomBytes atom ++ decode delimiter rest := by
  cases text with
  | nil => cases h
  | cons c text =>
    rw [decode]
    split
    · next hread =>
      rw [h] at hread
      cases hread
      rfl
    · next hread =>
      rw [h] at hread
      cases hread

theorem decode_cons {delimiter c : Char} (hc : c ≠ '\\') (text : List Char) :
    decode delimiter (c :: text) = String.utf8EncodeChar c ++ decode delimiter text := by
  have hnone : escape? delimiter (c :: text) = none := by
    unfold escape?
    split
    · next heq => exact absurd (List.cons.inj heq).1 hc
    · rfl
  rw [decode]
  split
  · next hread =>
    rw [hnone] at hread
    cases hread
  · rfl

/-! ## Where the delimiter stands -/

/-- Read from left to right, the text ends in a backslash that is not escaped itself. -/
def endsInEscape : List Char → Bool
  | [] => false
  | ['\\'] => true
  | '\\' :: _ :: rest => endsInEscape rest
  | _ :: rest => endsInEscape rest

/-- The character occurs in the text only directly behind a backslash that escapes it. -/
def EscapedOnly (d : Char) (text : List Char) : Prop :=
  ∀ before after, text = before ++ d :: after → endsInEscape before = true

namespace EscapedOnly

variable {d : Char} {rest : List Char}

theorem nil (d : Char) : EscapedOnly d [] := by
  intro before after h
  simp at h

theorem escape (hd : d ≠ '\\') (c : Char) (h : EscapedOnly d rest) :
    EscapedOnly d ('\\' :: c :: rest) := by
  intro before after heq
  match before with
  | [] => exact absurd (List.cons.inj heq).1.symm hd
  | [b] =>
    obtain rfl : '\\' = b := (List.cons.inj heq).1
    rfl
  | b :: b' :: before =>
    obtain ⟨rfl, htail⟩ := List.cons.inj heq
    exact h before after (List.cons.inj htail).2

theorem plain {c : Char} (hback : c ≠ '\\') (hd : c ≠ d) (h : EscapedOnly d rest) :
    EscapedOnly d (c :: rest) := by
  intro before after heq
  cases before with
  | nil => exact absurd (List.cons.inj heq).1 hd
  | cons b before =>
    obtain ⟨rfl, htail⟩ := List.cons.inj heq
    have hbefore := h before after htail
    unfold endsInEscape
    split <;> simp_all

theorem append {front : List Char} (hfront : ∀ c ∈ front, c ≠ '\\' ∧ c ≠ d)
    (h : EscapedOnly d rest) : EscapedOnly d (front ++ rest) := by
  induction front with
  | nil => exact h
  | cons c front ih =>
    obtain ⟨hback, hd⟩ := hfront c List.mem_cons_self
    exact (ih fun c hc => hfront c (List.mem_cons_of_mem _ hc)).plain hback hd

end EscapedOnly

/-! ## Literals -/

theorem Hex.isDigit_digitChar {d : Nat} (h : d < 16) : isDigit (Nat.digitChar d) = true := by
  interval_cases d <;> rfl

theorem Hex.isDigit_toUpper {d : Nat} (h : d < 16) :
    isDigit (Nat.digitChar d).toUpper = true := by
  interval_cases d <;> rfl

theorem Hex.isDigit_of_mem_short {n : Nat} {c : Char} (h : c ∈ short n) : isDigit c = true := by
  obtain ⟨d, hd, rfl⟩ := exists_digitChar_of_mem_short h
  exact isDigit_digitChar hd

theorem strayByte_eq (b : UInt8) :
    strayByte b = ['\\', 'x', (Nat.digitChar (b.toNat / 16 % 16)).toUpper,
      (Nat.digitChar (b.toNat % 16)).toUpper] := rfl

theorem codePointEscape_append (c : Char) (rest : List Char) :
    codePointEscape c ++ rest =
      '\\' :: 'u' :: '\x7b' :: (Hex.short c.toNat ++ '\x7d' :: rest) := by
  simp [codePointEscape]

/-- The delimiter begins with a character that no escape is written with. -/
structure PlainDelimiter (delimiter : String) (first : Char) : Prop where
  head : delimiter.toList.head? = some first
  not_escape : first ∉ ['\\', '\x7b', '\x7d', 'n', 't', 'r', 'u', 'x']
  not_digit : Hex.isDigit first = false

section Literals

variable {delimiter : String} {first : Char}

theorem PlainDelimiter.readable (h : PlainDelimiter delimiter first) :
    ReadableDelimiter delimiter first := by
  refine ⟨h.head, fun hmem => h.not_escape ?_⟩
  simp only [List.mem_cons, List.not_mem_nil, or_false] at hmem ⊢
  rcases hmem with h | h | h | h | h | h <;> simp [h]

/-- The digits of a number are neither backslashes nor the delimiter. -/
theorem PlainDelimiter.digit (h : PlainDelimiter delimiter first) {c : Char}
    (hc : Hex.isDigit c = true) : c ≠ '\\' ∧ c ≠ first := by
  refine ⟨?_, ?_⟩
  · rintro rfl
    cases hc
  · rintro rfl
    rw [h.not_digit] at hc
    cases hc

theorem PlainDelimiter.ne (h : PlainDelimiter delimiter first) {c : Char}
    (hc : c ∈ ['\\', '\x7b', '\x7d', 'n', 't', 'r', 'u', 'x']) : c ≠ first :=
  fun heq => h.not_escape (heq ▸ hc)

theorem escapedOnly_codePointEscape (h : PlainDelimiter delimiter first) (c : Char)
    {rest : List Char} (hrest : EscapedOnly first rest) :
    EscapedOnly first (codePointEscape c ++ rest) := by
  have hclose : EscapedOnly first ('\x7d' :: rest) :=
    hrest.plain (by decide) (h.ne (by simp))
  have hdigits : EscapedOnly first (Hex.short c.toNat ++ '\x7d' :: rest) :=
    hclose.append fun d hd => h.digit (Hex.isDigit_of_mem_short hd)
  rw [codePointEscape_append]
  exact (hdigits.plain (by decide) (h.ne (by simp))).escape (h.ne (by simp)).symm 'u'

theorem escapedOnly_literalChar (h : PlainDelimiter delimiter first) (c : Char)
    {rest : List Char} (hrest : EscapedOnly first rest) :
    EscapedOnly first (literalChar delimiter c ++ rest) := by
  have hback : first ≠ '\\' := (h.ne (by simp)).symm
  unfold literalChar
  split
  · exact hrest.escape hback '\\'
  · exact hrest.escape hback 'n'
  · exact hrest.escape hback 't'
  · exact hrest.escape hback 'r'
  · next hc _ _ _ =>
    split
    · exact hrest.escape hback c
    · next hd =>
      split
      · exact escapedOnly_codePointEscape h c hrest
      · exact hrest.plain hc fun heq => hd (heq ▸ h.head)

theorem escapedOnly_strayByte (h : PlainDelimiter delimiter first) (b : UInt8)
    {rest : List Char} (hrest : EscapedOnly first rest) :
    EscapedOnly first (strayByte b ++ rest) := by
  have hdigit (n : Nat) := h.digit (Hex.isDigit_toUpper (Nat.mod_lt n (show 0 < 16 by decide)))
  have hlow := hrest.plain (hdigit b.toNat).1 (hdigit b.toNat).2
  have hhigh := hlow.plain (hdigit (b.toNat / 16)).1 (hdigit (b.toNat / 16)).2
  rw [strayByte_eq]
  exact hhigh.escape (h.ne (by simp)).symm 'x'

theorem escapedOnly_literalBody (h : PlainDelimiter delimiter first) (bytes : Bytes) :
    EscapedOnly first (literalBody delimiter bytes) := by
  rw [literalBody_eq]
  induction atoms bytes with
  | nil => exact .nil first
  | cons atom atoms ih =>
    rw [List.flatMap_cons]
    cases atom with
    | inl c => exact escapedOnly_literalChar h c ih
    | inr b => exact escapedOnly_strayByte h b ih

/-- The code point of a character is written as it has to be. -/
theorem wellNumbered_codePoint (c : Char) (rest : List Char) :
    wellNumbered ('u' :: '\x7b' :: (Hex.short c.toNat ++ '\x7d' :: rest)) = true := by
  have hdigits : (Hex.short c.toNat ++ '\x7d' :: rest).takeWhile Hex.isDigit =
      Hex.short c.toNat := by
    rw [List.takeWhile_append_of_pos fun _ => Hex.isDigit_of_mem_short,
      List.takeWhile_cons_of_neg (by decide), List.append_nil]
  have hclose : (Hex.short c.toNat ++ '\x7d' :: rest)[(Hex.short c.toNat).length]? =
      some '\x7d' := by
    rw [List.getElem?_append_right (Nat.le_refl _), Nat.sub_self]
    rfl
  have hvalid : c.toNat < 0xD800 ∨ 0xDFFF < c.toNat ∧ c.toNat < 0x110000 := c.valid
  simp only [wellNumbered, hdigits, hclose, Hex.value_short]
  simpa using ⟨Hex.short_ne_nil _, hvalid⟩

/-- Whatever escape a literal is written with, its number is written as it has to be. -/
theorem wellNumbered_of_atomText (h : PlainDelimiter delimiter first) {atom : Char ⊕ UInt8}
    {text rest : List Char} (heq : atomText delimiter atom ++ rest = '\\' :: text) :
    wellNumbered text = true := by
  cases atom with
  | inr b =>
    have hdigit (n : Nat) := Hex.isDigit_toUpper (Nat.mod_lt n (show 0 < 16 by decide))
    rw [atomText, strayByte_eq] at heq
    obtain rfl := (List.cons.inj heq).2
    exact Bool.and_eq_true_iff.mpr ⟨hdigit _, hdigit _⟩
  | inl c =>
    rw [atomText] at heq
    unfold literalChar at heq
    split at heq
    iterate 4
      · obtain rfl := (List.cons.inj heq).2
        rfl
    · next hback _ _ _ =>
      split at heq
      · next hhead =>
        obtain rfl := (List.cons.inj heq).2
        rw [h.head] at hhead
        obtain rfl := Option.some.inj hhead
        unfold wellNumbered
        split
        · next hu => exact absurd (List.cons.inj hu).1.symm (h.ne (by simp))
        · next hx => exact absurd (List.cons.inj hx).1.symm (h.ne (by simp))
        · rfl
      · split at heq
        · rw [codePointEscape_append] at heq
          obtain rfl := (List.cons.inj heq).2
          exact wellNumbered_codePoint c rest
        · exact absurd (List.cons.inj heq).1 hback

theorem decode_atomText (h : PlainDelimiter delimiter first) (atom : Char ⊕ UInt8)
    (rest : List Char) :
    decode first (atomText delimiter atom ++ rest) = atomBytes atom ++ decode first rest := by
  have hread := readAtom?_atomText h.readable atom rest
  cases htext : atomText delimiter atom ++ rest with
  | nil =>
    rw [htext] at hread
    cases hread
  | cons c text =>
    rw [htext, readAtom?] at hread
    by_cases hc : c = '\\'
    · subst hc
      rw [if_pos rfl] at hread
      have hescape : escape? first ('\\' :: text) = some (atom, rest) :=
        (if_pos (wellNumbered_of_atomText h htext)).trans hread
      exact decode_of_escape? hescape
    · rw [if_neg hc] at hread
      split at hread
      · cases hread
      · cases hread
        exact decode_cons hc _

theorem decode_literalBody (h : PlainDelimiter delimiter first) (bytes : Bytes) :
    decode first (literalBody delimiter bytes) = bytes := by
  have hatoms (as : List (Char ⊕ UInt8)) :
      decode first (as.flatMap (atomText delimiter)) = as.flatMap atomBytes := by
    induction as with
    | nil => rw [List.flatMap_nil, List.flatMap_nil, decode]
    | cons atom as ih => rw [List.flatMap_cons, List.flatMap_cons, decode_atomText h, ih]
  rw [literalBody_eq, hatoms, flatMap_atoms]

end Literals

end Peg.Text

namespace Peg

open Text

/-- Literals that are written alike are alike. -/
theorem Literal.render_injective : Function.Injective render := by
  intro l l' heq
  have htext : l.render.toList ++ [] = l'.render.toList ++ [] := by rw [heq]
  exact (cancel_render (by simp) (by simp) htext).1

/-- Between its delimiters a byte literal has the first character of the delimiter only where it
is escaped, and decoding what stands there gives back the bytes, whatever they are. So other
bytes are written in another way; and the text of a literal of a grammar tells its bytes and
whether case matters. -/
theorem byte_literals_decode {delimiter : String} {first : Char}
    (h : PlainDelimiter delimiter first) :
    (∀ bytes : Bytes, ∃ body : List Char,
      quoteBytes delimiter bytes = delimiter ++ String.ofList body ++ delimiter ∧
        EscapedOnly first body ∧ decode first body = bytes) ∧
    Function.Injective (quoteBytes delimiter) ∧
    Function.Injective Literal.render := by
  have hdecodes (bytes : Bytes) : ∃ body : List Char,
      quoteBytes delimiter bytes = delimiter ++ String.ofList body ++ delimiter ∧
        EscapedOnly first body ∧ decode first body = bytes :=
    ⟨literalBody delimiter bytes, rfl, escapedOnly_literalBody h bytes,
      decode_literalBody h bytes⟩
  refine ⟨hdecodes, ?_, Literal.render_injective⟩
  intro bytes bytes' heq
  obtain ⟨body, htext, -, hbytes⟩ := hdecodes bytes
  obtain ⟨body', htext', -, hbytes'⟩ := hdecodes bytes'
  have hbodies : body = body' := by
    rw [htext, htext'] at heq
    have hchars := congrArg String.toList heq
    simpa using hchars
  rw [← hbytes, hbodies, hbytes']

/-- Quotes, backslashes, control characters, an accented letter and bytes that encode nothing,
in double quotes. -/
theorem byte_literals_decode_in_quotes :
    let bytes : Bytes := [0x22, 0x5C, 0x6E, 0x07, 0xC3, 0xA9, 0xFF, 0x34, 0xE2, 0x82, 0x22]
    PlainDelimiter "\"" '"' ∧
    ∃ body : List Char, quoteBytes "\"" bytes = "\"" ++ String.ofList body ++ "\"" ∧
      EscapedOnly '"' body ∧ decode '"' body = bytes := by
  intro bytes
  have hplain : PlainDelimiter "\"" '"' := ⟨rfl, by decide, by decide⟩
  exact ⟨hplain, (byte_literals_decode hplain).1 bytes⟩

end Peg
