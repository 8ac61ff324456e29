import Mathlib.Data.List.Basic
import Peg.CharClass
import Peg.Proofs.Text.Pieces

/-!
Reading a character class back. Each character in the brackets can be read off, escaped or
not. A dash is not escaped, so what is read is a list of characters in which a dash may be
the sign of a range or a character of the class; but there is only one way to take it, since
a single dash comes first and ranges are three characters long. So the text of a class tells
its ranges, and which single characters it has.
-/

namespace Peg.CharClass

open Text

/-! ## Characters in brackets -/

/-- Reads the first character in the brackets, if they do not close there. -/
def readChar? : List Char → Option (Char × List Char)
  | ']' :: _ => none
  | '\\' :: 't' :: rest => some ('\t', rest)
  | '\\' :: 'n' :: rest => some ('\n', rest)
  | '\\' :: 'r' :: rest => some ('\r', rest)
  | '\\' :: 'x' :: rest => some (Char.ofNat (Hex.value (rest.take 2)), rest.drop 2)
  | '\\' :: 'u' :: rest => some (Char.ofNat (Hex.value (rest.take 4)), rest.drop 4)
  | '\\' :: 'U' :: rest => some (Char.ofNat (Hex.value (rest.take 8)), rest.drop 8)
  | '\\' :: c :: rest => some (c, rest)
  | c :: rest => some (c, rest)
  | [] => none

/-- A code point in as many digits as are said to be there. -/
theorem read_padded (width : Nat) {c : Char} (h : c.toNat < 16 ^ width) (rest : List Char) :
    (Char.ofNat (Hex.value ((Hex.padded width c.toNat ++ rest).take width)),
      (Hex.padded width c.toNat ++ rest).drop width) = (c, rest) := by
  rw [List.take_left' (Hex.length_padded ..), List.drop_left' (Hex.length_padded ..),
    Hex.value_padded, Nat.mod_eq_of_lt h, Char.ofNat_toNat]

theorem readChar?_renderChar (c : Char) (rest : List Char) :
    readChar? (renderChar c ++ rest) = some (c, rest) := by
  unfold renderChar
  split
  · rfl
  · rfl
  · rfl
  · rfl
  · rfl
  · rfl
  · next htab hnewline hreturn hback _ _ =>
    dsimp only
    split
    · change readChar? (c :: rest) = _
      unfold readChar?
      split <;> simp_all
    · split
      · next hsmall => exact congrArg some (read_padded 2 (by omega) rest)
      · split
        · next hsmall => exact congrArg some (read_padded 4 (by omega) rest)
        · have hvalid : c.toNat < 0xD800 ∨ 0xDFFF < c.toNat ∧ c.toNat < 0x110000 := c.valid
          exact congrArg some (read_padded 8 (by omega) rest)

/-! ## The characters between the brackets -/

/-- The single characters, in the order in which they are written. -/
def front (cls : CharClass) : List Char :=
  (if cls.singles.contains '-' then ['-'] else []) ++ cls.singles.filter (· ≠ '-')

def rangeChars (range : Char × Char) : List Char :=
  [range.1, '-', range.2]

/-- All characters between the brackets, each as it is without escapes. -/
def listing (cls : CharClass) : List Char :=
  cls.front ++ cls.ranges.flatMap rangeChars

theorem body_eq (cls : CharClass) : cls.body = cls.listing.flatMap renderChar := by
  have hdash : renderChar '-' = ['-'] := by decide
  have hranges : cls.ranges.flatMap renderRange =
      (cls.ranges.flatMap rangeChars).flatMap renderChar := by
    rw [List.flatMap_assoc]
    refine List.flatMap_congr fun range _ => ?_
    simp [renderRange, rangeChars, hdash]
  rw [body, listing, front, List.flatMap_append, List.flatMap_append, hranges]
  congr 2
  split
  · exact hdash.symm
  · rfl

theorem mem_front_iff {cls : CharClass} {c : Char} : c ∈ cls.front ↔ c ∈ cls.singles := by
  by_cases hc : c = '-'
  · simp [front, hc]
  · simp [front, hc]

/-- A dash among the single characters stands first. -/
theorem getElem?_front_ne {cls : CharClass} {i : Nat} (hi : 0 < i) :
    cls.front[i]? ≠ some '-' := by
  intro hdash
  have hfilter : '-' ∉ cls.singles.filter (· ≠ '-') := by simp
  unfold front at hdash
  split at hdash
  · obtain ⟨j, rfl⟩ : ∃ j, i = j + 1 := ⟨i - 1, by omega⟩
    exact hfilter (List.mem_of_getElem? hdash)
  · exact hfilter (List.mem_of_getElem? hdash)

theorem length_listing (cls : CharClass) :
    cls.listing.length = cls.front.length + 3 * cls.ranges.length := by
  simp [listing, List.length_flatMap, rangeChars, Nat.mul_comm]

/-- A range has its dash behind its first character. -/
theorem getElem?_listing {cls : CharClass} (h : cls.ranges ≠ []) :
    cls.listing[cls.front.length + 1]? = some '-' := by
  obtain ⟨range, ranges, hranges⟩ := List.exists_cons_of_ne_nil h
  rw [listing, List.getElem?_append_right (Nat.le_add_right ..), Nat.add_sub_cancel_left, hranges]
  rfl

/-- The ranges of one reading do not begin before those of another: the dash of the first of
them would be a single character of the other, and not the first. -/
theorem length_front_le {cls cls' : CharClass} (h : cls.listing = cls'.listing) :
    cls'.front.length ≤ cls.front.length := by
  by_contra hless
  have hlength := congrArg List.length h
  rw [length_listing, length_listing] at hlength
  have hranges : cls.ranges ≠ [] := by
    rw [← List.length_pos_iff]
    omega
  have hdash := getElem?_listing hranges
  rw [h, listing, List.getElem?_append_left (by omega)] at hdash
  exact getElem?_front_ne (Nat.succ_pos _) hdash

theorem ranges_eq_of_flatMap {ranges ranges' : List (Char × Char)}
    (h : ranges.flatMap rangeChars = ranges'.flatMap rangeChars) : ranges = ranges' := by
  induction ranges generalizing ranges' with
  | nil =>
    cases ranges' with
    | nil => rfl
    | cons range' ranges' => cases h
  | cons range ranges ih =>
    cases ranges' with
    | nil => cases h
    | cons range' ranges' =>
      obtain ⟨hlow, -, hhigh, hrest⟩ : range.1 = range'.1 ∧ '-' = '-' ∧ range.2 = range'.2 ∧
          ranges.flatMap rangeChars = ranges'.flatMap rangeChars := by
        simpa [rangeChars] using h
      rw [Prod.ext hlow hhigh, ih hrest]

/-- The characters between the brackets tell the single ones from the ranges. -/
theorem parts_eq_of_listing {cls cls' : CharClass} (h : cls.listing = cls'.listing) :
    cls.front = cls'.front ∧ cls.ranges = cls'.ranges := by
  have hlength := Nat.le_antisymm (length_front_le h.symm) (length_front_le h)
  obtain ⟨hfront, hranges⟩ := List.append_inj h hlength
  exact ⟨hfront, ranges_eq_of_flatMap hranges⟩

theorem contains_eq_of_parts {cls cls' : CharClass} (hfront : cls.front = cls'.front)
    (hranges : cls.ranges = cls'.ranges) : cls.contains = cls'.contains := by
  have hsingles (c : Char) : cls.singles.contains c = cls'.singles.contains c := by
    rw [Bool.eq_iff_iff, List.contains_iff_mem, List.contains_iff_mem, ← mem_front_iff,
      ← mem_front_iff, hfront]
  funext c
  rw [contains, contains, hsingles, hranges]

/-- Of the dashes among the single characters only one is written. -/
theorem front_eq_iff {cls cls' : CharClass} :
    cls.front = cls'.front ↔ ('-' ∈ cls.singles ↔ '-' ∈ cls'.singles) ∧
      cls.singles.filter (· ≠ '-') = cls'.singles.filter (· ≠ '-') := by
  have hfilter (cls : CharClass) :
      cls.front.filter (· ≠ '-') = cls.singles.filter (· ≠ '-') := by
    rw [front, List.filter_append, List.filter_filter]
    split <;> simp
  constructor
  · intro h
    rw [← mem_front_iff, ← mem_front_iff, ← hfilter, ← hfilter, h]
    exact ⟨Iff.rfl, rfl⟩
  · rintro ⟨hdash, hothers⟩
    rw [front, front, hothers]
    simp only [List.contains_iff_mem, hdash]

/-- Classes can be told apart by their texts as far as their parts are written, whatever stands
behind them. -/
theorem cancel_parts {cls cls' : CharClass} {rest rest' : List Char}
    (heq : cls.render.toList ++ rest = cls'.render.toList ++ rest') :
    (cls.front = cls'.front ∧ cls.ranges = cls'.ranges) ∧ rest = rest' := by
  have htext (cls : CharClass) (rest : List Char) : cls.render.toList ++ rest =
      '[' :: (cls.listing.flatMap renderChar ++ ']' :: rest) := by
    simp [render, body_eq]
  rw [htext, htext] at heq
  obtain ⟨hlisting, hrest⟩ := cancel_pieces (fun _ => True)
    (fun c _ => readChar?_renderChar c) (fun _ _ => trivial) (fun _ _ => trivial) rfl rfl
    (List.cons.inj heq).2
  exact ⟨parts_eq_of_listing hlisting, (List.cons.inj hrest).2⟩

/-- Classes can be told apart by their texts as far as they contain other characters. -/
theorem cancel_render {cls cls' : CharClass} {rest rest' : List Char}
    (heq : cls.render.toList ++ rest = cls'.render.toList ++ rest') :
    cls.contains = cls'.contains ∧ rest = rest' := by
  obtain ⟨hparts, hrest⟩ := cancel_parts heq
  exact ⟨contains_eq_of_parts hparts.1 hparts.2, hrest⟩

theorem render_eq_iff {cls cls' : CharClass} :
    cls.render = cls'.render ↔ cls.front = cls'.front ∧ cls.ranges = cls'.ranges := by
  constructor
  · intro h
    have htext : cls.render.toList ++ [] = cls'.render.toList ++ [] := by rw [h]
    exact (cancel_parts htext).1
  · rintro ⟨hfront, hranges⟩
    rw [render, render, body_eq, body_eq, listing, listing, hfront, hranges]

/-- Two classes are written alike exactly if they have the same ranges and, the dashes apart,
the same single characters, each in the same order, and both or neither have a dash. So classes
that are written alike contain the same characters. -/
theorem class_text_tells_characters (cls cls' : CharClass) :
    (cls.render = cls'.render ↔
      cls.ranges = cls'.ranges ∧ ('-' ∈ cls.singles ↔ '-' ∈ cls'.singles) ∧
        cls.singles.filter (· ≠ '-') = cls'.singles.filter (· ≠ '-')) ∧
    (cls.render = cls'.render → ∀ c, cls.contains c = cls'.contains c) := by
  refine ⟨?_, ?_⟩
  · rw [render_eq_iff, front_eq_iff, and_comm]
  · intro h
    obtain ⟨hfront, hranges⟩ := render_eq_iff.mp h
    exact congrFun (contains_eq_of_parts hfront hranges)

/-- A dash in every place that it can have: both classes are written `[-a+----a]`. -/
theorem class_text_tells_characters_of_dashes :
    let cls : CharClass := ⟨['a', '-', '-'], [('+', '-'), ('-', 'a')]⟩
    let cls' : CharClass := ⟨['-', 'a'], [('+', '-'), ('-', 'a')]⟩
    cls ≠ cls' ∧ cls.render = cls'.render ∧ ∀ c, cls.contains c = cls'.contains c := by
  intro cls cls'
  have htext : cls.render = cls'.render := by decide
  exact ⟨by decide, htext, (class_text_tells_characters cls cls').2 htext⟩

end Peg.CharClass
