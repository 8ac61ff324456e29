import Mathlib.Logic.Relation
import Peg.Cursor
import Peg.Proofs.Text.Literal

/-!
Lines and columns follow reading. A location is counted anew from the bytes before it: the
newline bytes among them, and the characters behind the last of these, decoded from where the
line begins and cut off at the position. That comes to the same as reading on character by
character, since nothing that was decoded changes where the bytes are cut between two
characters, and since a newline byte is never part of another character or of an ill-formed run.
-/

namespace Peg.Utf8

/-! ## Cutting between characters -/

theorem agreement_take (ranges : List (UInt8 × UInt8)) (bytes : Bytes) (k : Nat) :
    agreement ranges (bytes.take k) = min k (agreement ranges bytes) := by
  induction ranges generalizing bytes k with
  | nil => simp [agreement]
  | cons range ranges ih =>
    cases bytes with
    | nil => simp [agreement]
    | cons b bytes =>
      cases k with
      | zero => simp [agreement]
      | succ k =>
        rw [List.take_succ_cons, agreement, agreement, ih]
        split
        · exact (Nat.succ_min_succ k _).symm
        · exact (Nat.min_zero _).symm

/-- What is behind the first segment does not change it. -/
theorem first?_take {bytes : Bytes} {segment : Segment} (h : first? bytes = some segment)
    {k : Nat} (hk : segment.size ≤ k) : first? (bytes.take k) = some segment := by
  have hpos := first?_size_pos h
  obtain ⟨k, rfl⟩ : ∃ n, k = n + 1 := ⟨k - 1, by omega⟩
  cases bytes with
  | nil => cases h
  | cons lead tail =>
    have hagreement (ranges : List (UInt8 × UInt8)) : agreement ranges (lead :: tail.take k) =
        min (k + 1) (agreement ranges (lead :: tail)) := agreement_take ranges (lead :: tail) (k + 1)
    have hagrees (form : Form) : agreement form.ranges (lead :: tail.take k) ≠ 0 ↔
        agreement form.ranges (lead :: tail) ≠ 0 := by
      rw [hagreement]
      omega
    rw [List.take_succ_cons]
    rw [first?] at h ⊢
    simp only [hagrees]
    split
    · next hnone =>
      rw [hnone] at h
      exact h
    · next form hform =>
      rw [hform] at h
      dsimp only at h ⊢
      have hle := agreement_le_length form.ranges (lead :: tail)
      have hsize : segment.bytes = (lead :: tail).take (agreement form.ranges (lead :: tail)) := by
        split at h <;> cases h <;> rfl
      have hcovers : agreement form.ranges (lead :: tail) ≤ k + 1 := by
        rw [Segment.size, hsize, List.length_take] at hk
        omega
      rw [hagreement, Nat.min_eq_right hcovers, ← List.take_succ_cons, List.take_take,
        Nat.min_eq_left hcovers]
      exact h

/-- The first segments of a byte string are the segments of their bytes. -/
theorem segments_flatMap_of_append {bytes : Bytes} {front back : List Segment}
    (h : segments bytes = front ++ back) : segments (front.flatMap Segment.bytes) = front := by
  induction front generalizing bytes with
  | nil => rfl
  | cons segment front ih =>
    cases hfirst : first? bytes with
    | none =>
      obtain rfl := first?_eq_none_iff.mp hfirst
      cases h
    | some first =>
      have hall := segments_flatten bytes
      rw [h, List.cons_append, List.flatMap_cons, List.flatMap_append] at hall
      rw [segments_of_first? hfirst] at h
      obtain ⟨rfl, hrest⟩ := List.cons.inj h
      rw [List.flatMap_cons]
      have hcut : (first.bytes ++ front.flatMap Segment.bytes) <+: bytes := by
        rw [← hall, ← List.append_assoc]
        exact List.prefix_append _ _
      have hfront : first? (first.bytes ++ front.flatMap Segment.bytes) = some first := by
        rw [List.prefix_iff_eq_take.mp hcut]
        refine first?_take hfirst ?_
        rw [List.length_append]
        exact Nat.le_add_right _ _
      rw [segments_of_first? hfront, Segment.size, List.drop_left, ih hrest]

/-- Between the two byte strings lies the end of a segment of both together. -/
def CutBetween (front rest : Bytes) : Prop :=
  segments (front ++ rest) = segments front ++ segments rest

theorem CutBetween.nil (rest : Bytes) : CutBetween [] rest := rfl

/-- The next segment belongs to what is before it, cut off behind it. -/
theorem CutBetween.segments_append {front rest : Bytes} (h : CutBetween front rest)
    {segment : Segment} (hfirst : first? rest = some segment) :
    segments (front ++ segment.bytes) = segments front ++ [segment] := by
  have hall : segments (front ++ rest) =
      (segments front ++ [segment]) ++ segments (rest.drop segment.size) := by
    rw [h, segments_of_first? hfirst, List.append_assoc, List.singleton_append]
  have hsegments := segments_flatMap_of_append hall
  rwa [List.flatMap_append, segments_flatten, List.flatMap_singleton] at hsegments

theorem CutBetween.next {front rest : Bytes} (h : CutBetween front rest) {segment : Segment}
    (hfirst : first? rest = some segment) :
    CutBetween (front ++ segment.bytes) (rest.drop segment.size) := by
  obtain ⟨tail, rfl⟩ := first?_isPrefix hfirst
  rw [CutBetween, h.segments_append hfirst, Segment.size, List.drop_left, List.append_assoc, h,
    segments_of_first? hfirst, Segment.size, List.drop_left, List.append_assoc,
    List.singleton_append]

/-! ## Newlines -/

theorem exists_range_of_mem_take {ranges : List (UInt8 × UInt8)} {bytes : Bytes} {b : UInt8}
    (h : b ∈ bytes.take (agreement ranges bytes)) : ∃ range ∈ ranges, range.1 ≤ b := by
  induction ranges generalizing bytes with
  | nil => simp [agreement] at h
  | cons range ranges ih =>
    cases bytes with
    | nil => cases h
    | cons lead bytes =>
      rw [agreement] at h
      split at h
      · next hin =>
        rcases List.mem_cons.mp h with rfl | h
        · exact ⟨range, List.mem_cons_self, hin.1⟩
        · obtain ⟨other, hother, hle⟩ := ih h
          exact ⟨other, List.mem_cons_of_mem _ hother, hle⟩
      · cases h

/-- An ASCII byte is a segment of its own. -/
theorem eq_of_mem_first? {bytes : Bytes} {segment : Segment} (h : first? bytes = some segment)
    {b : UInt8} (hb : b ∈ segment.bytes) (hascii : b < 0x80) :
    segment = ⟨some (Char.ofNat b.toNat), [b]⟩ := by
  cases bytes with
  | nil => cases h
  | cons lead tail =>
    rw [first?] at h
    split at h
    · next hnone =>
      cases h
      obtain rfl := List.mem_singleton.mp hb
      have hrow := List.find?_eq_none.mp hnone ⟨0x00, [(0x00, 0x7F)]⟩ (by simp [forms])
      have hin : (0x00 : UInt8) ≤ b ∧ b ≤ 0x7F := by
        rw [UInt8.lt_iff_toNat_lt] at hascii
        simp only [UInt8.le_iff_toNat_le]
        simp at hascii ⊢
        omega
      simp [agreement, hin] at hrow
    · next form hfound =>
      have hagrees : agreement form.ranges (lead :: tail) ≠ 0 := by
        simpa using List.find?_some hfound
      dsimp only at h
      rcases ascii_or_above (List.mem_of_find?_eq_some hfound) with ⟨hmarker, hranges⟩ | hhigh
      · have hone : agreement form.ranges (lead :: tail) = 1 := by
          have hle : agreement form.ranges (lead :: tail) ≤ 1 := by
            rw [hranges, agreement]
            split <;> simp [agreement]
          omega
        rw [hone, hranges, if_pos (by rfl)] at h
        cases h
        obtain rfl := List.mem_singleton.mp hb
        simp [Form.codePoint, hmarker]
      · have hmem : b ∈ (lead :: tail).take (agreement form.ranges (lead :: tail)) := by
          split at h <;> cases h <;> exact hb
        obtain ⟨range, hrange, hle⟩ := exists_range_of_mem_take hmem
        have hlow := UInt8.le_trans (hhigh range hrange) hle
        exact absurd hascii (UInt8.not_lt.mpr hlow)

/-- Just the newline byte is read as a newline. -/
theorem bytes_of_newline {bytes : Bytes} {segment : Segment} (h : first? bytes = some segment)
    (hchar : segment.char = '\n') : segment.bytes = [0x0A] := by
  have hsome : segment.char? = some '\n' := by
    unfold Segment.char at hchar
    cases hchar? : segment.char? with
    | none =>
      rw [hchar?] at hchar
      exact absurd hchar (by decide)
    | some c =>
      rw [hchar?] at hchar
      exact congrArg some hchar
  rw [bytes_of_first? h hsome]
  decide

theorem newline_not_mem {bytes : Bytes} {segment : Segment} (h : first? bytes = some segment)
    (hchar : segment.char ≠ '\n') : (0x0A : UInt8) ∉ segment.bytes := by
  intro hmem
  have hsegment := eq_of_mem_first? h hmem (by decide)
  rw [hsegment] at hchar
  exact hchar rfl

/-- The bytes behind the last newline. -/
def lastLine (bytes : Bytes) : Bytes :=
  (bytes.reverse.takeWhile (· ≠ 0x0A)).reverse

theorem lastLine_append {more : Bytes} (h : (0x0A : UInt8) ∉ more) (bytes : Bytes) :
    lastLine (bytes ++ more) = lastLine bytes ++ more := by
  have hkept : ∀ b ∈ more.reverse, decide (b ≠ 0x0A) = true := by
    intro b hb
    refine decide_eq_true fun heq => h ?_
    rwa [← heq, ← List.mem_reverse]
  rw [lastLine, List.reverse_append, List.takeWhile_append_of_pos hkept, List.reverse_append,
    List.reverse_reverse, lastLine]

theorem lastLine_newline (bytes : Bytes) : lastLine (bytes ++ [0x0A]) = [] := by
  rw [lastLine, List.reverse_append, List.reverse_singleton, List.singleton_append,
    List.takeWhile_cons_of_neg (by decide)]
  rfl

end Peg.Utf8

namespace Peg

open Utf8

/-! ## Locations in their order -/

namespace Location

/-- Where the next character is, behind `c`. -/
def after (location : Location) (c : Char) : Location :=
  if c = '\n' then ⟨location.line + 1, 1⟩ else ⟨location.line, location.column + 1⟩

/-- Lines come first, then columns. -/
def Before (a b : Location) : Prop :=
  a.line < b.line ∨ (a.line = b.line ∧ a.column < b.column)

variable {a b c : Location}

theorem before_after (a : Location) (ch : Char) : a.Before (a.after ch) := by
  unfold after
  split
  · exact Or.inl (Nat.lt_succ_self _)
  · exact Or.inr ⟨rfl, Nat.lt_succ_self _⟩

theorem Before.trans (hab : a.Before b) (hbc : b.Before c) : a.Before c := by
  unfold Before at *
  omega

theorem Before.ne (h : a.Before b) : a ≠ b := by
  rintro rfl
  unfold Before at h
  omega

end Location

/-! ## Reading on -/

namespace Cursor

/-- The one cursor becomes the other by reading a character. -/
def Reads (cursor after : Cursor) : Prop :=
  ∃ c, cursor.next? = some (c, after)

/-- The cursor comes from the beginning of the input by reading characters. -/
def Reached (input : Bytes) (cursor : Cursor) : Prop :=
  Relation.ReflTransGen Reads (start input) cursor

variable {input : Bytes} {cursor after later : Cursor} {c : Char}

theorem next?_eq_some_iff : cursor.next? = some (c, after) ↔
    ∃ segment, first? cursor.remaining = some segment ∧ segment.char = c ∧
      after = cursor.advance segment.size := by
  rw [next?, Option.map_eq_some_iff]
  simp only [Prod.mk.injEq, eq_comm (a := after)]

theorem location_eq (cursor : Cursor) (pos : Nat) :
    cursor.location pos = ⟨(cursor.input.take pos).count 0x0A + 1,
      (segments (lastLine (cursor.input.take pos))).length + 1⟩ := rfl

theorem location_congr {other : Cursor} (h : cursor.input = other.input) :
    cursor.location = other.location := by
  funext pos
  rw [location_eq, location_eq, h]

/-- The line before the cursor is cut between two characters. -/
def AtCut (cursor : Cursor) : Prop :=
  CutBetween (lastLine (cursor.input.take cursor.pos)) cursor.remaining

theorem atCut_start (input : Bytes) : (start input).AtCut := rfl

theorem take_advance {segment : Segment} (h : first? cursor.remaining = some segment) :
    cursor.input.take (cursor.pos + segment.size) =
      cursor.input.take cursor.pos ++ segment.bytes := by
  rw [List.take_add, ← remaining, Segment.size,
    ← List.prefix_iff_eq_take.mp (first?_isPrefix h)]

theorem AtCut.next (hcut : cursor.AtCut) (h : cursor.next? = some (c, after)) :
    after.AtCut := by
  obtain ⟨segment, hfirst, hchar, rfl⟩ := next?_eq_some_iff.mp h
  rw [AtCut, advance_input, advance_pos, take_advance hfirst, remaining_advance]
  by_cases hnewline : c = '\n'
  · rw [bytes_of_newline hfirst (hchar.trans hnewline), lastLine_newline]
    exact .nil _
  · rw [lastLine_append (newline_not_mem hfirst (hchar ▸ hnewline))]
    exact CutBetween.next hcut hfirst

/-- Reading a character goes on to the next column, or to the next line. -/
theorem AtCut.location_next (hcut : cursor.AtCut) (h : cursor.next? = some (c, after)) :
    cursor.location after.pos = (cursor.location cursor.pos).after c := by
  obtain ⟨segment, hfirst, hchar, rfl⟩ := next?_eq_some_iff.mp h
  rw [location_eq, location_eq, advance_pos, take_advance hfirst, List.count_append]
  by_cases hnewline : c = '\n'
  · rw [bytes_of_newline hfirst (hchar.trans hnewline), lastLine_newline, Location.after,
      if_pos hnewline]
    rfl
  · have hnot := newline_not_mem hfirst (hchar ▸ hnewline)
    rw [lastLine_append hnot, hcut.segments_append hfirst, List.count_eq_zero.mpr hnot,
      Location.after, if_neg hnewline, List.length_append]
    rfl

theorem Reads.input_eq (h : cursor.Reads after) : after.input = cursor.input := by
  obtain ⟨c, hnext⟩ := h
  obtain ⟨segment, -, -, rfl⟩ := next?_eq_some_iff.mp hnext
  rfl

theorem Reached.input_eq (h : cursor.Reached input) : cursor.input = input := by
  induction h with
  | refl => rfl
  | tail _ hread ih => exact hread.input_eq.trans ih

theorem Reached.atCut (h : cursor.Reached input) : cursor.AtCut := by
  induction h with
  | refl => exact atCut_start input
  | tail _ hread ih =>
    obtain ⟨c, hnext⟩ := hread
    exact ih.next hnext

/-- What is read later lies behind, and its location does. -/
theorem Reached.before (h : cursor.Reached input)
    (hlater : Relation.ReflTransGen Reads cursor later) :
    later = cursor ∨ (cursor.pos < later.pos ∧
      (cursor.location cursor.pos).Before (cursor.location later.pos)) := by
  induction hlater with
  | refl => exact Or.inl rfl
  | @tail mid later hmid hread ih =>
    obtain ⟨c, hnext⟩ := hread
    have hreached : mid.Reached input := h.trans hmid
    have hlocation : cursor.location = mid.location :=
      location_congr (h.input_eq.trans hreached.input_eq.symm)
    have hstep : (cursor.location mid.pos).Before (cursor.location later.pos) := by
      rw [hlocation, hreached.atCut.location_next hnext]
      exact Location.before_after _ c
    obtain ⟨segment, hfirst, -, rfl⟩ := next?_eq_some_iff.mp hnext
    have hpos : mid.pos < mid.pos + segment.size :=
      Nat.lt_add_of_pos_right (first?_size_pos hfirst)
    rcases ih with rfl | ⟨hless, hbefore⟩
    · exact Or.inr ⟨hpos, hstep⟩
    · exact Or.inr ⟨Nat.lt_trans hless hpos, hbefore.trans hstep⟩

theorem Reached.total (h : cursor.Reached input) (h' : later.Reached input) :
    Relation.ReflTransGen Reads cursor later ∨ Relation.ReflTransGen Reads later cursor := by
  refine Relation.ReflTransGen.total_of_right_unique ?_ h h'
  intro a b c hab hac
  obtain ⟨x, hx⟩ := hab
  obtain ⟨y, hy⟩ := hac
  rw [hx] at hy
  exact (Prod.mk.inj (Option.some.inj hy)).2

theorem Reached.before_of_lt (h : cursor.Reached input) (h' : later.Reached input)
    (hless : cursor.pos < later.pos) :
    (cursor.location cursor.pos).Before (cursor.location later.pos) := by
  rcases h.total h' with hon | hback
  · rcases h.before hon with rfl | ⟨-, hbefore⟩
    · exact absurd hless (Nat.lt_irrefl _)
    · exact hbefore
  · rcases h'.before hback with rfl | ⟨hpos, -⟩
    · exact absurd hless (Nat.lt_irrefl _)
    · exact absurd hless (Nat.lt_asymm hpos)

/-- Whatever the bytes are: the location of the beginning is the first column of the first line;
reading a character from any place that is reached in this way leads to the next column, or to
the first column of the next line behind a newline; places further on have later locations, so
that no two have the same; and all that lies past the end is located there. -/
theorem location_follows_reading (reader : Cursor) :
    reader.location 0 = ⟨1, 1⟩ ∧
    (∀ (cursor after : Cursor) (c : Char), cursor.Reached reader.input →
      cursor.next? = some (c, after) →
      reader.location after.pos =
        if c = '\n' then ⟨(reader.location cursor.pos).line + 1, 1⟩
        else ⟨(reader.location cursor.pos).line, (reader.location cursor.pos).column + 1⟩) ∧
    (∀ cursor later : Cursor, cursor.Reached reader.input → later.Reached reader.input →
      (cursor.pos < later.pos →
        (reader.location cursor.pos).Before (reader.location later.pos)) ∧
      (reader.location cursor.pos = reader.location later.pos → cursor.pos = later.pos)) ∧
    (∀ n, reader.input.length ≤ n →
      reader.location n = reader.location reader.input.length) := by
  have hsame {cursor : Cursor} (h : cursor.Reached reader.input) :
      reader.location = cursor.location := location_congr h.input_eq.symm
  have hbefore {cursor later : Cursor} (h : cursor.Reached reader.input)
      (h' : later.Reached reader.input) (hless : cursor.pos < later.pos) :
      (reader.location cursor.pos).Before (reader.location later.pos) := by
    rw [hsame h]
    exact h.before_of_lt h' hless
  refine ⟨?_, ?_, ?_, ?_⟩
  · rw [location_eq, List.take_zero]
    rfl
  · intro cursor after c h hnext
    rw [hsame h]
    exact h.atCut.location_next hnext
  · refine fun cursor later h h' => ⟨hbefore h h', fun heq => ?_⟩
    rcases Nat.lt_trichotomy cursor.pos later.pos with hless | hpos | hless
    · exact absurd heq (hbefore h h' hless).ne
    · exact hpos
    · exact absurd heq.symm (hbefore h' h hless).ne
  · intro n hn
    rw [location_eq, location_eq, List.take_of_length_le hn, List.take_length]

/-- A character that breaks off before a newline, and one that does not. -/
theorem location_follows_reading_of_broken_character :
    let reader := start [0xE2, 0x82, 0x0A, 0xC3, 0xA9]
    let second := reader.advance 2
    let third := second.advance 1
    second.Reached reader.input ∧ third.Reached reader.input ∧
      second.next? = some ('\n', third) ∧ second.pos < third.pos ∧
      (reader.location second.pos).Before (reader.location third.pos) ∧
      reader.location third.pos = ⟨(reader.location second.pos).line + 1, 1⟩ := by
  intro reader second third
  have hsecond : second.Reached reader.input := .single ⟨'\uFFFD', rfl⟩
  have hnext : second.next? = some ('\n', third) := rfl
  have hthird : third.Reached reader.input := hsecond.tail ⟨'\n', hnext⟩
  have hless : second.pos < third.pos := by decide
  obtain ⟨-, hstep, horder, -⟩ := location_follows_reading reader
  exact ⟨hsecond, hthird, hnext, hless, (horder second third hsecond hthird).1 hless,
    hstep second third '\n' hsecond hnext⟩

end Cursor

end Peg
