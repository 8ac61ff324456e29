import Mathlib.Tactic.IntervalCases
import Peg.Text.Hex

/-!
Texts put together from pieces. Where it can be told from the beginning of a text which
piece stands there, the pieces can be read off one after another, and so texts are the same
only if they are put together from the same pieces. Numbers in hexadecimal are read back
from their digits.
-/

namespace Peg.Text

/-- Pieces that can be read off, up to where none can. -/
theorem cancel_pieces {α : Type} (valid : α → Prop) {piece : α → List Char}
    {read? : List Char → Option (α × List Char)}
    (hread : ∀ a, valid a → ∀ rest, read? (piece a ++ rest) = some (a, rest)) {as bs : List α}
    (has : ∀ a ∈ as, valid a) (hbs : ∀ b ∈ bs, valid b) {rest rest' : List Char}
    (hrest : read? rest = none) (hrest' : read? rest' = none)
    (heq : as.flatMap piece ++ rest = bs.flatMap piece ++ rest') : as = bs ∧ rest = rest' := by
  induction as generalizing bs with
  | nil =>
    cases bs with
    | nil => exact ⟨rfl, heq⟩
    | cons b bs =>
      obtain rfl : rest = (b :: bs).flatMap piece ++ rest' := heq
      rw [List.flatMap_cons, List.append_assoc, hread b (hbs b List.mem_cons_self)] at hrest
      cases hrest
  | cons a as ih =>
    have hfirst := hread a (has a List.mem_cons_self) (as.flatMap piece ++ rest)
    rw [← List.append_assoc, ← List.flatMap_cons, heq] at hfirst
    cases bs with
    | nil =>
      have hnone : read? ([].flatMap piece ++ rest') = none := hrest'
      rw [hnone] at hfirst
      cases hfirst
    | cons b bs =>
      rw [List.flatMap_cons, List.append_assoc, hread b (hbs b List.mem_cons_self)] at hfirst
      obtain ⟨rfl, htail⟩ := Prod.mk.inj (Option.some.inj hfirst)
      obtain ⟨rfl, hrests⟩ := ih (fun a ha => has a (List.mem_cons_of_mem _ ha))
        (fun b hb => hbs b (List.mem_cons_of_mem _ hb)) htail.symm
      exact ⟨rfl, hrests⟩

/-- Reads a character of one kind. -/
def readChar? (kind : Char → Bool) : List Char → Option (Char × List Char)
  | [] => none
  | c :: rest => if kind c then some (c, rest) else none

/-- Two texts that begin with characters of one kind, as many as there are. -/
theorem cancel_chars (kind : Char → Bool) {front front' rest rest' : List Char}
    (hfront : ∀ c ∈ front, kind c = true) (hfront' : ∀ c ∈ front', kind c = true)
    (hrest : ∀ c ∈ rest.head?, kind c = false) (hrest' : ∀ c ∈ rest'.head?, kind c = false)
    (heq : front ++ rest = front' ++ rest') : front = front' ∧ rest = rest' := by
  have hstop (rest : List Char) (h : ∀ c ∈ rest.head?, kind c = false) :
      readChar? kind rest = none := by
    cases rest with
    | nil => rfl
    | cons c rest => exact if_neg (Bool.eq_false_iff.mp (h c rfl))
  rw [← List.flatMap_singleton' front, ← List.flatMap_singleton' front'] at heq
  exact cancel_pieces (kind · = true) (fun c hc _ => if_pos hc) hfront hfront'
    (hstop rest hrest) (hstop rest' hrest') heq

namespace Hex

/-- The value of a digit, in small letters or in capitals. -/
def digitValue (c : Char) : Nat :=
  if c.isDigit then c.toNat - '0'.toNat else c.toLower.toNat - 'a'.toNat + 10

theorem digitValue_digitChar {d : Nat} (h : d < 16) : digitValue (Nat.digitChar d) = d := by
  interval_cases d <;> rfl

theorem digitValue_toUpper {d : Nat} (h : d < 16) :
    digitValue (Nat.digitChar d).toUpper = d := by
  interval_cases d <;> rfl

/-- The number with these digits. -/
def value (digits : List Char) : Nat :=
  digits.foldl (fun n c => 16 * n + digitValue c) 0

theorem value_snoc (digits : List Char) (c : Char) :
    value (digits ++ [c]) = 16 * value digits + digitValue c := by
  simp [value]

theorem value_padded (width n : Nat) : value (padded width n) = n % 16 ^ width := by
  induction width generalizing n with
  | zero => simp [padded, value, Nat.mod_one]
  | succ width ih =>
    rw [padded, value_snoc, ih, digitValue_digitChar (Nat.mod_lt n (by decide)), Nat.pow_succ',
      Nat.mod_mul]
    omega

theorem value_map_toUpper_padded (width n : Nat) :
    value ((padded width n).map Char.toUpper) = n % 16 ^ width := by
  induction width generalizing n with
  | zero => simp [padded, value, Nat.mod_one]
  | succ width ih =>
    rw [padded, List.map_append, List.map_singleton, value_snoc, ih,
      digitValue_toUpper (Nat.mod_lt n (by decide)), Nat.pow_succ', Nat.mod_mul]
    omega

theorem value_short (n : Nat) : value (short n) = n := by
  unfold short
  induction n using Nat.strongRecOn with
  | ind n ih =>
    rw [Nat.toDigits_eq_if (by decide)]
    split
    · next hless => simp [value, digitValue_digitChar hless]
    · rw [value_snoc, ih (n / 16) (by omega), digitValue_digitChar (Nat.mod_lt n (by decide))]
      omega

/-- All that is written in hexadecimal is written in digits. -/
theorem exists_digitChar_of_mem_short {n : Nat} {c : Char} (h : c ∈ short n) :
    ∃ d < 16, Nat.digitChar d = c := by
  unfold short at h
  induction n using Nat.strongRecOn with
  | ind n ih =>
    rw [Nat.toDigits_eq_if (by decide)] at h
    split at h
    · next hless => exact ⟨n, hless, (List.mem_singleton.mp h).symm⟩
    · rcases List.mem_append.mp h with h | h
      · exact ih (n / 16) (by omega) h
      · exact ⟨n % 16, Nat.mod_lt n (by decide), (List.mem_singleton.mp h).symm⟩

theorem short_ne_nil (n : Nat) : short n ≠ [] := by
  unfold short
  rw [Nat.toDigits_eq_if (by decide)]
  split <;> simp

end Hex

end Peg.Text
