import Mathlib.Data.Finset.Prod
import Mathlib.Order.Interval.Finset.Nat
import Peg.Proofs.Termination

/-!
The depth of calls that a parse allows is no limit: a call that runs out of it runs
out of every depth. What a call comes to depends on its rule and its position alone,
and of those there are only so many from the start of a parse on. A depth more either
lets one more of them end, or lets nothing end that did not end before, and then
neither does any depth beyond.
-/

namespace Peg

open Matcher

/-! ## From a position on -/

/-- The states have the same view of the input, and have not gone back behind `low`. -/
structure SameStretch (input : Bytes) (low : Nat) (s s' : MatchState) : Prop where
  view : SameView s s'
  input_eq : s.cursor.input = input
  low_le : low ≤ s.cursor.pos
  le_high : s.cursor.pos ≤ max low input.length

theorem SameStretch.congruence (input : Bytes) (low : Nat) :
    Congruence (SameStretch input low) where
  input_eq h := h.view.input_eq
  pos_eq h := h.view.pos_eq
  scope_eq h := h.view.scope_eq
  jump h _ _ hu := ⟨SameView.congruence.jump h.view hu.view, h.input_eq, hu.low_le, hu.le_high⟩
  advance h size hsize := by
    have hlow := h.low_le
    have hhigh := h.le_high
    rw [Cursor.length_remaining, h.input_eq] at hsize
    refine ⟨SameView.congruence.advance h.view size ?_, h.input_eq, ?_, ?_⟩
    · rwa [Cursor.length_remaining, h.input_eq]
    · dsimp only [Cursor.advance_pos]
      omega
    · dsimp only [Cursor.advance_pos]
      omega
  setScope h scope :=
    ⟨SameView.congruence.setScope h.view scope, h.input_eq, h.low_le, h.le_high⟩
  push h event := ⟨SameView.congruence.push h.view event, h.input_eq, h.low_le, h.le_high⟩

theorem Matcher.Refines.halts {α : Type} {R : MatchState → MatchState → Prop} {m m' : Matcher α}
    (h : Refines R m m') {s s' : MatchState} (hs : R s s') (hhalts : Halts m s) :
    Halts m' s' := by
  unfold Halts Ensures
  rcases h.cases hs with ⟨a, t, t', -, hrun, -⟩ | ⟨interrupt, t, t', hrun, hrun', -⟩ | ⟨t, hrun⟩
  · rw [hrun]
    trivial
  · rw [hrun']
    cases interrupt with
    | mismatch x => trivial
    | fault fault => exact fault_ne_exhausted fault
    | exhausted => exact hhalts.of_exhausted hrun
  · exact absurd rfl (hhalts.of_exhausted hrun)

theorem Matcher.exists_exhausted_of_not_halts {α : Type} {m : Matcher α} {s : MatchState}
    (h : ¬ Halts m s) : ∃ t, EStateM.run m s = .error .exhausted t := by
  unfold Halts Ensures at h
  split at h
  · exact absurd trivial h
  · exact absurd trivial h
  · next interrupt t _ hrun => exact ⟨t, Classical.not_not.mp h ▸ hrun⟩

variable {rules : List Rule} {input : Bytes} {low depth handle : Nat}

/-- Where a call is made from does not matter for it to end, nor does what happened before. -/
theorem callRule_halts_iff_fresh {s : MatchState} :
    Halts (callRule rules depth handle) s ↔
      Halts (callRule rules depth handle) (.fresh s.cursor.input s.cursor.pos) := by
  have hscope : Halts (callRule rules depth handle) s ↔
      Halts (callRule rules depth handle) { s with scope := .empty } := by
    unfold Halts
    cases depth with
    | zero => rfl
    | succ depth => rw [ensures_callRule_succ, ensures_callRule_succ]
  have hsame := callRule_refines SameView.congruence rules (Nat.le_refl depth) handle
  rw [hscope]
  exact ⟨hsame.halts ⟨rfl, rfl, rfl⟩, hsame.halts ⟨rfl, rfl, rfl⟩⟩

/-- A depth that is enough for a call leaves nothing for a deeper one to change. -/
theorem callRule_halts_mono {deeper : Nat} (hle : depth ≤ deeper) {s : MatchState}
    (h : Halts (callRule rules depth handle) s) : Halts (callRule rules deeper handle) s :=
  (callRule_refines .eq rules hle handle).halts rfl h

/-! ## Depths that let nothing more end -/

/-- One depth more lets no call end that did not end before, from `low` on. -/
def Stable (rules : List Rule) (input : Bytes) (low depth : Nat) : Prop :=
  ∀ handle s, SameStretch input low s s → Halts (callRule rules (depth + 1) handle) s →
    Halts (callRule rules depth handle) s

namespace Stable

/-- With one depth more the calls come to the same, as far as they end. -/
theorem refines (h : Stable rules input low depth) (handle : Nat) :
    Refines (SameStretch input low) (callRule rules (depth + 1) handle)
      (callRule rules depth handle) := by
  intro s s' hs
  by_cases hhalts : Halts (callRule rules (depth + 1) handle) s
  · have hends := h handle s ⟨⟨rfl, rfl, rfl⟩, hs.input_eq, hs.low_le, hs.le_high⟩ hhalts
    have hrun : EStateM.run (callRule rules (depth + 1) handle) s =
        EStateM.run (callRule rules depth handle) s :=
      (callRule_refines .eq rules (Nat.le_succ depth) handle s s rfl).eq_of_ne
        fun t hrun => hends.of_exhausted hrun rfl
    rw [hrun]
    exact callRule_refines (SameStretch.congruence input low) rules (Nat.le_refl depth) handle
      s s' hs
  · obtain ⟨t, hrun⟩ := exists_exhausted_of_not_halts hhalts
    rw [hrun]
    exact .exhausted t _

/-- The calls that a body makes come to the same, and so does the body. -/
theorem succ (h : Stable rules input low depth) : Stable rules input low (depth + 1) :=
  fun handle _ hs hhalts =>
    (callRule_succ_refines (SameStretch.congruence input low) h.refines handle).halts hs hhalts

theorem halts (h : Stable rules input low depth) {deeper : Nat} (hle : depth ≤ deeper)
    {s : MatchState} (hs : SameStretch input low s s)
    (hhalts : Halts (callRule rules deeper handle) s) :
    Halts (callRule rules depth handle) s := by
  suffices hdeeper : Stable rules input low deeper ∧
      (Halts (callRule rules deeper handle) s → Halts (callRule rules depth handle) s) from
    hdeeper.2 hhalts
  clear hhalts
  induction deeper, hle using Nat.le_induction with
  | base => exact ⟨h, id⟩
  | succ deeper _ ih => exact ⟨ih.1.succ, fun hnext => ih.2 (ih.1 handle s hs hnext)⟩

end Stable

/-! ## Counting the calls that end -/

open Classical in
/-- The calls that end with a depth, by the handle of the rule and the position. -/
noncomputable def endingCalls (rules : List Rule) (input : Bytes) (low depth : Nat) :
    Finset (Nat × Nat) :=
  (Finset.range rules.length ×ˢ Finset.Icc low (max low input.length)).filter fun call =>
    Halts (callRule rules depth call.1) (.fresh input call.2)

theorem mem_endingCalls {call : Nat × Nat} :
    call ∈ endingCalls rules input low depth ↔
      (call.1 < rules.length ∧ low ≤ call.2 ∧ call.2 ≤ max low input.length) ∧
        Halts (callRule rules depth call.1) (.fresh input call.2) := by
  classical
  rw [endingCalls, Finset.mem_filter, Finset.mem_product, Finset.mem_range, Finset.mem_Icc]

theorem endingCalls_subset (rules : List Rule) (input : Bytes) (low depth : Nat) :
    endingCalls rules input low depth ⊆ endingCalls rules input low (depth + 1) := by
  intro call hcall
  rw [mem_endingCalls] at hcall ⊢
  exact ⟨hcall.1, callRule_halts_mono (Nat.le_succ depth) hcall.2⟩

theorem card_endingCalls_le (rules : List Rule) (input : Bytes) (low depth : Nat) :
    (endingCalls rules input low depth).card ≤ (input.length - low + 1) * rules.length := by
  classical
  refine (Finset.card_filter_le _ _).trans (Nat.le_of_eq ?_)
  rw [Finset.card_product, Finset.card_range, Nat.card_Icc, Nat.mul_comm]
  congr 1
  omega

/-- A rule that is not there ends every call of it at once, so only the calls of rules count. -/
theorem stable_of_endingCalls_eq
    (h : endingCalls rules input low (depth + 2) = endingCalls rules input low (depth + 1)) :
    Stable rules input low (depth + 1) := by
  intro handle s hs hhalts
  by_cases hhandle : handle < rules.length
  · have hmem : (handle, s.cursor.pos) ∈ endingCalls rules input low (depth + 2) := by
      rw [mem_endingCalls]
      exact ⟨⟨hhandle, hs.low_le, hs.le_high⟩, hs.input_eq ▸ callRule_halts_iff_fresh.mp hhalts⟩
    rw [h, mem_endingCalls] at hmem
    exact callRule_halts_iff_fresh.mpr (hs.input_eq ▸ hmem.2)
  · unfold Halts
    rw [ensures_callRule_succ, List.getElem?_eq_none (Nat.le_of_not_lt hhandle)]
    exact fault_ne_exhausted _

/-- A chain of sets that grow within a bound stands still before it has passed the bound. -/
theorem exists_eq_of_card_le {α : Type} (chain : Nat → Finset α) {bound : Nat}
    (hchain : ∀ i, chain i ⊆ chain (i + 1)) (hcard : ∀ i, (chain i).card ≤ bound) :
    ∃ i ≤ bound, chain (i + 1) = chain i := by
  by_contra hgrows
  push Not at hgrows
  have hlong : ∀ i ≤ bound + 1, i ≤ (chain i).card := by
    intro i hi
    induction i with
    | zero => exact Nat.zero_le _
    | succ i ih =>
      have hlt := Finset.card_lt_card
        ((hchain i).ssubset_of_ne (hgrows i (Nat.le_of_succ_le_succ hi)).symm)
      have hle := ih (Nat.le_of_succ_le hi)
      omega
  have hbound := hcard (bound + 1)
  have hover := hlong (bound + 1) (Nat.le_refl _)
  omega

/-- What ends at any depth ends within the depth that a parse allows. -/
theorem callRule_halts_callDepth (grammar : Grammar) {s : MatchState}
    (h : Halts (callRule grammar.rules depth handle) s) :
    Halts (callRule grammar.rules (grammar.callDepth s.cursor) handle) s := by
  obtain ⟨i, hi, heq⟩ := exists_eq_of_card_le
    (fun i => endingCalls grammar.rules s.cursor.input s.cursor.pos (i + 1))
    (fun i => endingCalls_subset _ _ _ (i + 1)) (fun i => card_endingCalls_le _ _ _ (i + 1))
  have hdeep : i + 1 ≤ grammar.callDepth s.cursor := by
    rw [Grammar.callDepth, Cursor.length_remaining]
    exact Nat.succ_le_succ hi
  have hs : SameStretch s.cursor.input s.cursor.pos s s :=
    ⟨⟨rfl, rfl, rfl⟩, rfl, Nat.le_refl _, Nat.le_max_left _ _⟩
  have hmax : Halts (callRule grammar.rules (max depth (i + 1)) handle) s :=
    callRule_halts_mono (Nat.le_max_left _ _) h
  have hends : Halts (callRule grammar.rules (i + 1) handle) s :=
    (stable_of_endingCalls_eq heq).halts (Nat.le_max_right _ _) hs hmax
  exact callRule_halts_mono hdeep hends

/-- Where calls may nest deeper than a parse lets them, the parse comes to the same, or
both are out of depth. -/
theorem Grammar.parseHandle_eq_or_exhausted (grammar : Grammar) {cursor : Cursor}
    (hle : grammar.callDepth cursor ≤ depth) (handle : Nat) :
    grammar.parseHandle handle cursor = (callRule grammar.rules depth handle).runOn cursor ∨
      (grammar.parseHandle handle cursor).outcome = .error .exhausted ∧
        ((callRule grammar.rules depth handle).runOn cursor).outcome = .error .exhausted := by
  have hdeeper := callRule_refines .eq grammar.rules hle handle ⟨cursor, .empty, #[]⟩ _ rfl
  by_cases hhalts : Halts (callRule grammar.rules depth handle) ⟨cursor, .empty, #[]⟩
  · have hends := callRule_halts_callDepth grammar hhalts
    have hrun := hdeeper.eq_of_ne fun t ht => hends.of_exhausted ht rfl
    unfold EStateM.run at hrun
    rw [parseHandle, runOn, runOn, hrun]
    exact Or.inl rfl
  · have hshallow : ¬ Halts (callRule grammar.rules (grammar.callDepth cursor) handle)
        ⟨cursor, .empty, #[]⟩ := fun hends => hhalts (callRule_halts_mono hle hends)
    obtain ⟨t, ht⟩ := exists_exhausted_of_not_halts hhalts
    obtain ⟨u, hu⟩ := exists_exhausted_of_not_halts hshallow
    unfold EStateM.run at ht hu
    rw [parseHandle, runOn, runOn, ht, hu]
    exact Or.inr ⟨rfl, rfl⟩

end Peg
