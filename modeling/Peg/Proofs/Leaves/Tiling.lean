import Peg.Proofs.Leaves

/-!
Nothing of the input is lost. In a grammar that drops no values and whose actions give back
what was matched, the leaves of a match are the input between its two ends, cut into pieces.
-/

namespace Peg

open Matcher

/-- The bytes between two positions of an input. -/
def stretch (input : Bytes) (start stop : Nat) : Bytes :=
  (input.take stop).drop start

@[simp] theorem stretch_self (input : Bytes) (pos : Nat) : stretch input pos pos = [] := by
  apply List.drop_eq_nil_of_le
  rw [List.length_take]
  exact Nat.min_le_left ..

theorem stretch_append {input : Bytes} {start mid stop : Nat} (h : start ≤ mid)
    (h' : mid ≤ stop) :
    stretch input start mid ++ stretch input mid stop = stretch input start stop := by
  have hfront : input.take mid = (input.take stop).take mid := by
    rw [List.take_take, Nat.min_eq_left h']
  have hback : (input.take stop).drop mid = ((input.take stop).drop start).drop (mid - start) := by
    rw [List.drop_drop, Nat.add_sub_cancel' h]
  rw [stretch, stretch, stretch, hfront, hback, List.drop_take]
  exact List.take_append_drop ..

theorem Span.slice_eq_stretch {span : Span} {input : Bytes} (h : span.stop ≤ input.length) :
    span.slice input = .ok (stretch input span.start span.stop) :=
  if_pos h

/-- The leaf stands for a span of the input, and has the bytes that the input has there. -/
structure Value.CutFrom (input : Bytes) (leaf : Value) (span : Span) : Prop where
  span? : leaf.span? = some span
  inside : span.stop ≤ input.length
  bytes : leaf.bytes input = .ok (stretch input span.start span.stop)

theorem Value.CutFrom.token {input : Bytes} {span : Span} (h : span.stop ≤ input.length) :
    (Value.token span).CutFrom input span :=
  ⟨rfl, h, Span.slice_eq_stretch h⟩

theorem Value.CutFrom.composite {input : Bytes} {span : Span} (h : span.stop ≤ input.length) :
    (Value.composite ⟨span, stretch input span.start span.stop⟩).CutFrom input span :=
  ⟨rfl, h, rfl⟩

/-- The leaves are cut from the input, and each begins where the last one ended. -/
inductive Tiles (input : Bytes) : Nat → List Value → Nat → Prop where
  | nil (pos : Nat) : Tiles input pos [] pos
  | cons {span : Span} {leaf : Value} {leaves : List Value} {stop : Nat} :
    leaf.CutFrom input span → Tiles input span.stop leaves stop →
    Tiles input span.start (leaf :: leaves) stop

namespace Tiles

variable {input : Bytes} {start mid stop : Nat} {front back leaves : List Value}

theorem single (span : Span) {leaf : Value} (h : leaf.CutFrom input span) :
    Tiles input span.start [leaf] span.stop :=
  .cons h (.nil span.stop)

theorem start_le_stop (h : Tiles input start leaves stop) : start ≤ stop := by
  induction h with
  | nil pos => exact Nat.le_refl pos
  | @cons span _ _ _ _ _ ih => exact Nat.le_trans span.start_le_stop ih

theorem append (hfront : Tiles input start front mid) (hback : Tiles input mid back stop) :
    Tiles input start (front ++ back) stop := by
  induction hfront with
  | nil pos => exact hback
  | cons hleaf _ ih => exact .cons hleaf (ih hback)

/-- The last of the leaves ends where they all end. -/
theorem stop_getLast? (h : Tiles input start leaves stop) :
    ((leaves.filterMap Value.span?).getLast?.map Span.stop).getD start = stop := by
  induction h with
  | nil pos => rfl
  | @cons span leaf leaves stop hleaf hleaves ih =>
    rw [List.filterMap_cons_some hleaf.span?, List.getLast?_cons, Option.map_some, Option.getD_some]
    rw [← ih]
    cases (leaves.filterMap Value.span?).getLast? with
    | none => rfl
    | some last => rfl

/-- The leaves of a value stretch from the first to the last position. -/
theorem extent {v : Value} (h : Tiles input start v.leaves stop) :
    v.extent start = .ok ⟨start, stop, h.start_le_stop⟩ := by
  have hlast := h.stop_getLast?
  unfold Value.extent
  generalize v.leaves = leaves at h hlast
  cases h with
  | nil pos => rfl
  | @cons span leaf leaves stop hleaf _ =>
    rw [List.filterMap_cons_some hleaf.span?, List.getLast?_cons] at hlast
    rw [List.filterMap_cons_some hleaf.span?]
    exact Span.between_eq_ok_iff.mpr ⟨rfl, hlast.symm⟩

/-- Together the leaves have the bytes between the two positions. -/
theorem bytesOfAll (h : Tiles input start leaves stop) :
    Value.bytesOfAll input leaves = .ok (stretch input start stop) := by
  induction h with
  | nil pos => rw [stretch_self, Value.bytesOfAll]
  | @cons span leaf leaves stop hleaf hleaves ih =>
    rw [Value.bytesOfAll, hleaf.bytes, ih,
      ← stretch_append span.start_le_stop hleaves.start_le_stop]
    rfl

theorem bytes {v : Value} (h : Tiles input start v.leaves stop) :
    v.bytes input = .ok (stretch input start stop) := by
  rw [← Value.bytesOfAll_leaves]
  exact h.bytesOfAll

end Tiles

/-- Pieces of the input, without gap or overlap, are a way for leaves to lie along it. -/
def tiling (input : Bytes) : Trail .lossless input where
  covers := Tiles input
  nil := .nil
  append := .append
  token span h := .single span (.token h)
  skip h := h.elim
  replace heq := by
    obtain rfl := heq
    exact fun _ h => h
  extent hle hlength h := ⟨_, h.extent, .single ⟨_, _, hle⟩ (.token hlength)⟩
  content hlength h := ⟨_, h.bytes, .single _ (.composite hlength)⟩

/-- Where no sequence discards anything and all actions give back what was matched, a match
loses nothing: the leaves of its value are the input between its ends, cut into pieces, so that
this is also what the value has for content, what a slice of it is the token of, and what is
joined to one composite. -/
theorem match_values_lose_no_input {rules : List Rule}
    (hrules : ∀ rule ∈ rules, rule.body.Obeys .lossless) (depth : Nat) {e : Expr}
    (he : e.Obeys .lossless) {s t : MatchState} (hs : s.cursor.pos ≤ s.cursor.input.length)
    {v : Value} (hrun : EStateM.run (e.eval (callRule rules depth)) s = .ok v t) :
    Tiles s.cursor.input s.cursor.pos v.leaves t.cursor.pos ∧
      v.bytes s.cursor.input = .ok (stretch s.cursor.input s.cursor.pos t.cursor.pos) ∧
      ∃ span : Span, span.start = s.cursor.pos ∧ span.stop = t.cursor.pos ∧
        EStateM.run (e.slice.eval (callRule rules depth)) s = .ok (.token span) t ∧
        EStateM.run (e.concat.eval (callRule rules depth)) s =
          .ok (.composite ⟨span, stretch s.cursor.input s.cursor.pos t.cursor.pos⟩) t := by
  have hkeeps := evaluation_keeps (tiling s.cursor.input) hrules depth (.inr ⟨e, he, rfl⟩)
  have hreaches := (hkeeps s rfl hs).of_ok hrun
  have htiles : Tiles s.cursor.input s.cursor.pos v.leaves t.cursor.pos := hreaches.covers
  have hinput := hreaches.advances.input_eq
  refine ⟨htiles, htiles.bytes, ⟨_, _, htiles.start_le_stop⟩, rfl, rfl, ?_, ?_⟩
  · rw [Expr.run_slice hrun, htiles.extent]
  · rw [Expr.run_concat hrun hreaches.advances.spanSince, hinput, htiles.bytes]

/-- A chain of operands, each of them joined and with a blank behind it if there is one. -/
theorem match_values_lose_no_input_of_chain :
    let plus : BinaryAction := ⟨"plus", fun _ matched _ _ => .ok matched⟩
    let operand : Expr :=
      .seq [.concat (.plus (.literal (.exact [0x61]))), .optional (.literal (.exact [0x20]))]
    let rules : List Rule :=
      [⟨"sum", .precedenceLevel, .level (.rightAssoc [(.literal (.exact [0x2B]), plus)]) 1⟩,
        ⟨"operand", .plain, .expr operand⟩]
    let e : Expr := .rule ⟨"sum", some 0⟩
    let s : MatchState := ⟨.start [0x61, 0x61, 0x20, 0x2B, 0x61], .empty, #[]⟩
    (∀ rule ∈ rules, rule.body.Obeys .lossless) ∧ e.Obeys .lossless ∧
      s.cursor.pos ≤ s.cursor.input.length ∧
      ∃ v t, EStateM.run (e.eval (callRule rules 3)) s = .ok v t ∧ t.cursor.pos = 5 ∧
        v.leaves.length = 5 ∧ Tiles s.cursor.input 0 v.leaves 5 ∧
        v.bytes s.cursor.input = .ok [0x61, 0x61, 0x20, 0x2B, 0x61] := by
  intro plus operand rules e s
  have hplus : plus.Obeys .lossless := fun _ matched _ _ => ⟨matched, rfl, rfl⟩
  have hsign : (Expr.literal (.exact [0x2B])).Obeys .lossless := by
    constructor <;>
      simp [← Expr.mem_postorder_iff_occurs, Expr.postorder, Expr.inner]
  have hoperand : operand.Obeys .lossless := by
    constructor <;>
      simp [← Expr.mem_postorder_iff_occurs, Expr.postorder, Expr.inner, Expr.postorderAll,
        Expr.isDiscard, operand]
  have hrules : ∀ rule ∈ rules, rule.body.Obeys .lossless := by
    simp only [rules, List.forall_mem_cons]
    refine ⟨⟨?_, ?_⟩, hoperand, by simp⟩
    · simpa [OperatorLevel.exprs] using hsign
    · simpa [OperatorLevel.ActionsObey] using hplus
  have he : e.Obeys .lossless := by
    constructor <;>
      simp [← Expr.mem_postorder_iff_occurs, Expr.postorder, Expr.inner, e]
  have hs : s.cursor.pos ≤ s.cursor.input.length := by decide
  have hend : passes (e.eval (callRule rules 3)) s (fun v t =>
      t.cursor.pos == 5 && v.leaves.length == 5) = true := by
    decide +kernel
  obtain ⟨v, t, hrun, hcheck⟩ := exists_of_passes hend
  obtain ⟨hpos, hlength⟩ : t.cursor.pos = 5 ∧ v.leaves.length = 5 := by simpa using hcheck
  obtain ⟨htiles, hbytes, -⟩ := match_values_lose_no_input hrules 3 he hs hrun
  rw [hpos] at htiles hbytes
  exact ⟨hrules, he, hs, v, t, hrun, hpos, hlength, htiles, hbytes⟩

end Peg
