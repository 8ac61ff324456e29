import Peg.Proofs.Leaves

/-!
A value is seen through its leaves. However its lists are nested in each other, and however many
of them are empty, all that is made of a value depends on what remains when the nesting is
forgotten: the content is that of the leaves, joined, the text is decoded after they are joined,
and slices and composites of what was matched are put together from the leaves alone.
-/

namespace Peg

open Matcher

namespace Value

variable {input : Bytes} {v w leaf : Value}

/-! ## Leaves of leaves -/

mutual
/-- No leaf is a list. -/
theorem list_notMem_leaves (items : List Value) : ∀ v : Value, list items ∉ v.leaves
  | list inner => list_notMem_leavesOfAll items inner
  | token _ | composite _ | int _ | float _ | str _ | bool _ | nil | foreign _ => by
    simp [leaves]

theorem list_notMem_leavesOfAll (items : List Value) :
    ∀ vs : List Value, list items ∉ leavesOfAll vs
  | [] => List.not_mem_nil
  | v :: vs => by
    rw [leavesOfAll, List.mem_append, not_or]
    exact ⟨list_notMem_leaves items v, list_notMem_leavesOfAll items vs⟩
end

/-- What is no list is its only leaf. -/
theorem leaves_of_ne_list (h : ∀ items, v ≠ list items) : v.leaves = [v] := by
  cases v with
  | list items => exact absurd rfl (h items)
  | _ => rfl

theorem leaves_of_mem_leaves (h : leaf ∈ v.leaves) : leaf.leaves = [leaf] := by
  apply leaves_of_ne_list
  rintro items rfl
  exact list_notMem_leaves items v h

/-- The list of the leaves has the same leaves. -/
theorem leaves_list_leaves (v : Value) : (list v.leaves).leaves = v.leaves := by
  calc (list v.leaves).leaves
    _ = v.leaves.flatMap leaves := leavesOfAll_eq_flatMap v.leaves
    _ = v.leaves.flatMap fun leaf => [leaf] :=
      List.flatMap_congr fun _ hleaf => leaves_of_mem_leaves hleaf
    _ = v.leaves := List.flatMap_singleton' v.leaves

/-! ## Content by leaves -/

/-- Values that have these contents have them joined. -/
theorem bytesOfAll_of_map_bytes {vs : List Value} {contents : List Bytes}
    (h : vs.map (bytes input) = contents.map .ok) :
    bytesOfAll input vs = .ok contents.flatten := by
  induction vs generalizing contents with
  | nil =>
    obtain rfl : contents = [] := by simpa using h
    rfl
  | cons v vs ih =>
    obtain ⟨content, rest, rfl, hcontent, hrest⟩ := List.map_eq_cons_iff.mp h.symm
    rw [bytesOfAll, ← hcontent, ih hrest.symm]
    rfl

theorem exists_map_bytes {vs : List Value} (h : ∀ v ∈ vs, ∃ content, v.bytes input = .ok content) :
    ∃ contents : List Bytes, vs.map (bytes input) = contents.map .ok := by
  induction vs with
  | nil => exact ⟨[], rfl⟩
  | cons v vs ih =>
    obtain ⟨⟨content, hcontent⟩, hvs⟩ := List.forall_mem_cons.mp h
    obtain ⟨rest, hrest⟩ := ih hvs
    exact ⟨content :: rest, by rw [List.map_cons, List.map_cons, hcontent, hrest]⟩

/-- Only a token can lack content, and only where it lies outside the input. -/
theorem exists_bytes_of_mem_leaves (hv : ∀ span, token span ∈ v.leaves → span.stop ≤ input.length)
    (hleaf : leaf ∈ v.leaves) : ∃ content, leaf.bytes input = .ok content := by
  cases leaf with
  | token span => exact ⟨_, if_pos (hv span hleaf)⟩
  | list items => exact absurd hleaf (list_notMem_leaves items v)
  | _ => exact ⟨_, rfl⟩

/-- The content of a value is that of its leaves, joined in their order. -/
theorem exists_contents (hv : ∀ span, token span ∈ v.leaves → span.stop ≤ input.length) :
    ∃ contents : List Bytes, v.leaves.map (bytes input) = contents.map .ok ∧
      v.bytes input = .ok contents.flatten := by
  obtain ⟨contents, hcontents⟩ :=
    exists_map_bytes fun _ hleaf => exists_bytes_of_mem_leaves hv hleaf
  refine ⟨contents, hcontents, ?_⟩
  rw [← bytesOfAll_leaves]
  exact bytesOfAll_of_map_bytes hcontents

/-! ## Values with the same leaves -/

theorem bytes_eq_of_leaves_eq (h : w.leaves = v.leaves) : w.bytes input = v.bytes input := by
  rw [← bytesOfAll_leaves, h, bytesOfAll_leaves]

theorem text_eq_of_leaves_eq (h : w.leaves = v.leaves) : w.text input = v.text input := by
  unfold text
  rw [bytes_eq_of_leaves_eq h]

theorem extent_eq_of_leaves_eq (h : w.leaves = v.leaves) (start : Nat) :
    w.extent start = v.extent start := by
  unfold extent
  rw [h]

end Value

/-- Only the leaves of a value are seen. None of them is a list, so that the list of them has the
same leaves. If the tokens among them lie inside the input, the value has their contents, joined
in their order, and its text is decoded from the joined content, whether or not each of them is a
text. Every other value with the same leaves has the same content, the same text and the same
extent; that leaves only compare equal is not enough for that. And whatever expression matched
such a value, with rules around it or without, a slice of it gives that extent and a composite of
it that content. -/
theorem only_leaves_are_seen {v : Value} {input : Bytes}
    (hv : ∀ span, .token span ∈ v.leaves → span.stop ≤ input.length) :
    (∀ items, .list items ∉ v.leaves) ∧ (Value.list v.leaves).leaves = v.leaves ∧
      ∃ contents : List Bytes, v.leaves.map (Value.bytes input) = contents.map .ok ∧
        v.bytes input = .ok contents.flatten ∧
        v.text input = .ok (Utf8.lossy contents.flatten) ∧
        ∀ w : Value, w.leaves = v.leaves →
          w.bytes input = v.bytes input ∧ w.text input = v.text input ∧
          (∀ start, w.extent start = v.extent start) ∧
          ∀ call : Nat → Matcher Value, (∀ handle, InBounds (call handle)) →
            ∀ (e : Expr) (s t : MatchState),
              s.cursor.input = input → s.cursor.pos ≤ input.length →
              EStateM.run (e.eval call) s = .ok w t →
              EStateM.run (e.slice.eval call) s =
                (match v.extent s.cursor.pos with
                  | .ok span => .ok (.token span) t
                  | .error fault => .error (.fault fault) t) ∧
              ∃ hle : s.cursor.pos ≤ t.cursor.pos,
                EStateM.run (e.concat.eval call) s =
                  .ok (.composite ⟨⟨s.cursor.pos, t.cursor.pos, hle⟩, contents.flatten⟩) t := by
  obtain ⟨contents, hcontents, hbytes⟩ := Value.exists_contents hv
  have htext : v.text input = .ok (Utf8.lossy contents.flatten) := by
    unfold Value.text
    rw [hbytes]
    rfl
  refine ⟨fun items => Value.list_notMem_leaves items v, Value.leaves_list_leaves v, contents,
    hcontents, hbytes, htext, ?_⟩
  intro w hw
  have hwbytes : w.bytes input = v.bytes input := Value.bytes_eq_of_leaves_eq hw
  refine ⟨hwbytes, Value.text_eq_of_leaves_eq hw, Value.extent_eq_of_leaves_eq hw, ?_⟩
  rintro call hcall e s t rfl hs hrun
  have hadvances : s.cursor.Advances t.cursor := (Expr.eval_inBounds hcall e s hs).of_ok hrun
  have hslice := Expr.run_slice hrun
  rw [Value.extent_eq_of_leaves_eq hw] at hslice
  refine ⟨hslice, hadvances.pos_le, ?_⟩
  rw [Expr.run_concat hrun hadvances.spanSince, hadvances.input_eq, hwbytes, hbytes]

/-- The two bytes of one character, in a token each, among empty lists and without them. Neither
token is a text of its own; together they are one character, in both nestings. -/
theorem only_leaves_are_seen_of_split_character :
    let input : Bytes := [0xC3, 0xA9]
    let lead : Value := .token ⟨0, 1, by decide⟩
    let trail : Value := .token ⟨1, 2, by decide⟩
    let nested : Value := .list [.list [], .list [lead, .list [.list []]], .list [.list [trail]]]
    let flat : Value := .list [lead, trail]
    let e : Expr := .seq [.literal (.exact [0xC3]), .literal (.exact [0xA9])]
    let s : MatchState := ⟨.start input, .empty, #[]⟩
    (∀ span, .token span ∈ nested.leaves → span.stop ≤ input.length) ∧
      flat.leaves = nested.leaves ∧ lead.text input = .ok "\uFFFD" ∧
      trail.text input = .ok "\uFFFD" ∧ nested.text input = .ok "é" ∧ flat.text input = .ok "é" ∧
      ∃ t, EStateM.run (e.eval (callRule [] 0)) s = .ok flat t ∧
        EStateM.run (e.slice.eval (callRule [] 0)) s = .ok (.token ⟨0, 2, by decide⟩) t ∧
        EStateM.run (e.concat.eval (callRule [] 0)) s =
          .ok (.composite ⟨⟨0, 2, by decide⟩, input⟩) t := by
  intro input lead trail nested flat e s
  have hnested : ∀ span, .token span ∈ nested.leaves → span.stop ≤ input.length := by
    intro span hspan
    rcases List.mem_pair.mp hspan with h | h
    · obtain rfl := Value.token.inj h
      decide
    · obtain rfl := Value.token.inj h
      decide
  have hleaves : flat.leaves = nested.leaves := rfl
  obtain ⟨-, -, contents, -, hbytes, htext, hsame⟩ := only_leaves_are_seen hnested
  have hjoined : contents.flatten = input := Except.ok.inj (hbytes.symm.trans rfl)
  obtain ⟨-, hflat, -, hmade⟩ := hsame flat hleaves
  obtain ⟨hslice, hle, hconcat⟩ := hmade (callRule [] 0) (callRule_inBounds [] 0) e s _ rfl
    (by decide) rfl
  rw [hjoined] at hconcat htext
  have hdecoded : nested.text input = .ok "é" := htext.trans (by decide)
  exact ⟨hnested, hleaves, by decide, by decide, hdecoded, hflat.trans hdecoded, _, rfl, hslice,
    hconcat⟩

/-- The two zeros compare equal and are written differently. -/
example : (Value.float 0.0).beq (.float (-0.0)) = true ∧
    (Value.float 0.0).bytes [] = .ok [0x30] ∧ (Value.float (-0.0)).bytes [] = .ok [0x2D, 0x30] := by
  decide

end Peg
