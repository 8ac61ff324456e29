import Peg.Proofs.Backtracking

/-!
The scope in which an operator is tried. The search among the operators of a level
begins with an empty scope, and whoever comes after an operator that failed finds
what that one left behind. So an operator is matched as it would be alone just if
none of those tried before it left a name; what is left then takes part in the match
of the operator, and is given to its action.
-/

namespace Peg

open Matcher

namespace OperatorLevel

variable {α : Type} {call : Nat → Matcher Value}

/-- The operators fail one after the other, the first from the one state, and from the
other whatever is tried after the last. -/
inductive AllFail (call : Nat → Matcher Value) :
    List (Expr × α) → MatchState → MatchState → Prop
  | nil {s : MatchState} : AllFail call [] s s
  | cons {e : Expr} {a : α} {rest : List (Expr × α)} {s t u : MatchState} {x : Mismatch}
      (hfails : EStateM.run (e.eval call) s = .error (.mismatch x) u)
      (hrest : AllFail call rest (u.backAt s.cursor.pos) t) : AllFail call ((e, a) :: rest) s t

/-- Tried from the state, the expression fails and leaves no name. -/
def FailsClean (call : Nat → Matcher Value) (s : MatchState) (e : Expr) : Prop :=
  ∃ x t, EStateM.run (e.eval call) s = .error (.mismatch x) t ∧ t.scope = .empty

theorem run_firstOperator_cons (e : Expr) (a : α) (rest : List (Expr × α)) (s : MatchState) :
    EStateM.run (firstOperator call ((e, a) :: rest)) s =
      match EStateM.run (e.eval call) s with
      | .ok v t => .ok (some (v, a)) t
      | .error (.mismatch _) t => EStateM.run (firstOperator call rest) (t.backAt s.cursor.pos)
      | .error interrupt t => .error interrupt t := by
  rw [firstOperator, EStateM.run_bind, run_probe]
  cases EStateM.run (e.eval call) s with
  | ok v t => rfl
  | error interrupt t => cases interrupt <;> rfl

/-- An operator that is found is the first that does not fail. -/
theorem exists_split_of_firstOperator {operators : List (Expr × α)} {s w : MatchState} {v : Value}
    {a : α} (h : EStateM.run (firstOperator call operators) s = .ok (some (v, a)) w) :
    ∃ before e after t, operators = before ++ (e, a) :: after ∧ AllFail call before s t ∧
      EStateM.run (e.eval call) t = .ok v w := by
  induction operators generalizing s with
  | nil => cases h
  | cons operator rest ih =>
    obtain ⟨e, b⟩ := operator
    rw [run_firstOperator_cons] at h
    split at h
    · next v' t hrun =>
      cases h
      exact ⟨[], e, rest, s, rfl, .nil, hrun⟩
    · next x t hrun =>
      obtain ⟨before, e', after, u, rfl, hfail, hmatch⟩ := ih h
      exact ⟨(e, b) :: before, e', after, u, rfl, .cons hrun hfail, hmatch⟩
    · cases h

/-- Where no operator is found, all fail. -/
theorem allFail_of_firstOperator {operators : List (Expr × α)} {s t : MatchState}
    (h : EStateM.run (firstOperator call operators) s = .ok none t) :
    AllFail call operators s t := by
  induction operators generalizing s with
  | nil =>
    cases h
    exact .nil
  | cons operator rest ih =>
    obtain ⟨e, a⟩ := operator
    rw [run_firstOperator_cons] at h
    split at h
    · cases h
    · next x u hrun => exact .cons hrun (ih h)
    · cases h

namespace AllFail

variable {operators : List (Expr × α)} {s t : MatchState}

/-- The cursor is where it was, whatever has been tried. -/
theorem cursor_eq (hcall : ∀ handle, InBounds (call handle)) (h : AllFail call operators s t)
    (hs : s.cursor.pos ≤ s.cursor.input.length) :
    t.cursor.input = s.cursor.input ∧ t.cursor.pos = s.cursor.pos := by
  induction h with
  | nil => exact ⟨rfl, rfl⟩
  | @cons e a rest s t u x hfails _ ih =>
    have hinput := ((Expr.eval_inBounds hcall e s hs).of_mismatch hfails).1.input_eq
    have hbounds : s.cursor.pos ≤ u.cursor.input.length := by
      rw [hinput]
      exact hs
    obtain ⟨hinput', hpos⟩ := ih hbounds
    exact ⟨hinput'.trans hinput, hpos⟩

/-- A name that was left is still there when the next operator is tried. -/
theorem scope_eq_empty (hcall : ∀ handle, BindsOnly [] (call handle))
    (h : AllFail call operators s t) (ht : t.scope = .empty) : s.scope = .empty := by
  induction h with
  | nil => exact ht
  | @cons e a rest s t u x hfails _ ih =>
    have hextends := (Expr.eval_bindsOnly hcall e s).of_mismatch hfails
    have hu : u.scope = .empty := ih ht
    rw [hu] at hextends
    exact hextends.eq_empty

/-- The scope is still empty after all operators just if each of them, tried alone,
leaves it so: up to the first that does not, each is tried as if alone. -/
theorem scope_eq_empty_iff (hbounds : ∀ handle, InBounds (call handle))
    (hbinds : ∀ handle, BindsOnly [] (call handle))
    (hrefines : ∀ handle, Refines SameView (call handle) (call handle))
    (h : AllFail call operators s t) {alone : MatchState} (hview : SameView s alone)
    (halone : alone.scope = .empty) (hs : s.cursor.pos ≤ s.cursor.input.length) :
    t.scope = .empty ↔ ∀ operator ∈ operators, FailsClean call alone operator.1 := by
  induction h with
  | nil =>
    have hscope := hview.scope_eq.trans halone
    simp [hscope]
  | @cons e a rest s t u x hfails hrest ih =>
    obtain ⟨u', hfails', hu⟩ :=
      (e.eval_refines SameView.congruence hrefines).run_mismatch hview hfails
    have hclean : FailsClean call alone e ↔ u.scope = .empty := by
      rw [hu.scope_eq]
      constructor
      · rintro ⟨y, w, hrun, hw⟩
        rw [hfails'] at hrun
        obtain ⟨-, rfl⟩ := EStateM.Result.error.inj hrun
        exact hw
      · intro hscope
        exact ⟨x, u', hfails', hscope⟩
    rw [List.forall_mem_cons, hclean]
    by_cases hscope : u.scope = .empty
    · have hinput := ((Expr.eval_inBounds hbounds e s hs).of_mismatch hfails).1.input_eq
      have hback : SameView (u.backAt s.cursor.pos) alone :=
        ⟨hinput.trans hview.input_eq, hview.pos_eq, hscope.trans halone.symm⟩
      have hinside : s.cursor.pos ≤ u.cursor.input.length := by
        rw [hinput]
        exact hs
      rw [ih hback hinside]
      exact ⟨fun hall => ⟨hscope, hall⟩, fun hall => hall.2⟩
    · constructor
      · intro ht
        exact absurd (hrest.scope_eq_empty hbinds ht) hscope
      · intro hall
        exact absurd hall.1 hscope

end AllFail

end OperatorLevel

open OperatorLevel

/-- The operator that a level finds was tried after those before it had failed, at the
position where the level stands. It was tried as if alone, in an empty scope, just if
each of those before it, tried alone, leaves no name; it then comes to the value, the
position and the names that it comes to alone. In any case its action is given what it
bound, and with it all that was left before. -/
theorem operator_tried_alone_iff {α : Type} (rules : List Rule) (depth : Nat)
    {operators : List (Expr × α)} {s w : MatchState} (hs : s.cursor.pos ≤ s.cursor.input.length)
    {v : Value} {a : α} {captures : Captures}
    (hfound : EStateM.run (operator (callRule rules depth) operators) s =
      .ok (some (v, a), captures) w) :
    ∃ before e after t u, operators = before ++ (e, a) :: after ∧
      AllFail (callRule rules depth) before { s with scope := .empty } t ∧
      EStateM.run (e.eval (callRule rules depth)) t = .ok v u ∧
      captures = u.scope ∧ w = { u with scope := s.scope } ∧
      (∀ name, name ∉ e.labels → captures.get? name = t.scope.get? name) ∧
      (SameView t { s with scope := .empty } ↔ ∀ operator ∈ before,
        FailsClean (callRule rules depth) { s with scope := .empty } operator.1) ∧
      (SameView t { s with scope := .empty } →
        ∃ u', EStateM.run (e.eval (callRule rules depth)) { s with scope := .empty } = .ok v u' ∧
          u'.cursor.pos = w.cursor.pos ∧ u'.scope = captures) := by
  have hbounds := callRule_inBounds rules depth
  have hbinds := callRule_bindsOnly rules depth
  have hrefines (handle : Nat) :
      Refines SameView (callRule rules depth handle) (callRule rules depth handle) :=
    callRule_refines SameView.congruence rules (Nat.le_refl depth) handle
  obtain ⟨u, hrun, rfl, rfl⟩ : ∃ u, EStateM.run (firstOperator (callRule rules depth) operators)
      { s with scope := .empty } = .ok (some (v, a)) u ∧ captures = u.scope ∧
      w = { u with scope := s.scope } := by
    rw [operator, run_withScope] at hfound
    split at hfound
    · next found u hrun =>
      cases hfound
      exact ⟨u, hrun, rfl, rfl⟩
    · cases hfound
  obtain ⟨before, e, after, t, rfl, hfail, hmatch⟩ := exists_split_of_firstOperator hrun
  have hnames := (Expr.eval_bindsOnly hbinds e t).of_ok hmatch
  obtain ⟨hinput, hpos⟩ := hfail.cursor_eq hbounds hs
  have halone : SameView t { s with scope := .empty } ↔ t.scope = .empty :=
    ⟨fun hview => hview.scope_eq, fun hscope => ⟨hinput, hpos, hscope⟩⟩
  refine ⟨before, e, after, t, u, rfl, hfail, hmatch, rfl, rfl, ?_, ?_, ?_⟩
  · intro name hname
    exact hnames.same_outside name fun hmem => hname (e.mem_labels.mpr hmem)
  · rw [halone]
    exact hfail.scope_eq_empty_iff hbounds hbinds hrefines ⟨rfl, rfl, rfl⟩ rfl hs
  · intro hview
    obtain ⟨u', hrun', hu⟩ := (e.eval_refines SameView.congruence hrefines).run_ok hview hmatch
    exact ⟨u', hrun', hu.pos_eq.symm, hu.scope_eq.symm⟩

/-- An operator without labels fails, and the next one is tried as if alone. -/
theorem operator_tried_alone_after_unlabelled :
    let ab : Expr := .seq [.literal (.exact [0x61]), .literal (.exact [0x62])]
    let ac : Expr := .label "y" (.literal (.exact [0x61, 0x63]))
    let s : MatchState := ⟨.start [0x61, 0x63, 0x64], .empty, #[]⟩
    s.cursor.pos ≤ s.cursor.input.length ∧
    ∃ captures w, EStateM.run (operator (callRule [] 0) [(ab, "f"), (ac, "g")]) s =
        .ok (some (.token ⟨0, 2, by decide⟩, "g"), captures) w ∧
      ∃ u, EStateM.run (ac.eval (callRule [] 0)) s = .ok (.token ⟨0, 2, by decide⟩) u ∧
        u.cursor.pos = w.cursor.pos ∧ u.scope = captures := by
  intro ab ac s
  have hs : s.cursor.pos ≤ s.cursor.input.length := by decide
  have hfound : EStateM.run (operator (callRule [] 0) [(ab, "f"), (ac, "g")]) s =
    .ok (some (.token ⟨0, 2, by decide⟩, "g"), _) _ := rfl
  refine ⟨hs, _, _, hfound, ?_⟩
  obtain ⟨before, e, after, t, u, hsplit, -, -, -, -, -, hiff, halone⟩ :=
    operator_tried_alone_iff [] 0 hs hfound
  obtain ⟨rfl, rfl⟩ : before = [(ab, "f")] ∧ e = ac := by
    match before with
    | [] =>
      have hactions : "f" = "g" := congrArg Prod.snd (List.cons.inj hsplit).1
      exact absurd hactions (by decide)
    | [operator] =>
      obtain ⟨rfl, hrest⟩ := List.cons.inj hsplit
      exact ⟨rfl, (Prod.mk.inj (List.cons.inj hrest).1).1.symm⟩
    | first :: second :: before =>
      have hlength := congrArg List.length hsplit
      simp only [List.length_append, List.length_cons, List.length_nil] at hlength
      omega
  exact halone (hiff.mpr (List.forall_mem_singleton.mpr ⟨_, _, rfl, rfl⟩))

/-- `x:"a" "b"` fails on `ac` after it has bound `x`, and the action of the next
operator is given `x`, which that operator alone does not bind. -/
theorem failed_operator_leaves_name :
    let abandoned : Expr :=
      .seq [.label "x" (.literal (.exact [0x61])), .literal (.exact [0x62])]
    let ac : Expr := .literal (.exact [0x61, 0x63])
    let s : MatchState := ⟨.start [0x61, 0x63, 0x64], .empty, #[]⟩
    ∃ v captures w u,
      EStateM.run (operator (callRule [] 0) [(abandoned, "f"), (ac, "g")]) s =
        .ok (some (v, "g"), captures) w ∧
      EStateM.run (ac.eval (callRule [] 0)) s = .ok v u ∧
      captures.get? "x" = some (.token ⟨0, 1, by decide⟩) ∧ u.scope.get? "x" = none := by
  intro abandoned ac s
  exact ⟨_, _, _, _, rfl, rfl, rfl, rfl⟩

end Peg
