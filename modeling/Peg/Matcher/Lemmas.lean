import Peg.Matcher

/-!
The results of matcher operations on a state, so that a proof about a matcher
need not look into the operations it is made of. The bound of a repetition
disappears here: it is never spent, and `run_iterate` says what a repetition does
in terms of one step and the repetition after it.
-/

namespace Peg.Matcher

variable {α : Type} (s : MatchState)

theorem run_map {β : Type} (f : α → β) (m : Matcher α) :
    EStateM.run (f <$> m) s =
      match EStateM.run m s with
      | .ok a after => .ok (f a) after
      | .error interrupt after => .error interrupt after := by
  rw [map_eq_pure_bind, EStateM.run_bind]
  cases EStateM.run m s <;> rfl

@[simp] theorem run_position : EStateM.run position s = .ok s.cursor.pos s := rfl

@[simp] theorem run_note (event : Event) :
    EStateM.run (note event) s = .ok () { s with events := s.events.push event } := rfl

@[simp] theorem run_context (captures : Captures) :
    EStateM.run (context captures) s = .ok ⟨s.cursor.input, captures⟩ s := rfl

theorem run_terminal (expr : Expr) (width? : Bytes → Option Nat) :
    EStateM.run (terminal expr width?) s =
      match s.cursor.take? width? with
      | some (span, after) => .ok (.token span) { s with cursor := after }
      | none => .error (.mismatch ⟨expr, s.cursor.pos⟩) s := by
  unfold terminal
  rw [EStateM.run_bind, EStateM.run_get]
  dsimp only
  cases s.cursor.take? width? <;> rfl

theorem run_attempt (m : Matcher α) :
    EStateM.run (attempt m) s =
      match EStateM.run m s with
      | .ok a after => .ok (.ok a) after
      | .error (.mismatch mismatch) after => .ok (.error mismatch) after
      | .error interrupt after => .error interrupt after := rfl

/-- Where the attempt fails, only the cursor goes back. Names bound and events
noted on the way stay. -/
theorem run_probe (m : Matcher α) :
    EStateM.run (probe m) s =
      match EStateM.run m s with
      | .ok a after => .ok (.ok a) after
      | .error (.mismatch mismatch) after =>
        .ok (.error mismatch) { after with cursor := after.cursor.jump s.cursor.pos }
      | .error interrupt after => .error interrupt after := by
  unfold probe
  rw [EStateM.run_bind, run_position]
  dsimp only
  rw [EStateM.run_bind, run_attempt]
  cases EStateM.run m s with
  | ok a after => rfl
  | error interrupt after => cases interrupt <;> rfl

theorem run_survey (m : Matcher α) :
    EStateM.run (survey m) s =
      match EStateM.run m s with
      | .ok a after => .ok (.ok a) { after with cursor := after.cursor.jump s.cursor.pos }
      | .error (.mismatch mismatch) after =>
        .ok (.error mismatch) { after with cursor := after.cursor.jump s.cursor.pos }
      | .error interrupt after => .error interrupt after := by
  unfold survey
  rw [EStateM.run_bind, run_position]
  dsimp only
  rw [EStateM.run_bind, run_attempt]
  cases EStateM.run m s with
  | ok a after => rfl
  | error interrupt after => cases interrupt <;> rfl

theorem run_withScope (scope : Captures) (m : Matcher α) :
    EStateM.run (withScope scope m) s =
      match EStateM.run m { s with scope } with
      | .ok a after => .ok (a, after.scope) { after with scope := s.scope }
      | .error interrupt after => .error interrupt { after with scope := s.scope } := rfl

/-! ## Repetition -/

section Iterate

variable (idle : Nat → Event) (step : α → Matcher (Option α))

/-- What a repetition does with the result of one step. -/
private def continueWith (next : α → Matcher α) (a : α) (before : MatchState) :
    EStateM.Result Interrupt MatchState (Option α) → EStateM.Result Interrupt MatchState α
  | .ok none after => .ok a after
  | .ok (some b) after =>
    if after.cursor.remaining.length < before.cursor.remaining.length then
      EStateM.run (next b) after
    else .ok b { after with events := after.events.push (idle before.cursor.pos) }
  | .error interrupt after => .error interrupt after

private theorem run_iterateWithin_succ (bound : Nat) (a : α) :
    EStateM.run (iterateWithin idle step (bound + 1) a) s =
      continueWith idle (iterateWithin idle step bound) a s (EStateM.run (step a) s) := by
  rw [iterateWithin, EStateM.run_bind, EStateM.run_get]
  dsimp only
  rw [EStateM.run_bind]
  cases EStateM.run (step a) s with
  | error interrupt after => rfl
  | ok next after =>
    cases next with
    | none => rfl
    | some b =>
      dsimp only [continueWith]
      rw [EStateM.run_bind, EStateM.run_get]
      dsimp only
      split <;> rfl

/-- Bounds that cover the remaining input all give the same result, so that none of
them cuts the repetition short. -/
theorem run_iterateWithin_eq {bound other : Nat} {s : MatchState} {a : α}
    (h : s.cursor.remaining.length < bound) (h' : s.cursor.remaining.length < other) :
    EStateM.run (iterateWithin idle step bound a) s =
      EStateM.run (iterateWithin idle step other a) s := by
  induction bound generalizing other s a with
  | zero => omega
  | succ bound ih =>
    obtain ⟨other, rfl⟩ : ∃ n, other = n + 1 := ⟨other - 1, by omega⟩
    rw [run_iterateWithin_succ, run_iterateWithin_succ]
    cases EStateM.run (step a) s with
    | error interrupt after => rfl
    | ok next after =>
      cases next with
      | none => rfl
      | some b =>
        simp only [continueWith]
        split
        · exact ih (by omega) (by omega)
        · rfl

/-- One step and then the rest: no bound is left to see. -/
theorem run_iterate (a : α) :
    EStateM.run (iterate idle step a) s =
      match EStateM.run (step a) s with
      | .ok none after => .ok a after
      | .ok (some b) after =>
        if after.cursor.remaining.length < s.cursor.remaining.length then
          EStateM.run (iterate idle step b) after
        else .ok b { after with events := after.events.push (idle s.cursor.pos) }
      | .error interrupt after => .error interrupt after := by
  have start (a : α) (s : MatchState) : EStateM.run (iterate idle step a) s =
      EStateM.run (iterateWithin idle step (s.cursor.remaining.length + 1) a) s := rfl
  rw [start, run_iterateWithin_succ]
  cases EStateM.run (step a) s with
  | error interrupt after => rfl
  | ok next after =>
    cases next with
    | none => rfl
    | some b =>
      simp only [continueWith]
      split
      · rw [start]
        exact run_iterateWithin_eq idle step (by omega) (by omega)
      · rfl

end Iterate

end Peg.Matcher
