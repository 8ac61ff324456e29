import Peg.Matcher.Lemmas
import Peg.Matcher.Rule

/-!
What a run of a matcher ensures. `Ensures m s ok failed cut` speaks of the end
of the run of `m` from the state `s`: a value with the state it leaves, a
mismatch with the state it leaves, or a fault or too deep a call, of which only
the reason is kept. For each way of putting matchers together there is one
equation that moves the statement into the parts, so that a proof about an
expression follows the expression and never the monad.
-/

namespace Peg

/-- Where matching goes on when an attempt that ended in `s` is given up: the
cursor is back at `pos`, names and events stay as the attempt left them. -/
def MatchState.backAt (s : MatchState) (pos : Nat) : MatchState :=
  { s with cursor := s.cursor.jump pos }

namespace Matcher

/-- How the run of `m` from `s` may end. -/
def Ensures {α : Type} (m : Matcher α) (s : MatchState) (ok : α → MatchState → Prop)
    (failed : Mismatch → MatchState → Prop) (cut : Interrupt → Prop) : Prop :=
  match EStateM.run m s with
  | .ok a t => ok a t
  | .error (.mismatch x) t => failed x t
  | .error interrupt _ => cut interrupt

/-- What a result that may be a fault has to be. -/
def Settled {α : Type} (result : Except Fault α) (ok : α → Prop) (cut : Interrupt → Prop) :
    Prop :=
  match result with
  | .ok a => ok a
  | .error fault => cut (.fault fault)

theorem Settled.intro {α : Type} {result : Except Fault α} {ok : α → Prop}
    {cut : Interrupt → Prop} (hok : ∀ a, result = .ok a → ok a)
    (hcut : ∀ fault, cut (.fault fault)) : Settled result ok cut := by
  cases result with
  | ok a => exact hok a rfl
  | error fault => exact hcut fault

variable {α β : Type} {s : MatchState} {failed : Mismatch → MatchState → Prop}
  {cut : Interrupt → Prop}

namespace Ensures

variable {m : Matcher α} {ok : α → MatchState → Prop}

theorem of_ok (h : Ensures m s ok failed cut) {a : α} {t : MatchState}
    (hrun : EStateM.run m s = .ok a t) : ok a t := by
  unfold Ensures at h
  rw [hrun] at h
  exact h

theorem of_mismatch (h : Ensures m s ok failed cut) {x : Mismatch} {t : MatchState}
    (hrun : EStateM.run m s = .error (.mismatch x) t) : failed x t := by
  unfold Ensures at h
  rw [hrun] at h
  exact h

theorem of_exhausted (h : Ensures m s ok failed cut) {t : MatchState}
    (hrun : EStateM.run m s = .error .exhausted t) : cut .exhausted := by
  unfold Ensures at h
  rw [hrun] at h
  exact h

theorem of_fault (h : Ensures m s ok failed cut) {fault : Fault} {t : MatchState}
    (hrun : EStateM.run m s = .error (.fault fault) t) : cut (.fault fault) := by
  unfold Ensures at h
  rw [hrun] at h
  exact h

/-- What is known of every end of the run may be used to show more of it. -/
theorem mono (h : Ensures m s ok failed cut) {ok' : α → MatchState → Prop}
    {failed' : Mismatch → MatchState → Prop}
    (hok : ∀ a t, ok a t → ok' a t) (hfailed : ∀ x t, failed x t → failed' x t) :
    Ensures m s ok' failed' cut := by
  unfold Ensures at h ⊢
  split
  · next a t hrun => exact hok a t (by simpa only [hrun] using h)
  · next x t hrun => exact hfailed x t (by simpa only [hrun] using h)
  · next interrupt t hnot hrun => simpa only [hrun] using h

theorem imp_ok (h : Ensures m s ok failed cut) {ok' : α → MatchState → Prop}
    (hok : ∀ a t, ok a t → ok' a t) : Ensures m s ok' failed cut :=
  h.mono hok fun _ _ hx => hx

theorem imp_cut (h : Ensures m s ok failed cut) {cut' : Interrupt → Prop}
    (hcut : ∀ interrupt, cut interrupt → cut' interrupt) : Ensures m s ok failed cut' := by
  unfold Ensures at h ⊢
  split
  · next a t hrun => simpa only [hrun] using h
  · next x t hrun => simpa only [hrun] using h
  · next interrupt t hnot hrun => exact hcut interrupt (by simpa only [hrun] using h)

/-- A matcher that never fails may stand wherever one may. -/
theorem imp_total (h : Ensures m s ok (fun _ _ => False) cut) {ok' : α → MatchState → Prop}
    (hok : ∀ a t, ok a t → ok' a t) : Ensures m s ok' failed cut :=
  h.mono hok fun _ _ hx => hx.elim

/-- Every run ends in some way. -/
theorem trivial (m : Matcher α) (s : MatchState) :
    Ensures m s (fun _ _ => True) (fun _ _ => True) (fun _ => True) := by
  unfold Ensures
  split
  · exact True.intro
  · exact True.intro
  · exact True.intro

/-- The run of `m` is what it is. -/
theorem run_eq (m : Matcher α) (s : MatchState) :
    Ensures m s (fun a t => EStateM.run m s = .ok a t)
      (fun x t => EStateM.run m s = .error (.mismatch x) t) (fun _ => True) := by
  unfold Ensures
  split
  · next hrun => exact hrun
  · next hrun => exact hrun
  · exact True.intro

theorem of_run_ok {a : α} {t : MatchState} (hrun : EStateM.run m s = .ok a t) (h : ok a t) :
    Ensures m s ok failed cut := by
  unfold Ensures
  rw [hrun]
  exact h

theorem of_run_mismatch {x : Mismatch} {t : MatchState}
    (hrun : EStateM.run m s = .error (.mismatch x) t) (h : failed x t) :
    Ensures m s ok failed cut := by
  unfold Ensures
  rw [hrun]
  exact h

/-- What two statements say of the ways a run can end, taken together. -/
theorem also (h : Ensures m s ok failed cut) {ok' : α → MatchState → Prop}
    {failed' : Mismatch → MatchState → Prop} (h' : Ensures m s ok' failed' (fun _ => True)) :
    Ensures m s (fun a t => ok a t ∧ ok' a t) (fun x t => failed x t ∧ failed' x t) cut := by
  unfold Ensures at h h' ⊢
  split
  · next a t hrun =>
    rw [hrun] at h h'
    exact ⟨h, h'⟩
  · next x t hrun =>
    rw [hrun] at h h'
    exact ⟨h, h'⟩
  · next interrupt t hnot hrun => simpa only [hrun] using h

end Ensures

/-- Whether the run of `m` from `s` comes to a value and a state that pass the check. -/
def passes (m : Matcher α) (s : MatchState) (check : α → MatchState → Bool) : Bool :=
  match EStateM.run m s with
  | .ok a t => check a t
  | .error _ _ => false

theorem exists_of_passes {m : Matcher α} {check : α → MatchState → Bool}
    (h : passes m s check = true) : ∃ a t, EStateM.run m s = .ok a t ∧ check a t = true := by
  unfold passes at h
  split at h
  · next a t hrun => exact ⟨a, t, hrun, h⟩
  · cases h

/-! ## One equation for each operation -/

section Equations

variable {ok : β → MatchState → Prop} {okNat : Nat → MatchState → Prop}

theorem ensures_pure (b : β) : Ensures (pure b) s ok failed cut ↔ ok b s := Iff.rfl

theorem ensures_bind (m : Matcher α) (f : α → Matcher β) :
    Ensures (m >>= f) s ok failed cut ↔
      Ensures m s (fun a t => Ensures (f a) t ok failed cut) failed cut := by
  unfold Ensures
  rw [EStateM.run_bind]
  cases EStateM.run m s with
  | ok a t => rfl
  | error interrupt t => cases interrupt <;> rfl

theorem ensures_map (f : α → β) (m : Matcher α) :
    Ensures (f <$> m) s ok failed cut ↔ Ensures m s (fun a t => ok (f a) t) failed cut := by
  rw [map_eq_pure_bind, ensures_bind]
  rfl

theorem ensures_ite (c : Prop) [Decidable c] (m m' : Matcher β) :
    Ensures (if c then m else m') s ok failed cut ↔
      if c then Ensures m s ok failed cut else Ensures m' s ok failed cut := by
  split <;> rfl

theorem ensures_get {ok : MatchState → MatchState → Prop} :
    Ensures get s ok failed cut ↔ ok s s := Iff.rfl

theorem ensures_position : Ensures position s okNat failed cut ↔ okNat s.cursor.pos s := Iff.rfl

theorem ensures_note {ok : Unit → MatchState → Prop} (event : Event) :
    Ensures (note event) s ok failed cut ↔
      ok () { s with events := s.events.push event } := Iff.rfl

theorem ensures_bindName {ok : Unit → MatchState → Prop} (name : String) (value : Value) :
    Ensures (bindName name value) s ok failed cut ↔
      ok () { s with scope := s.scope.insert name value } := Iff.rfl

theorem ensures_throw (interrupt : Interrupt) :
    Ensures (throw interrupt : Matcher β) s ok failed cut ↔
      match interrupt with
      | .mismatch x => failed x s
      | interrupt => cut interrupt := by
  cases interrupt <;> rfl

theorem ensures_mismatch (e : Expr) (pos : Nat) :
    Ensures (mismatch e pos : Matcher β) s ok failed cut ↔ failed ⟨e, pos⟩ s := Iff.rfl

theorem ensures_ofFault (result : Except Fault β) :
    Ensures (ofFault result) s ok failed cut ↔ Settled result (fun b => ok b s) cut := by
  cases result <;> rfl

theorem ensures_context {ok : ActionContext → MatchState → Prop} (captures : Captures) :
    Ensures (context captures) s ok failed cut ↔ ok ⟨s.cursor.input, captures⟩ s := Iff.rfl

theorem ensures_terminal {ok : Value → MatchState → Prop} (e : Expr)
    (width? : Bytes → Option Nat) :
    Ensures (terminal e width?) s ok failed cut ↔
      match s.cursor.take? width? with
      | some (span, after) => ok (.token span) { s with cursor := after }
      | none => failed ⟨e, s.cursor.pos⟩ s := by
  unfold Ensures
  rw [run_terminal]
  cases s.cursor.take? width? <;> rfl

theorem ensures_probe {ok : Except Mismatch α → MatchState → Prop} (m : Matcher α) :
    Ensures (probe m) s ok failed cut ↔
      Ensures m s (fun a t => ok (.ok a) t)
        (fun x t => ok (.error x) (t.backAt s.cursor.pos)) cut := by
  unfold Ensures
  rw [run_probe]
  cases EStateM.run m s with
  | ok a t => rfl
  | error interrupt t => cases interrupt <;> rfl

theorem ensures_survey {ok : Except Mismatch α → MatchState → Prop} (m : Matcher α) :
    Ensures (survey m) s ok failed cut ↔
      Ensures m s (fun a t => ok (.ok a) (t.backAt s.cursor.pos))
        (fun x t => ok (.error x) (t.backAt s.cursor.pos)) cut := by
  unfold Ensures
  rw [run_survey]
  cases EStateM.run m s with
  | ok a t => rfl
  | error interrupt t => cases interrupt <;> rfl

theorem ensures_withScope {ok : α × Captures → MatchState → Prop} (scope : Captures)
    (m : Matcher α) :
    Ensures (withScope scope m) s ok failed cut ↔
      Ensures m { s with scope } (fun a t => ok (a, t.scope) { t with scope := s.scope })
        (fun x t => failed x { t with scope := s.scope }) cut := by
  unfold Ensures
  rw [run_withScope]
  cases EStateM.run m { s with scope } with
  | ok a t => rfl
  | error interrupt t => cases interrupt <;> rfl

theorem ensures_traced {ok : Value → MatchState → Prop} (rule : String) (m : Matcher Value) :
    Ensures (traced rule m) s ok failed cut ↔
      Ensures m { s with events := s.events.push (.entered rule s.cursor.pos) }
        (fun v t => ok v
          { t with events := t.events.push (.matched rule s.cursor.pos t.cursor.pos) })
        (fun x t => failed x { t with events := t.events.push (.failed rule x.pos) }) cut := by
  unfold traced
  rw [ensures_bind, ensures_position, ensures_bind, ensures_note, ensures_bind]
  unfold Ensures
  rw [run_attempt]
  cases EStateM.run m { s with events := s.events.push (.entered rule s.cursor.pos) } with
  | ok a t => rfl
  | error interrupt t => cases interrupt <;> rfl

theorem ensures_firstOf_nil (empty : Mismatch) (best : Option Mismatch) :
    Ensures (firstOf empty best [] : Matcher β) s ok failed cut ↔
      failed (best.getD empty) s := Iff.rfl

theorem ensures_firstOf_cons (empty : Mismatch) (best : Option Mismatch) (m : Matcher β)
    (ms : List (Matcher β)) :
    Ensures (firstOf empty best (m :: ms)) s ok failed cut ↔
      Ensures m s ok (fun x t =>
        Ensures (firstOf empty (some (x.mergeInto best)) ms) (t.backAt s.cursor.pos)
          ok failed cut) cut := by
  rw [firstOf, ensures_bind, ensures_probe]
  rfl

/-! The results of alternatives and of a repetition, by the result of the first match. -/

theorem run_firstOf_cons (empty : Mismatch) (best : Option Mismatch) (m : Matcher β)
    (ms : List (Matcher β)) :
    EStateM.run (firstOf empty best (m :: ms)) s =
      match EStateM.run m s with
      | .ok a t => .ok a t
      | .error (.mismatch x) t =>
        EStateM.run (firstOf empty (some (x.mergeInto best)) ms) (t.backAt s.cursor.pos)
      | .error interrupt t => .error interrupt t := by
  rw [firstOf, EStateM.run_bind, run_probe]
  cases EStateM.run m s with
  | ok a t => rfl
  | error interrupt t => cases interrupt <;> rfl

theorem run_many (idle : Nat → Event) (m : Matcher Value) (before : List Value) :
    EStateM.run (many idle m before) s =
      match EStateM.run m s with
      | .ok value t =>
        if t.cursor.remaining.length < s.cursor.remaining.length then
          EStateM.run (many idle m (before ++ [value])) t
        else .ok (before ++ [value]) { t with events := t.events.push (idle s.cursor.pos) }
      | .error (.mismatch _) t => .ok before (t.backAt s.cursor.pos)
      | .error interrupt t => .error interrupt t := by
  rw [many, run_iterate, EStateM.run_bind, run_probe]
  cases EStateM.run m s with
  | ok value t => rfl
  | error interrupt t => cases interrupt <;> rfl

end Equations

/-! ## Repetition -/

section Repetition

variable {idle : Nat → Event} {step : α → Matcher (Option α)} {ok : α → MatchState → Prop}

theorem ensures_iterate (a : α) :
    Ensures (iterate idle step a) s ok failed cut ↔
      Ensures (step a) s (fun next t =>
        match next with
        | none => ok a t
        | some b =>
          if t.cursor.remaining.length < s.cursor.remaining.length then
            Ensures (iterate idle step b) t ok failed cut
          else ok b { t with events := t.events.push (idle s.cursor.pos) }) failed cut := by
  unfold Ensures
  rw [run_iterate]
  cases EStateM.run (step a) s with
  | error interrupt t => cases interrupt <;> rfl
  | ok next t =>
    cases next with
    | none => rfl
    | some b =>
      by_cases hless : t.cursor.remaining.length < s.cursor.remaining.length
      · simp only [if_pos hless]
      · simp only [if_neg hless]

/-- A repetition by an invariant: what holds before each step, and is enough
where a step has no next result or takes no input. -/
theorem Ensures.iterate (inv : α → MatchState → Prop)
    (hstep : ∀ a t, inv a t → Ensures (step a) t (fun next u =>
      match next with
      | none => ok a u
      | some b =>
        if u.cursor.remaining.length < t.cursor.remaining.length then inv b u
        else ok b { u with events := u.events.push (idle t.cursor.pos) }) failed cut)
    {a : α} (h : inv a s) : Ensures (iterate idle step a) s ok failed cut := by
  -- each step that goes on leaves less input
  generalize hn : s.cursor.remaining.length = n
  induction n using Nat.strongRecOn generalizing s a with
  | ind n ih =>
    rw [ensures_iterate]
    apply (hstep a s h).imp_ok
    intro next t hnext
    cases next with
    | none => exact hnext
    | some b =>
      dsimp only at hnext ⊢
      split
      · next hless =>
        rw [if_pos hless] at hnext
        exact ih _ (by omega) hnext rfl
      · next hnot =>
        rw [if_neg hnot] at hnext
        exact hnext

/-- The invariant rule for a repeated body. -/
theorem Ensures.many {m : Matcher Value} {ok : List Value → MatchState → Prop}
    (inv : List Value → MatchState → Prop)
    (hbody : ∀ values t, inv values t → Ensures m t (fun value u =>
        if u.cursor.remaining.length < t.cursor.remaining.length then inv (values ++ [value]) u
        else ok (values ++ [value]) { u with events := u.events.push (idle t.cursor.pos) })
      (fun _ u => ok values (u.backAt t.cursor.pos)) cut)
    {values : List Value} (h : inv values s) :
    Ensures (many idle m values) s ok failed cut := by
  refine Ensures.iterate inv ?_ h
  intro values t hinv
  rw [ensures_bind, ensures_probe]
  exact hbody values t hinv

end Repetition

end Matcher
end Peg
