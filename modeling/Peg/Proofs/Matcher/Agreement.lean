import Peg.Proofs.Matcher.Counterparts

/-!
Two runs of one matcher. A run may start with other events behind it, or with a
cursor that once got further, and calls may be allowed to nest deeper: what it
comes to is the same, as long as the first of the two runs does not need deeper
calls than it may make. Whatever relation between states is kept by all single
steps is kept by the runs: it ties them to one another as a correspondence does in
which all else is the same.
-/

namespace Peg

/-- A relation between states that agree on all that a matcher can see, kept by
all that a matcher can do. -/
structure Congruence (R : MatchState → MatchState → Prop) : Prop where
  input_eq : ∀ {s s' : MatchState}, R s s' → s.cursor.input = s'.cursor.input
  pos_eq : ∀ {s s' : MatchState}, R s s' → s.cursor.pos = s'.cursor.pos
  scope_eq : ∀ {s s' : MatchState}, R s s' → s.scope = s'.scope
  jump : ∀ {s s' : MatchState}, R s s' → ∀ {u u' : MatchState}, R u u' →
    R (s.backAt u.cursor.pos) (s'.backAt u.cursor.pos)
  advance : ∀ {s s' : MatchState}, R s s' → ∀ size ≤ s.cursor.remaining.length,
    R { s with cursor := s.cursor.advance size } { s' with cursor := s'.cursor.advance size }
  setScope : ∀ {s s' : MatchState}, R s s' → ∀ scope, R { s with scope } { s' with scope }
  push : ∀ {s s' : MatchState}, R s s' → ∀ event,
    R { s with events := s.events.push event } { s' with events := s'.events.push event }

namespace Congruence

/-- Being the same state is a congruence. -/
theorem eq : Congruence Eq where
  input_eq h := by rw [h]
  pos_eq h := by rw [h]
  scope_eq h := by rw [h]
  jump h _ _ _ := by rw [h]
  advance h _ _ := by rw [h]
  setScope h _ := by rw [h]
  push h _ := by rw [h]

end Congruence

/-- The states have the same input, position and scope; how far the cursor once
was and what happened before may differ. -/
structure SameView (s s' : MatchState) : Prop where
  input_eq : s.cursor.input = s'.cursor.input
  pos_eq : s.cursor.pos = s'.cursor.pos
  scope_eq : s.scope = s'.scope

/-- Before anything has happened at a position of an input. -/
def MatchState.fresh (input : Bytes) (pos : Nat) : MatchState :=
  ⟨⟨input, pos, 0⟩, .empty, #[]⟩

theorem SameView.congruence : Congruence SameView where
  input_eq h := h.input_eq
  pos_eq h := h.pos_eq
  scope_eq h := h.scope_eq
  jump h _ _ _ := ⟨h.input_eq, rfl, h.scope_eq⟩
  advance h size _ := ⟨h.input_eq, congrArg (· + size) h.pos_eq, h.scope_eq⟩
  setScope h _ := ⟨h.input_eq, h.pos_eq, rfl⟩
  push h _ := ⟨h.input_eq, h.pos_eq, h.scope_eq⟩

namespace Matcher

/-- Two results are the same up to `R`, unless the first run was cut short
because calls nested too deep. -/
inductive Agree {α : Type} (R : MatchState → MatchState → Prop) :
    EStateM.Result Interrupt MatchState α → EStateM.Result Interrupt MatchState α → Prop
  | ok (a : α) {t t' : MatchState} (h : R t t') : Agree R (.ok a t) (.ok a t')
  | error (interrupt : Interrupt) {t t' : MatchState} (h : R t t') :
    Agree R (.error interrupt t) (.error interrupt t')
  | exhausted (t : MatchState) (result : EStateM.Result Interrupt MatchState α) :
    Agree R (.error .exhausted t) result

theorem Agree.eq_of_ne {α : Type} {result result' : EStateM.Result Interrupt MatchState α}
    (h : Agree Eq result result') (hne : ∀ t, result ≠ .error .exhausted t) :
    result' = result := by
  cases h with
  | ok a ht => rw [ht]
  | error interrupt ht => rw [ht]
  | exhausted t _ => exact absurd rfl (hne t)

/-- From related states the runs of `m` and `m'` agree. -/
def Refines {α : Type} (R : MatchState → MatchState → Prop) (m m' : Matcher α) : Prop :=
  ∀ s s' : MatchState, R s s' → Agree R (EStateM.run m s) (EStateM.run m' s')

section Refinement

variable {α : Type} {R : MatchState → MatchState → Prop} {m m' : Matcher α}
  {s s' t : MatchState}

/-- The ways in which two runs from related states can end. -/
theorem Refines.cases (h : Refines R m m') (hs : R s s') :
    (∃ a t t', EStateM.run m s = .ok a t ∧ EStateM.run m' s' = .ok a t' ∧ R t t') ∨
    (∃ interrupt t t', EStateM.run m s = .error interrupt t ∧
      EStateM.run m' s' = .error interrupt t' ∧ R t t') ∨
    ∃ t, EStateM.run m s = .error .exhausted t := by
  have hagree := h s s' hs
  generalize EStateM.run m s = result at hagree ⊢
  generalize EStateM.run m' s' = result' at hagree ⊢
  cases hagree with
  | ok a ht => exact Or.inl ⟨a, _, _, rfl, rfl, ht⟩
  | error interrupt ht => exact Or.inr (Or.inl ⟨interrupt, _, _, rfl, rfl, ht⟩)
  | exhausted t _ => exact Or.inr (Or.inr ⟨t, rfl⟩)

theorem Refines.run_ok (h : Refines R m m') (hs : R s s') {a : α}
    (hrun : EStateM.run m s = .ok a t) : ∃ t', EStateM.run m' s' = .ok a t' ∧ R t t' := by
  rcases h.cases hs with ⟨b, u, u', hu, hu', hR⟩ | ⟨interrupt, u, u', hu, -, -⟩ | ⟨u, hu⟩
  · rw [hrun] at hu
    obtain ⟨rfl, rfl⟩ := EStateM.Result.ok.inj hu
    exact ⟨u', hu', hR⟩
  · rw [hrun] at hu
    cases hu
  · rw [hrun] at hu
    cases hu

theorem Refines.run_mismatch (h : Refines R m m') (hs : R s s') {x : Mismatch}
    (hrun : EStateM.run m s = .error (.mismatch x) t) :
    ∃ t', EStateM.run m' s' = .error (.mismatch x) t' ∧ R t t' := by
  rcases h.cases hs with ⟨b, u, u', hu, -, -⟩ | ⟨interrupt, u, u', hu, hu', hR⟩ | ⟨u, hu⟩
  · rw [hrun] at hu
    cases hu
  · rw [hrun] at hu
    obtain ⟨rfl, rfl⟩ := EStateM.Result.error.inj hu
    exact ⟨u', hu', hR⟩
  · rw [hrun] at hu
    cases hu

theorem refines_throw (interrupt : Interrupt) :
    Refines R (throw interrupt : Matcher α) (throw interrupt) :=
  fun _ _ h => .error interrupt h

end Refinement

end Matcher

/-! ## Agreement as a correspondence -/

namespace Congruence

open Matcher

variable {R : MatchState → MatchState → Prop} {α : Type} {m m' : Matcher α}
  {visible : List String}

theorem iff_unscoped (hR : Congruence R) {s s' : MatchState} :
    R s s' ↔ R { s with scope := .empty } { s' with scope := .empty } ∧ s.scope = s'.scope := by
  constructor
  · exact fun h => ⟨hR.setScope h .empty, hR.scope_eq h⟩
  · rintro ⟨h, hscope⟩
    obtain ⟨cursor, scope, events⟩ := s
    obtain ⟨cursor', scope', events'⟩ := s'
    obtain rfl : scope = scope' := hscope
    exact hR.setScope h scope

theorem lockstep (hR : Congruence R) :
    Lockstep Eq fun s s' => R { s with scope := .empty } { s' with scope := .empty } where
  input_eq h := (hR.input_eq h :)
  pos_eq h := (hR.pos_eq h :)
  setScope h _ _ := h
  jump h u _ hu := hR.jump h (u := { u with scope := .empty }) hu
  advance h size hsize := hR.advance h size hsize
  push h event := hR.push h event
  pushIdle h _ _ hnode pos := hnode ▸ hR.push h (.idleBody _ pos)

/-- All is the same but for what the congruence leaves open, and calls of the second run
may nest deeper. -/
def correspondence (hR : Congruence R) : Correspondence where
  node := Eq
  handle := Eq
  view s s' := R { s with scope := .empty } { s' with scope := .empty }
  exact := True
  confined := False
  cutsFirst interrupt := interrupt = .exhausted
  cutsSecond _ := False
  node_refl _ := rfl
  lockstep := hR.lockstep
  mismatch_not_cut _ := ⟨by rintro ⟨⟩, id⟩
  fault_cut h _ := absurd trivial h

theorem states_iff (hR : Congruence R) {s s' : MatchState} :
    hR.correspondence.States visible s s' ↔ R s s' := by
  rw [hR.iff_unscoped]
  constructor
  · exact fun h => ⟨h.view, h.scopes.same trivial⟩
  · exact fun h => ⟨h.1, fun _ => h.2, False.elim⟩

theorem refines_iff_coupled (hR : Congruence R) :
    Refines R m m' ↔ Coupled hR.correspondence visible hR.correspondence.Same m m' := by
  constructor
  · intro h s s' hs
    have hagree := h s s' (hR.states_iff.mp hs)
    generalize EStateM.run m s = result at hagree ⊢
    generalize EStateM.run m' s' = result' at hagree ⊢
    cases hagree with
    | ok a ht => exact .ok (fun _ => rfl) (hR.states_iff.mpr ht)
    | error interrupt ht =>
      refine .error ?_ (hR.states_iff.mpr ht)
      cases interrupt with
      | mismatch x => exact .mismatch (.refl x)
      | fault fault => exact .fault fault
      | exhausted => exact .exhausted
    | exhausted t _ => exact .cutFirst rfl t _
  · intro h s s' hs
    have hresults := h s s' (hR.states_iff.mpr hs)
    generalize EStateM.run m s = result at hresults ⊢
    generalize EStateM.run m' s' = result' at hresults ⊢
    cases hresults with
    | ok ha ht =>
      obtain rfl := ha trivial
      exact .ok _ (hR.states_iff.mp ht)
    | error hinterrupt ht =>
      cases hinterrupt with
      | @mismatch x x' hx =>
        obtain ⟨expr, pos⟩ := x
        obtain ⟨rfl, rfl⟩ := hx
        exact .error _ (hR.states_iff.mp ht)
      | fault fault => exact .error _ (hR.states_iff.mp ht)
      | exhausted => exact .error _ (hR.states_iff.mp ht)
    | cutFirst hcut t _ =>
      obtain rfl := hcut
      exact .exhausted t _
    | cutSecond hcut => exact hcut.elim

end Congruence

section Evaluation

open Matcher

variable {R : MatchState → MatchState → Prop} {call call' : Nat → Matcher Value}

theorem coupled_of_refines (hR : Congruence R)
    (hcall : ∀ handle, Refines R (call handle) (call' handle)) :
    ∀ h h', h = h' → ∀ names, Coupled hR.correspondence names hR.correspondence.Same
      (call h) (call' h') := by
  rintro handle _ rfl names
  exact hR.refines_iff_coupled.mp (hcall handle)

theorem Expr.eval_refines (hR : Congruence R)
    (hcall : ∀ handle, Refines R (call handle) (call' handle)) (e : Expr) :
    Refines R (e.eval call) (e.eval call') := by
  have he : e.Counterpart hR.correspondence [] e := .refl (fun _ => rfl) False.elim
  exact hR.refines_iff_coupled.mpr (he.eval_coupled (coupled_of_refines hR hcall))

theorem OperatorLevel.firstOperator_refines {α : Type} (hR : Congruence R)
    (hcall : ∀ handle, Refines R (call handle) (call' handle)) (operators : List (Expr × α)) :
    Refines R (firstOperator call operators) (firstOperator call' operators) := by
  have hops : hR.correspondence.Operators [] id operators operators :=
    List.forall₂_same.mpr fun op _ => ⟨.refl (fun _ => rfl) False.elim, fun _ => rfl⟩
  have hcoupled := firstOperator_coupled (coupled_of_refines hR hcall) hops
  refine hR.refines_iff_coupled.mpr (hcoupled.imp fun found found' hfound _ => ?_)
  cases hfound with
  | none => rfl
  | some h => exact congrArg some (Prod.ext (h.1 trivial) (h.2 trivial))

theorem rules_refl (hR : Congruence R) (rules : List Rule) :
    hR.correspondence.Rules rules rules := by
  apply Correspondence.Rules.of_map id (rfl : rules.map id = rules.map id)
  rintro rule _ rfl
  exact .refl (fun _ => rfl) rule

/-- A call that may nest deeper comes to the same. -/
theorem callRule_refines (hR : Congruence R) (rules : List Rule) {depth depth' : Nat}
    (hle : depth ≤ depth') (handle : Nat) :
    Refines R (callRule rules depth handle) (callRule rules depth' handle) := by
  have hdepth : hR.correspondence.Depths depth depth' :=
    ⟨fun _ => rfl, fun hlt => absurd hlt (Nat.not_lt_of_le hle)⟩
  have hcoupled : Coupled hR.correspondence [] hR.correspondence.Same
      (callRule rules depth handle) (callRule rules depth' handle) :=
    callRule_coupled (rules_refl hR rules) hdepth rfl
  exact hR.refines_iff_coupled.mpr hcoupled

/-- What is known of calls carries over to calls that make them. -/
theorem callRule_succ_refines (hR : Congruence R) {rules : List Rule} {depth depth' : Nat}
    (hcall : ∀ handle, Refines R (callRule rules depth handle) (callRule rules depth' handle))
    (handle : Nat) :
    Refines R (callRule rules (depth + 1) handle) (callRule rules (depth' + 1) handle) := by
  have hcoupled : Coupled hR.correspondence [] hR.correspondence.Same
      (callRule rules (depth + 1) handle) (callRule rules (depth' + 1) handle) :=
    callRule_succ_coupled (rules_refl hR rules) (coupled_of_refines hR hcall) rfl
  exact hR.refines_iff_coupled.mpr hcoupled

end Evaluation

end Peg
