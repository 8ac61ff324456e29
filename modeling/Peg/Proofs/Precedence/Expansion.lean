import Peg.Proofs.LeftCalls
import Peg.Proofs.Outcomes
import Peg.Proofs.Precedence.Scopes

/-!
Levels written without levels. What a level of operators recognises can be said with
sequences, choices, repetitions and lookahead, and references to the level and to its operand.
A level never takes back an operator that it has found, where a choice or a repetition would;
so the expressions look for the operators once more, before they go on without them.
-/

namespace Peg

open Matcher OperatorLevel

namespace OperatorLevel

/-- The level as an expression, from references to the level itself and to its operand. -/
def expansion (self operand : Expr) (level : OperatorLevel) : Expr :=
  let operator : Expr := .choice level.exprs
  match level with
  | prefixOps _ => .choice [.seq [operator, self], .seq [.notAhead operator, operand]]
  | postfixOps _ => .seq [operand, .star operator]
  | leftAssoc _ => .seq [operand, .star (.seq [operator, operand]), .notAhead operator]
  | rightAssoc _ => .seq [operand, .choice [.seq [operator, self], .notAhead operator]]

end OperatorLevel

/-! ## Ends of branches and loops -/

namespace Outcomes

variable {R S T : Outcomes} {pos mid : Nat} {stop? : Option Nat}

/-- Where the guard of a branch matches, no other branch may. -/
theorem guarded_of_found (h : R pos (some mid)) (hS : S mid stop?) (hT : T pos none) :
    firstOf [inTurn [R, S], T] pos stop? := by
  have hbranch : inTurn [R, S] pos stop? := inTurn_pair_iff.mpr (Or.inr ⟨mid, h, hS⟩)
  cases stop? with
  | some stop => exact firstOf_pair_iff.mpr (Or.inl ⟨stop, hbranch, rfl⟩)
  | none => exact firstOf_pair_iff.mpr (Or.inr ⟨hbranch, hT⟩)

theorem guarded_of_not_found (h : R pos none) (hT : T pos stop?) :
    firstOf [inTurn [R, S], T] pos stop? :=
  firstOf_pair_iff.mpr (Or.inr ⟨inTurn_pair_iff.mpr (Or.inl ⟨h, rfl⟩), hT⟩)

theorem notAhead_none (h : R pos (some mid)) : R.notAhead pos none :=
  Or.inr ⟨mid, h, rfl⟩

theorem inTurn_notAhead_of_found (h : R pos (some mid)) : inTurn [R.notAhead, T] pos none :=
  inTurn_pair_iff.mpr (Or.inl ⟨notAhead_none h, rfl⟩)

theorem inTurn_notAhead_of_not_found (h : R pos none) (hT : T pos stop?) :
    inTurn [R.notAhead, T] pos stop? :=
  inTurn_pair_iff.mpr (Or.inr ⟨pos, Or.inl ⟨h, rfl⟩, hT⟩)

/-- What stands behind a repetition begins where the body fails. -/
theorem inTurn_star_of_fail (h : R pos none) (hT : T pos stop?) : inTurn [R.star, T] pos stop? :=
  inTurn_pair_iff.mpr (Or.inr ⟨pos, ⟨pos, .fail h, rfl⟩, hT⟩)

theorem inTurn_star_of_step (h : R pos (some mid)) (hne : mid ≠ pos)
    (hagain : inTurn [R.star, T] mid stop?) : inTurn [R.star, T] pos stop? := by
  rcases inTurn_pair_iff.mp hagain with ⟨⟨_, -, hfail⟩, -⟩ | ⟨stop, ⟨_, hrepeated, hstop⟩, hT⟩
  · cases hfail
  · exact inTurn_pair_iff.mpr (Or.inr ⟨stop, ⟨_, .step h hne hrepeated, hstop⟩, hT⟩)

end Outcomes

/-! ## Levels -/

/-- From the cursor on, no operator of the level matches together with an operand behind it
without taking some of the input. -/
def PairsTake (rules : List Rule) (level : OperatorLevel) (operand : Expr) (cursor : Cursor) :
    Prop :=
  ∀ depth t, t.cursor.input = cursor.input → cursor.pos ≤ t.cursor.pos →
    t.cursor.pos ≤ t.cursor.input.length →
    ¬ EndsAt ((Expr.seq [.choice level.exprs, operand]).eval (callRule rules depth)) t
      (some t.cursor.pos)

/-- It is enough that the pair is not one that may match nothing. -/
theorem pairsTake_of_not_nullable {rules : List Rule} {marked : Nat → Bool}
    (hclosed : MarkingClosed rules marked) {level : OperatorLevel} {operand : Expr}
    (h : (Expr.seq [.choice level.exprs, operand]).nullable marked = false) (cursor : Cursor) :
    PairsTake rules level operand cursor := by
  rintro depth t - - ht ⟨v, u, hrun, hpos⟩
  have hcall (handle : Nat) : Foreseen (callRule rules depth handle) (marked handle) :=
    (callRule_foreseen hclosed depth handle).imp hclosed.of_ruleNullable
  have hmoves := (Expr.eval_foreseen hcall (callRule_inBounds rules depth)
    (.seq [.choice level.exprs, operand]) t ht).of_ok hrun
  rw [hmoves.foreseen hpos] at h
  cases h

namespace OperatorLevel

variable {α : Type} {call : Nat → Matcher Value} {calls : Nat → Outcomes} {input : Bytes}
  {self operand : Matcher Value} {S T : Outcomes}

/-- What becomes of the search for one of the operators, as one expression. -/
abbrev operatorOutcomes (calls : Nat → Outcomes) (input : Bytes) (operators : List (Expr × α)) :
    Outcomes :=
  (Expr.choice (operators.map Prod.fst)).outcomes calls input

theorem firstOperator_yields (hcall : ∀ handle, Yields input (call handle) (calls handle))
    {operators : List (Expr × α)} {s : MatchState} (hinput : s.cursor.input = input)
    (hs : s.cursor.pos ≤ input.length) :
    Ensures (firstOperator call operators) s
      (fun found t => s.cursor.Advances t.cursor ∧ Found found
        (fun _ _ => operatorOutcomes calls input operators s.cursor.pos (some t.cursor.pos))
        (t.cursor.pos = s.cursor.pos ∧ operatorOutcomes calls input operators s.cursor.pos none))
      (fun _ _ => False) (fun _ => True) := by
  induction operators generalizing s with
  | nil => exact ⟨Cursor.Advances.refl (hinput ▸ hs), rfl, rfl⟩
  | cons operator rest ih =>
    obtain ⟨e, a⟩ := operator
    rw [firstOperator, ensures_bind, ensures_probe]
    apply (eval_yields hcall e s hinput hs).mono
    · exact fun op t ht => ⟨ht.1, Or.inl ⟨_, ht.2, rfl⟩⟩
    · intro x t ht
      have hback := ht.1.jump
      apply (ih (s := t.backAt s.cursor.pos) (hback.stays_in hinput).1 hs).imp_ok
      rintro found u ⟨hu, hfound⟩
      exact ⟨hback.trans hu, hfound.imp (fun _ _ hop => Or.inr ⟨ht.2, hop⟩)
        fun hnone => ⟨hnone.1, Or.inr ⟨ht.2, hnone.2⟩⟩⟩

theorem prefixOps_yields (hcall : ∀ handle, Yields input (call handle) (calls handle))
    (hself : Yields input self S) (hoperand : Yields input operand T)
    (operators : List (Expr × UnaryAction)) :
    let R := operatorOutcomes calls input operators
    Yields input ((prefixOps operators).eval call self operand)
      (.firstOf [.inTurn [R, S], .inTurn [R.notAhead, T]]) := by
  intro R s hinput hs
  apply ensures_prefixOps
  apply (firstOperator_yields hcall (s := { s with scope := .empty }) hinput hs).imp_total
  rintro found t ⟨ht, hfound⟩
  obtain ⟨hinput', ht'⟩ := ht.stays_in hinput
  refine hfound.imp (fun op a hop => ?_) ?_
  · have hends {stop? : Option Nat} (h : S t.cursor.pos stop?) :
        Outcomes.firstOf [.inTurn [R, S], .inTurn [R.notAhead, T]] s.cursor.pos stop? :=
      Outcomes.guarded_of_found hop h (Outcomes.inTurn_notAhead_of_found hop)
    apply (hself { t with scope := s.scope } hinput' ht').mono
    · intro x u hu
      exact Settled.intro (fun y _ => ⟨ht.trans hu.1, hends hu.2⟩) fun _ => trivial
    · exact fun x u hu => ⟨ht.trans hu.1, hends hu.2⟩
  · rintro ⟨hpos, hnone⟩
    have hends {stop? : Option Nat} (h : T t.cursor.pos stop?) :
        Outcomes.firstOf [.inTurn [R, S], .inTurn [R.notAhead, T]] s.cursor.pos stop? :=
      Outcomes.guarded_of_not_found hnone
        (Outcomes.inTurn_notAhead_of_not_found hnone (hpos ▸ h))
    apply (hoperand { t with scope := s.scope } hinput' ht').mono
    · exact fun x u hu => ⟨ht.trans hu.1, hends hu.2⟩
    · exact fun x u hu => ⟨ht.trans hu.1, hends hu.2⟩

theorem rightAssoc_yields (hcall : ∀ handle, Yields input (call handle) (calls handle))
    (hself : Yields input self S) (hoperand : Yields input operand T)
    (operators : List (Expr × BinaryAction)) :
    let R := operatorOutcomes calls input operators
    Yields input ((rightAssoc operators).eval call self operand)
      (.inTurn [T, .firstOf [.inTurn [R, S], R.notAhead]]) := by
  intro R s hinput hs
  apply ensures_rightAssoc
  apply (hoperand s hinput hs).mono
  · intro left t ⟨ht, hleft⟩
    have hbehind {stop? : Option Nat}
        (h : Outcomes.firstOf [.inTurn [R, S], R.notAhead] t.cursor.pos stop?) :
        Outcomes.inTurn [T, .firstOf [.inTurn [R, S], R.notAhead]] s.cursor.pos stop? :=
      Outcomes.inTurn_pair_iff.mpr (Or.inr ⟨_, hleft, h⟩)
    obtain ⟨hinput', ht'⟩ := ht.stays_in hinput
    apply (firstOperator_yields hcall (s := { t with scope := .empty }) hinput' ht').imp_total
    rintro found u ⟨hu, hfound⟩
    have htu := ht.trans hu
    obtain ⟨hinput'', hu'⟩ := htu.stays_in hinput
    refine hfound.imp (fun op a hop => ?_) ?_
    · have hends {stop? : Option Nat} (h : S u.cursor.pos stop?) :
          Outcomes.inTurn [T, .firstOf [.inTurn [R, S], R.notAhead]] s.cursor.pos stop? :=
        hbehind (Outcomes.guarded_of_found hop h (Outcomes.notAhead_none hop))
      apply (hself { u with scope := t.scope } hinput'' hu').mono
      · intro right w hw
        exact Settled.intro (fun y _ => ⟨htu.trans hw.1, hends hw.2⟩) fun _ => trivial
      · exact fun x w hw => ⟨htu.trans hw.1, hends hw.2⟩
    · rintro ⟨hpos, hnone⟩
      refine ⟨htu, hbehind (Outcomes.guarded_of_not_found hnone ?_)⟩
      exact Or.inl ⟨hnone, congrArg some hpos⟩
  · exact fun x t ht => ⟨ht.1, Outcomes.inTurn_pair_iff.mpr (Or.inl ⟨ht.2, rfl⟩)⟩

/-- The loop has come as far as a repetition of the operators has. Both end with an operator
that takes nothing. -/
theorem postfixOps_yields (hcall : ∀ handle, Yields input (call handle) (calls handle))
    (hoperand : Yields input operand T) (operators : List (Expr × UnaryAction)) :
    let R := operatorOutcomes calls input operators
    Yields input ((postfixOps operators).eval call self operand) (.inTurn [T, R.star]) := by
  intro R s hinput hs
  apply ensures_postfixOps fun _ t => s.cursor.Advances t.cursor ∧
    ∀ stop, R.Repeated t.cursor.pos stop →
      Outcomes.inTurn [T, R.star] s.cursor.pos (some stop)
  · apply (hoperand s hinput hs).mono
    · rintro x t ⟨ht, hx⟩
      exact ⟨ht, fun stop hstop => Outcomes.inTurn_pair_iff.mpr
        (Or.inr ⟨_, hx, stop, hstop, rfl⟩)⟩
    · exact fun x t ht => ⟨ht.1, Outcomes.inTurn_pair_iff.mpr (Or.inl ⟨ht.2, rfl⟩)⟩
  rintro x t ⟨ht, hends⟩
  obtain ⟨hinput', ht'⟩ := ht.stays_in hinput
  apply (firstOperator_yields hcall (s := { t with scope := .empty }) hinput' ht').imp_total
  rintro found u ⟨hu, hfound⟩
  refine hfound.imp (fun op a hop => ?_) ?_
  · refine Settled.intro (fun y _ => ?_) fun _ => trivial
    split
    · next hless =>
      have hne : u.cursor.pos ≠ t.cursor.pos := hu.pos_ne_of_remaining_lt hless
      exact ⟨ht.trans hu, fun stop hstop => hends stop (.step hop hne hstop)⟩
    · next hidle =>
      have heq : u.cursor.pos = t.cursor.pos := hu.pos_eq_of_idle hidle
      refine ⟨ht.trans hu, ?_⟩
      dsimp only at hop ⊢
      rw [heq] at hop ⊢
      exact hends _ (.idle hop)
  · rintro ⟨hpos, hnone⟩
    refine ⟨ht.trans hu, ?_⟩
    dsimp only at hpos ⊢
    rw [hpos]
    exact hends _ (.fail hnone)

/-- The loop has come as far as a repetition of operators with operands behind them has. Only
where such a pair takes nothing does the loop end and the repetition stand before an operator. -/
theorem leftAssoc_yields (hcall : ∀ handle, Yields input (call handle) (calls handle))
    (hoperand : Yields input operand T) {operators : List (Expr × BinaryAction)} {s : MatchState}
    (hinput : s.cursor.input = input) (hs : s.cursor.pos ≤ input.length)
    (hpairs : ∀ t : MatchState, s.cursor.Advances t.cursor → ∀ found u right w,
      EStateM.run (firstOperator call operators) { t with scope := .empty } = .ok (some found) u →
      EStateM.run operand { u with scope := t.scope } = .ok right w →
      w.cursor.pos ≠ t.cursor.pos) :
    let R := operatorOutcomes calls input operators
    Ensures ((leftAssoc operators).eval call self operand) s
      (fun _ t => s.cursor.Advances t.cursor ∧
        Outcomes.inTurn [T, .star (.inTurn [R, T]), R.notAhead] s.cursor.pos (some t.cursor.pos))
      (fun _ t => s.cursor.Advances t.cursor ∧
        Outcomes.inTurn [T, .star (.inTurn [R, T]), R.notAhead] s.cursor.pos none)
      (fun _ => True) := by
  intro R
  apply ensures_leftAssoc fun _ t => s.cursor.Advances t.cursor ∧
    ∀ stop?, Outcomes.inTurn [.star (.inTurn [R, T]), R.notAhead] t.cursor.pos stop? →
      Outcomes.inTurn [T, .star (.inTurn [R, T]), R.notAhead] s.cursor.pos stop?
  · apply (hoperand s hinput hs).mono
    · exact fun left t ht => ⟨ht.1, fun stop? hstop => Or.inr ⟨_, ht.2, hstop⟩⟩
    · exact fun x t ht => ⟨ht.1, Or.inl ⟨ht.2, rfl⟩⟩
  rintro left t ⟨ht, hends⟩
  obtain ⟨hinput', ht'⟩ := ht.stays_in hinput
  apply ((firstOperator_yields hcall (s := { t with scope := .empty }) hinput' ht').also
    (.run_eq _ _)).mono _ fun _ _ hx => hx.1.elim
  rintro found u ⟨⟨hu, hfound⟩, hrun⟩
  have htu := ht.trans hu
  obtain ⟨hinput'', hu'⟩ := htu.stays_in hinput
  match found with
  | some (op, a) =>
    apply ((hoperand { u with scope := t.scope } hinput'' hu').also (.run_eq _ _)).mono
    · rintro right w ⟨⟨hw, hright⟩, hrun'⟩
      refine Settled.intro (fun y _ => ?_) fun _ => trivial
      have hne : w.cursor.pos ≠ t.cursor.pos := hpairs t ht _ _ _ _ hrun hrun'
      have hpair : Outcomes.inTurn [R, T] t.cursor.pos (some w.cursor.pos) :=
        Outcomes.inTurn_pair_iff.mpr (Or.inr ⟨_, hfound, hright⟩)
      rw [if_pos ((hu.trans hw).remaining_lt hne)]
      exact ⟨htu.trans hw, fun stop? hstop =>
        hends stop? (Outcomes.inTurn_star_of_step hpair hne hstop)⟩
    -- the level fails for want of an operand; the repetition ends in front of the operator,
    -- and there it is seen once more
    · rintro x w ⟨⟨hw, hfails⟩, -⟩
      have hpair : Outcomes.inTurn [R, T] t.cursor.pos none :=
        Outcomes.inTurn_pair_iff.mpr (Or.inr ⟨_, hfound, hfails⟩)
      exact ⟨htu.trans hw, hends none
        (Outcomes.inTurn_star_of_fail hpair (Outcomes.notAhead_none hfound))⟩
  | none =>
    obtain ⟨hpos, hnone⟩ := hfound
    have hpair : Outcomes.inTurn [R, T] t.cursor.pos none :=
      Outcomes.inTurn_pair_iff.mpr (Or.inl ⟨hnone, rfl⟩)
    exact ⟨htu, hends _ (Outcomes.inTurn_star_of_fail hpair
      (Or.inl ⟨hnone, congrArg some hpos⟩))⟩

/-- The operator that is found is what the choice among the operators matches. -/
theorem run_firstOf_of_firstOperator {operators : List (Expr × α)} {s t : MatchState} {v : Value}
    {a : α} {empty : Mismatch} {best : Option Mismatch}
    (h : EStateM.run (firstOperator call operators) s = .ok (some (v, a)) t) :
    EStateM.run (firstOf empty best (Expr.evalEach call (operators.map Prod.fst))) s =
      .ok v t := by
  induction operators generalizing s best with
  | nil => cases h
  | cons operator rest ih =>
    obtain ⟨e, b⟩ := operator
    rw [run_firstOperator_cons] at h
    rw [List.map_cons, Expr.evalEach, firstOf, EStateM.run_bind, run_probe]
    split at h
    · next w u hrun =>
      cases h
      rw [hrun]
      rfl
    · next x u hrun =>
      rw [hrun]
      exact ih h
    · cases h

end OperatorLevel

section Calls

variable {rules : List Rule} {operand : Nat} {operandName : String}

/-- An operator that is found and an operand behind it are matched by the two in sequence. -/
theorem endsAt_pair {α : Type} {operators : List (Expr × α)} {depth : Nat} {s u w : MatchState}
    {found : Value × α} {scope : Captures} {right : Value}
    (hfound : EStateM.run (firstOperator (callRule rules depth) operators) s = .ok (some found) u)
    (hright : EStateM.run (callRule rules depth operand) { u with scope } = .ok right w) :
    EndsAt ((Expr.seq [.choice (operators.map Prod.fst), .rule ⟨operandName, some operand⟩]).eval
      (callRule rules depth)) s (some w.cursor.pos) := by
  have hcall : EndsAt (callRule rules depth operand) { u with scope } (some w.cursor.pos) :=
    ⟨right, w, hright, rfl⟩
  have hcall' := endsAt_iff_ensures.mp (hcall.inScope u.scope)
  rw [endsAt_iff_ensures, Expr.ensures_seq, Expr.ensures_evalParts_cons, Expr.ensures_choice]
  refine Ensures.of_run_ok (run_firstOf_of_firstOperator hfound) ?_
  rw [Expr.ensures_evalParts_cons, Expr.ensures_rule]
  exact hcall'

/-- A level comes to an outcome of the expansion. -/
theorem ensures_eval_expansion {self : Nat} {name : String} {level : OperatorLevel}
    {s : MatchState} (hs : s.cursor.pos ≤ s.cursor.input.length)
    (htake : ∀ operators, level = .leftAssoc operators →
      PairsTake rules level (.rule ⟨operandName, some operand⟩) s.cursor) (depth : Nat) :
    let R := (level.expansion (.rule ⟨name, some self⟩)
      (.rule ⟨operandName, some operand⟩)).outcomes (callOutcomes rules s.cursor.input)
      s.cursor.input
    Ensures (level.eval (callRule rules depth) (callRule rules depth self)
        (callRule rules depth operand)) s
      (fun _ t => s.cursor.Advances t.cursor ∧ R s.cursor.pos (some t.cursor.pos))
      (fun _ t => s.cursor.Advances t.cursor ∧ R s.cursor.pos none) (fun _ => True) := by
  intro R
  have hcall := callRule_yields rules s.cursor.input depth
  have hself := eval_yields hcall (.rule ⟨name, some self⟩)
  have hoperand := eval_yields hcall (.rule ⟨operandName, some operand⟩)
  cases level with
  | prefixOps operators => exact prefixOps_yields hcall hself hoperand operators s rfl hs
  | postfixOps operators => exact postfixOps_yields hcall hoperand operators s rfl hs
  | rightAssoc operators => exact rightAssoc_yields hcall hself hoperand operators s rfl hs
  | leftAssoc operators =>
    refine leftAssoc_yields hcall hoperand rfl hs ?_
    intro t ht found u right w hfound hright hpos
    refine htake operators rfl depth { t with scope := .empty } ht.input_eq ht.pos_le
      ht.pos_le_input ?_
    exact hpos ▸ endsAt_pair hfound hright

end Calls

/-- A level and its expansion, called and matched in the same place with the same rules: if
both come to an end, then either both fail, or both match up to the same position. For a level
that groups to the left, no operator with an operand behind it may match nothing. -/
theorem level_ends_where_expansion_ends {rules : List Rule} {handle operand : Nat}
    {name operandName : String} {kind : RuleKind} {level : OperatorLevel}
    (hrule : rules[handle]? = some ⟨name, kind, .level level operand⟩) {s s' : MatchState}
    (hinput : s'.cursor.input = s.cursor.input) (hpos : s'.cursor.pos = s.cursor.pos)
    (hs : s.cursor.pos ≤ s.cursor.input.length)
    (htake : ∀ operators, level = .leftAssoc operators →
      PairsTake rules level (.rule ⟨operandName, some operand⟩) s.cursor)
    {depth depth' : Nat} {stop? stop?' : Option Nat}
    (hend : EndsAt (callRule rules depth handle) s stop?)
    (hend' : EndsAt ((level.expansion (.rule ⟨name, some handle⟩)
      (.rule ⟨operandName, some operand⟩)).eval (callRule rules depth')) s' stop?') :
    stop? = stop?' := by
  let R := (level.expansion (.rule ⟨name, some handle⟩)
    (.rule ⟨operandName, some operand⟩)).outcomes (callOutcomes rules s.cursor.input)
    s.cursor.input
  have hout : R s.cursor.pos stop? := by
    apply hend.of_ensures
    cases depth with
    | zero => trivial
    | succ depth =>
      rw [ensures_callRule_succ, hrule]
      apply (ensures_eval_expansion (s := ⟨s.cursor, .empty, _⟩) hs htake depth).mono
      · exact fun _ _ ht => ht.2
      · exact fun _ _ ht => ht.2
  have hout' := Expr.outcomes_of_endsAt (hinput ▸ hpos ▸ hs) hend'
  rw [hinput, hpos] at hout'
  exact Expr.outcomes_compatible (callOutcomes_compatible rules s.cursor.input) _ _ _ _ _ hout hout'

/-- Sums of digits. Both match a whole sum, and both fail where a digit is missing behind an
operator, although there is a sum before it. -/
theorem level_ends_where_expansion_ends_of_sums :
    let keep : BinaryAction := ⟨"keep", fun _ matched _ _ => .ok matched⟩
    let level : OperatorLevel := .leftAssoc [(.literal (.exact [0x2B]), keep)]
    let rules : List Rule := [⟨"Sum_1", .precedenceLevel, .expr (.charClass ⟨[], [('0', '9')]⟩)⟩,
      ⟨"Sum_0", .precedenceLevel, .level level 0⟩]
    let e := level.expansion (.rule ⟨"Sum_0", some 1⟩) (.rule ⟨"Sum_1", some 0⟩)
    let whole := MatchState.fresh [0x31, 0x2B, 0x32] 0
    let broken := MatchState.fresh [0x31, 0x2B, 0x32, 0x2B] 0
    whole.cursor.pos ≤ whole.cursor.input.length ∧
    broken.cursor.pos ≤ broken.cursor.input.length ∧
    (∀ cursor, PairsTake rules level (.rule ⟨"Sum_1", some 0⟩) cursor) ∧
    (∃ stop? stop?', EndsAt (callRule rules 2 1) whole stop? ∧
      EndsAt (e.eval (callRule rules 1)) whole stop?' ∧ stop? = stop?' ∧ stop? = some 3) ∧
    ∃ stop? stop?', EndsAt (callRule rules 2 1) broken stop? ∧
      EndsAt (e.eval (callRule rules 1)) broken stop?' ∧ stop? = stop?' ∧ stop? = none := by
  intro keep level rules e whole broken
  have hclosed : MarkingClosed rules fun _ => true := fun _ _ _ _ => rfl
  have htake (cursor : Cursor) : PairsTake rules level (.rule ⟨"Sum_1", some 0⟩) cursor :=
    pairsTake_of_not_nullable hclosed rfl cursor
  have hs : whole.cursor.pos ≤ whole.cursor.input.length := by decide
  have hs' : broken.cursor.pos ≤ broken.cursor.input.length := by decide
  have hend : EndsAt (callRule rules 2 1) whole (some 3) := by decide +kernel
  have hend' : EndsAt (e.eval (callRule rules 1)) whole (some 3) := by decide +kernel
  have hbreak : EndsAt (callRule rules 2 1) broken none := by decide +kernel
  have hbreak' : EndsAt (e.eval (callRule rules 1)) broken none := by decide +kernel
  refine ⟨hs, hs', htake, ⟨_, _, hend, hend', ?_, rfl⟩, _, _, hbreak, hbreak', ?_, rfl⟩
  · exact level_ends_where_expansion_ends rfl rfl rfl hs (fun _ _ => htake _) hend hend'
  · exact level_ends_where_expansion_ends rfl rfl rfl hs' (fun _ _ => htake _) hbreak hbreak'

/-- An empty operator before an operand that may be empty: the level takes the pair as its last,
and the expansion stands before the operator once more. -/
example :
    let keep : BinaryAction := ⟨"keep", fun _ matched _ _ => .ok matched⟩
    let level : OperatorLevel := .leftAssoc [(.literal (.exact []), keep)]
    let operand : Expr := .optional (.literal (.exact [0x61]))
    let rules : List Rule :=
      [⟨"E_1", .precedenceLevel, .expr operand⟩, ⟨"E_0", .precedenceLevel, .level level 0⟩]
    let e := level.expansion (.rule ⟨"E_0", some 1⟩) (.rule ⟨"E_1", some 0⟩)
    EndsAt (callRule rules 2 1) (.fresh [0x62] 0) (some 0) ∧
      EndsAt (e.eval (callRule rules 1)) (.fresh [0x62] 0) none := by
  decide +kernel

end Peg
