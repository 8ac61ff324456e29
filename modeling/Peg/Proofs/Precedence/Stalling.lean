import Peg.Proofs.Grammar.WellFormed
import Peg.Proofs.Termination

/-!
Operators that take nothing. The loops of a level, behind an operand or from the
left, end with an operator that takes nothing. The calls of a level to itself,
behind a prefix operator or to the right, have no such end: where nothing is taken
before the call, the level is called again in the same place, and so on. A
precedence rule without references ends on all inputs but for this.
-/

namespace Peg

open Matcher OperatorLevel

/-! ## Levels that stall -/

/-- The run needs calls nested deeper than allowed. -/
def Matcher.Exhausts {α : Type} (m : Matcher α) (s : MatchState) : Prop :=
  Ensures m s (fun _ _ => False) (fun _ _ => False) (fun interrupt => interrupt = .exhausted)

theorem Matcher.Exhausts.exists_run {α : Type} {m : Matcher α} {s : MatchState}
    (h : Exhausts m s) : ∃ t, EStateM.run m s = .error .exhausted t := by
  unfold Exhausts Ensures at h
  split at h
  · exact h.elim
  · exact h.elim
  · next interrupt t _ hrun => exact ⟨t, h ▸ hrun⟩

/-- There are no rules to call. -/
def Matcher.noRules (handle : Nat) : Matcher Value :=
  throw (.fault (.noGrammar handle))

namespace OperatorLevel

/-- Some operator is found at the position and takes nothing. -/
def IdleOperator {α : Type} (operators : List (Expr × α)) (input : Bytes) (pos : Nat) : Prop :=
  ∃ found t, EStateM.run (firstOperator noRules operators) (.fresh input pos) = .ok (some found) t ∧
    t.cursor.pos = pos

/-- The level calls itself in the place where it was called: behind a prefix
operator that takes nothing, or to the right of an operand and an operator that
both take nothing. -/
def Stalls (level : OperatorLevel) (idleOperand : Prop) (input : Bytes) (pos : Nat) : Prop :=
  match level with
  | prefixOps operators => IdleOperator operators input pos
  | rightAssoc operators => idleOperand ∧ IdleOperator operators input pos
  | postfixOps _ | leftAssoc _ => False

end OperatorLevel

/-- The rule matches at the position and takes nothing. -/
def IdleCall (rules : List Rule) (handle : Nat) (input : Bytes) (pos : Nat) : Prop :=
  ∃ depth v t, EStateM.run (callRule rules depth handle) (.fresh input pos) = .ok v t ∧
    t.cursor.pos = pos

/-- Some level of the precedence rule stalls at the position. -/
def Grammar.Stalls (grammar : Grammar) (rule : PrecedenceRule) (input : Bytes) (pos : Nat) :
    Prop :=
  ∃ i level operand, rule.levels[i]? = some level ∧
    grammar.handle? (PrecedenceRule.levelName rule.name (i + 1)) = some operand ∧
    level.Stalls (IdleCall grammar.rules operand input pos) input pos

/-! ## Levels that do not stall -/

theorem noRules_inBounds (handle : Nat) : InBounds (noRules handle) :=
  fun _ _ => trivial

theorem noRules_callsHalt (handles : List Nat) (size : Nat) :
    CallsHalt noRules handles size :=
  ⟨fun _ _ _ _ _ => fault_ne_exhausted _, fun _ _ _ _ => fault_ne_exhausted _⟩

/-- An expression without references needs no calls. -/
theorem Expr.Closed.eval_halts {e : Expr} (h : e.Closed) (call : Nat → Matcher Value)
    {s : MatchState} (hs : s.cursor.pos ≤ s.cursor.input.length) : Halts (e.eval call) s := by
  rw [h.eval_eq call noRules]
  exact Expr.eval_halts (fun handle => (noRules_inBounds handle).foreseen) noRules_inBounds e s hs
    (noRules_callsHalt _ _)

namespace OperatorLevel

variable {call : Nat → Matcher Value} {self operand : Matcher Value} {s : MatchState}

/-- The search for an operator without references ends; an operator that is found
and takes nothing is found there by itself. -/
theorem ensures_firstOperator_closed {α : Type} {operators : List (Expr × α)}
    (h : ∀ e ∈ operators.map Prod.fst, e.Closed)
    (hs : s.cursor.pos ≤ s.cursor.input.length) :
    Ensures (firstOperator call operators) { s with scope := .empty } (fun found t =>
      Found found
        (fun _ _ => s.cursor.Advances t.cursor ∧
          (t.cursor.pos = s.cursor.pos →
            IdleOperator operators s.cursor.input s.cursor.pos))
        (s.cursor.Advances t.cursor))
      (fun _ _ => False) (fun interrupt => interrupt ≠ .exhausted) := by
  rw [firstOperator_eq h call noRules]
  have hhalts := firstOperator_halts (fun handle => (noRules_inBounds handle).foreseen)
    noRules_inBounds hs (noRules_callsHalt (Expr.eachLeftCalls _ (operators.map Prod.fst)) _)
  apply (hhalts.also (Ensures.run_eq _ _)).mono _ (fun _ _ ht => ht.1)
  rintro found t ⟨hfound, hrun⟩
  match found with
  | none => exact hfound
  | some (op, a) =>
    refine ⟨hfound.advances, fun hpos => ?_⟩
    have hview : SameView { s with scope := .empty } (.fresh s.cursor.input s.cursor.pos) :=
      ⟨rfl, rfl, rfl⟩
    have hrefines := firstOperator_refines SameView.congruence
      (fun handle => refines_throw (.fault (.noGrammar handle))) operators
    obtain ⟨t', hrun', ht⟩ := hrefines.run_ok hview hrun
    exact ⟨(op, a), t', hrun', ht.pos_eq.symm.trans hpos⟩

/-- A level that does not stall ends wherever its operand does, and it itself does
further on. -/
theorem eval_halts_of_not_stalls {level : OperatorLevel} (hlevel : ∀ e ∈ level.exprs, e.Closed)
    (hs : s.cursor.pos ≤ s.cursor.input.length) (hbounds : InBounds operand)
    (hoperand : ∀ t : MatchState, s.cursor.Advances t.cursor → Halts operand t)
    (hself : ∀ t : MatchState, s.cursor.Advances t.cursor → t.cursor.pos ≠ s.cursor.pos →
      Halts self t)
    {idleOperand : Prop}
    (hidle : ∀ v t, EStateM.run operand s = .ok v t → t.cursor.pos = s.cursor.pos → idleOperand)
    (hstalls : ¬ level.Stalls idleOperand s.cursor.input s.cursor.pos) :
    Halts (level.eval call self operand) s := by
  have hstart := Cursor.Advances.refl hs
  cases level with
  | prefixOps operators =>
    apply ensures_prefixOps
    apply (ensures_firstOperator_closed hlevel hs).imp_total
    intro found t hfound
    refine hfound.imp (fun op a ht => ?_) (fun ht => hoperand { t with scope := s.scope } ht)
    have hmoves : t.cursor.pos ≠ s.cursor.pos := fun hpos => hstalls (ht.2 hpos)
    apply (hself { t with scope := s.scope } ht.1 hmoves).imp_ok
    intro x u _
    exact Settled.intro (fun _ _ => trivial) fault_ne_exhausted
  | postfixOps operators =>
    apply ensures_postfixOps (fun _ t => s.cursor.Advances t.cursor)
    · exact (hoperand s hstart).ensures_ok (hbounds s hs) fun _ _ ht => ht
    intro x t ht
    apply (ensures_firstOperator_closed hlevel ht.pos_le_input).imp_total
    intro found u hfound
    refine hfound.imp (fun op a hu => ?_) (fun _ => trivial)
    refine Settled.intro (fun y _ => ?_) fault_ne_exhausted
    split
    · exact ht.trans hu.1
    · trivial
  | leftAssoc operators =>
    apply ensures_leftAssoc (fun _ t => s.cursor.Advances t.cursor)
    · exact (hoperand s hstart).ensures_ok (hbounds s hs) fun _ _ ht => ht
    intro left t ht
    apply (ensures_firstOperator_closed hlevel ht.pos_le_input).imp_total
    intro found u hfound
    refine hfound.imp (fun op a hu => ?_) (fun _ => trivial)
    have hsu := ht.trans hu.1
    apply (hoperand { u with scope := t.scope } hsu).ensures_ok (hbounds _ hsu.pos_le_input)
    intro right w hw
    refine Settled.intro (fun y _ => ?_) fault_ne_exhausted
    split
    · exact hsu.trans hw
    · trivial
  | rightAssoc operators =>
    refine ensures_rightAssoc ?_
    apply (hoperand s hstart).ensures_ok ((hbounds s hs).also (Ensures.run_eq _ _))
    rintro left t ⟨ht, hrun⟩
    apply (ensures_firstOperator_closed hlevel ht.pos_le_input).imp_total
    intro found u hfound
    refine hfound.imp (fun op a hu => ?_) (fun _ => trivial)
    have hmoves : u.cursor.pos ≠ s.cursor.pos := by
      intro hpos
      have hle := ht.pos_le
      have hle' := hu.1.pos_le
      have hleft : t.cursor.pos = s.cursor.pos := by omega
      have hop := hu.2 (by omega)
      rw [hleft, ht.input_eq] at hop
      exact hstalls ⟨hidle left t hrun hleft, hop⟩
    apply (hself { u with scope := t.scope } (ht.trans hu.1) hmoves).imp_ok
    intro right w _
    exact Settled.intro (fun _ _ => trivial) fault_ne_exhausted

/-- An operator that is found by itself is found whatever has happened before. -/
theorem ensures_firstOperator_idle {α : Type} {operators : List (Expr × α)}
    (h : ∀ e ∈ operators.map Prod.fst, e.Closed)
    (hs : s.cursor.pos ≤ s.cursor.input.length)
    (hidle : IdleOperator operators s.cursor.input s.cursor.pos) :
    Ensures (firstOperator call operators) { s with scope := .empty } (fun found t =>
      Found found
        (fun _ _ => t.cursor.input = s.cursor.input ∧ t.cursor.pos = s.cursor.pos) False)
      (fun _ _ => False) (fun interrupt => interrupt = .exhausted) := by
  obtain ⟨found, t, hrun, hpos⟩ := hidle
  have hview : SameView (.fresh s.cursor.input s.cursor.pos) { s with scope := .empty } :=
    ⟨rfl, rfl, rfl⟩
  have hrefines := firstOperator_refines SameView.congruence
    (fun handle => refines_throw (.fault (.noGrammar handle))) operators
  obtain ⟨t', hrun', ht⟩ := hrefines.run_ok hview hrun
  have hfound := (ensures_firstOperator_closed h hs).of_ok hrun'
  rw [firstOperator_eq h call noRules]
  exact Ensures.of_run_ok hrun' ⟨hfound.1.input_eq, ht.pos_eq.symm.trans hpos⟩

/-- A level that stalls needs calls as deep as it itself needs in the same place. -/
theorem eval_exhausts_of_stalls {level : OperatorLevel} (hlevel : ∀ e ∈ level.exprs, e.Closed)
    (hs : s.cursor.pos ≤ s.cursor.input.length)
    (hself : ∀ t : MatchState, t.cursor.input = s.cursor.input → t.cursor.pos = s.cursor.pos →
      Exhausts self t)
    {idleOperand : Prop}
    (hoperand : idleOperand → Ensures operand s
      (fun _ t => t.cursor.input = s.cursor.input ∧ t.cursor.pos = s.cursor.pos)
      (fun _ _ => False) (fun interrupt => interrupt = .exhausted))
    (hstalls : level.Stalls idleOperand s.cursor.input s.cursor.pos) :
    Exhausts (level.eval call self operand) s := by
  cases level with
  | postfixOps operators | leftAssoc operators => exact hstalls.elim
  | prefixOps operators =>
    apply ensures_prefixOps
    apply (ensures_firstOperator_idle hlevel hs hstalls).imp_ok
    intro found t hfound
    refine hfound.imp (fun op a ht => ?_) False.elim
    exact (hself { t with scope := s.scope } ht.1 ht.2).imp_total fun _ _ hu => hu.elim
  | rightAssoc operators =>
    apply ensures_rightAssoc
    apply (hoperand hstalls.1).imp_ok
    intro left t ht
    have hidle : IdleOperator operators t.cursor.input t.cursor.pos := by
      rw [ht.1, ht.2]
      exact hstalls.2
    have hbounds : t.cursor.pos ≤ t.cursor.input.length := by
      rw [ht.1, ht.2]
      exact hs
    apply (ensures_firstOperator_idle hlevel hbounds hidle).imp_ok
    intro found u hfound
    refine hfound.imp (fun op a hu => ?_) False.elim
    have hexhausts := hself { u with scope := t.scope } (hu.1.trans ht.1) (hu.2.trans ht.2)
    exact hexhausts.imp_total fun _ _ hw => hw.elim

end OperatorLevel

namespace PrecedenceRule

variable {rule : PrecedenceRule} {rules : List Rule} {head : Nat} {input : Bytes} {start : Nat}

/-- The run of an operand that took nothing is one that takes nothing by itself. -/
theorem idleCall_of_run {depth handle : Nat} {s : MatchState} (hscope : s.scope = .empty)
    {v : Value} {t : MatchState} (hrun : EStateM.run (callRule rules depth handle) s = .ok v t)
    (hpos : t.cursor.pos = s.cursor.pos) :
    IdleCall rules handle s.cursor.input s.cursor.pos := by
  have hview : SameView s (.fresh s.cursor.input s.cursor.pos) := ⟨rfl, rfl, hscope⟩
  obtain ⟨t', hrun', ht⟩ :=
    (callRule_refines SameView.congruence rules (Nat.le_refl depth) handle).run_ok hview hrun
  exact ⟨depth, v, t', hrun', ht.pos_eq.symm.trans hpos⟩

/-- Where no level stalls, each level ends: it calls the next level in the same
place, and itself only further on. -/
theorem callRule_halts_of_not_stalls (hplaced : rule.PlacedAt rules head)
    (hclosed : rule.Closed)
    (hstalls : ∀ (i : Nat) (level : OperatorLevel) (pos : Nat), rule.levels[i]? = some level →
      start ≤ pos → pos ≤ input.length →
      ¬ level.Stalls (IdleCall rules (rule.levelHandle head (i + 1)) input pos) input pos)
    {depth i : Nat} (hi : i ≤ rule.levels.length) {s : MatchState} (hinput : s.cursor.input = input)
    (hstart : start ≤ s.cursor.pos) (hs : s.cursor.pos ≤ s.cursor.input.length)
    (hdepth : s.cursor.remaining.length * (rule.levels.length + 1) +
      (rule.levels.length - i) < depth) :
    Halts (callRule rules depth (rule.levelHandle head i)) s := by
  induction depth generalizing i s with
  | zero => omega
  | succ depth ih =>
    unfold Halts
    rw [ensures_callRule_succ]
    rcases Nat.lt_or_eq_of_le hi with hlt | rfl
    · have hlevel : rule.levels[i]? = some rule.levels[i] := List.getElem?_eq_getElem hlt
      rw [hplaced.level_rule i _ hlevel]
      have hcalls (j : Nat) (hj : j ≤ rule.levels.length) (t : MatchState)
          (ht : s.cursor.Advances t.cursor)
          (hless : t.cursor.remaining.length * (rule.levels.length + 1) +
            (rule.levels.length - j) < depth) :
          Halts (callRule rules depth (rule.levelHandle head j)) t :=
        ih hj (ht.input_eq.trans hinput) (Nat.le_trans hstart ht.pos_le) ht.pos_le_input hless
      apply eval_halts_of_not_stalls (s := ⟨s.cursor, .empty, _⟩) (hclosed.level hlevel) hs
        (callRule_inBounds rules depth _)
      · intro t (ht : s.cursor.Advances t.cursor)
        have hmul := Nat.mul_le_mul_right (rule.levels.length + 1) ht.remaining_le
        exact hcalls (i + 1) hlt t ht (by omega)
      -- a byte less outweighs all levels
      · intro t (ht : s.cursor.Advances t.cursor) hmoves
        have hmul := Nat.mul_le_mul_right (rule.levels.length + 1) (ht.remaining_lt hmoves)
        rw [Nat.succ_mul] at hmul
        exact hcalls i hi t ht (by omega)
      · intro v t hrun hpos
        exact idleCall_of_run rfl hrun hpos
      · have hpos : s.cursor.pos ≤ input.length := hinput ▸ hs
        rw [← hinput] at hstalls hpos
        exact hstalls i _ _ hlevel hstart hpos
    · rw [hplaced.atom_rule]
      exact (hclosed rule.atom List.mem_cons_self).eval_halts (callRule rules depth)
        (s := ⟨s.cursor, .empty, _⟩) hs

/-! ## Levels that stall -/

/-- A rule that takes nothing by itself takes nothing whatever has happened before,
unless calls may not nest deep enough. -/
theorem ensures_callRule_idle {handle depth : Nat} {s : MatchState}
    (hs : s.cursor.pos ≤ s.cursor.input.length) (hscope : s.scope = .empty)
    (hidle : IdleCall rules handle s.cursor.input s.cursor.pos) :
    Ensures (callRule rules depth handle) s
      (fun _ t => t.cursor.input = s.cursor.input ∧ t.cursor.pos = s.cursor.pos)
      (fun _ _ => False) (fun interrupt => interrupt = .exhausted) := by
  obtain ⟨enough, v, t, hrun, hpos⟩ := hidle
  have hview : SameView (.fresh s.cursor.input s.cursor.pos) s := ⟨rfl, rfl, hscope.symm⟩
  -- at a depth that covers both runs they are the same, up to running out of depth
  have hdeep := callRule_refines SameView.congruence rules (Nat.le_max_left enough depth) handle
  obtain ⟨t', hrun', ht⟩ := hdeep.run_ok hview hrun
  have hsame := callRule_refines .eq rules (Nat.le_max_right enough depth) handle
  have hinput := ((callRule_inBounds rules (max enough depth) handle s hs).of_ok hrun').input_eq
  rcases hsame.cases (s := s) rfl with ⟨w, u, u', hu, hu', rfl⟩ | ⟨interrupt, u, u', -, hu', -⟩ |
    ⟨u, hu⟩
  · rw [hrun'] at hu'
    obtain ⟨rfl, rfl⟩ := EStateM.Result.ok.inj hu'
    exact Ensures.of_run_ok hu ⟨hinput, ht.pos_eq.symm.trans hpos⟩
  · rw [hrun'] at hu'
    cases hu'
  · unfold Ensures
    rw [hu]

/-- A level that stalls is called in the same place for ever. -/
theorem callRule_exhausts_of_stalls (hplaced : rule.PlacedAt rules head)
    (hclosed : rule.Closed) {i : Nat} {level : OperatorLevel}
    (hlevel : rule.levels[i]? = some level) {pos : Nat} (hpos : pos ≤ input.length)
    (hstalls : level.Stalls (IdleCall rules (rule.levelHandle head (i + 1)) input pos) input pos)
    (depth : Nat) {s : MatchState} (hs : s.cursor.input = input ∧ s.cursor.pos = pos) :
    Exhausts (callRule rules depth (rule.levelHandle head i)) s := by
  induction depth generalizing s with
  | zero => exact rfl
  | succ depth ih =>
    obtain ⟨rfl, rfl⟩ := hs
    unfold Exhausts
    rw [ensures_callRule_succ, hplaced.level_rule i level hlevel]
    apply eval_exhausts_of_stalls (s := ⟨s.cursor, .empty, _⟩) (hclosed.level hlevel) hpos
    · intro t hinput hback
      exact ih ⟨hinput, hback⟩
    · exact ensures_callRule_idle (s := ⟨s.cursor, .empty, _⟩) hpos rfl
    · exact hstalls

theorem ensures_callRule_head (hplaced : rule.PlacedAt rules head) (depth : Nat)
    {s : MatchState} {failed : Mismatch → MatchState → Prop} {cut : Interrupt → Prop}
    {ok : Value → MatchState → Prop} :
    Ensures (callRule rules (depth + 1) head) s ok failed cut ↔
      Ensures (callRule rules depth (rule.levelHandle head 0))
        ⟨s.cursor, .empty, s.events.push (.entered rule.name s.cursor.pos)⟩
        (fun v t => ok v ⟨t.cursor, s.scope,
          t.events.push (.matched rule.name s.cursor.pos t.cursor.pos)⟩)
        (fun x t => failed x ⟨t.cursor, s.scope, t.events.push (.failed rule.name x.pos)⟩)
        cut := by
  obtain ⟨tighter, hhandles⟩ := rule.levelHandles_eq_cons head
  rw [ensures_callRule_succ, hplaced.head_rule]
  simp only [Rule.evalBody, hhandles]

end PrecedenceRule

/-- A precedence rule without references ends, and so does each of its levels, just
if no level stalls: whatever the input, from some position on all calls end within
the depth that a parse allows if and only if no level stalls from there on. -/
theorem precedence_terminates_iff_not_stalls {blueprint : Blueprint} {grammar : Grammar}
    (hbuild : blueprint.build = .ok grammar) {rule : PrecedenceRule}
    (hmem : .precedence rule ∈ blueprint.definitions) (hclosed : rule.Closed) (input : Bytes)
    (start : Nat) :
    (∀ name ∈ (Definition.precedence rule).names, ∀ s : MatchState, s.cursor.input = input →
      start ≤ s.cursor.pos → s.cursor.pos ≤ s.cursor.input.length →
      ∃ handle, grammar.handle? name = some handle ∧
        Terminates (fun depth => callRule grammar.rules depth handle) s
          (grammar.callDepth s.cursor)) ↔
    ∀ pos, start ≤ pos → pos ≤ input.length → ¬ grammar.Stalls rule input pos := by
  obtain ⟨head, hplaced, hhead, hhandles⟩ :=
    PrecedenceRule.exists_placedAt_of_build hbuild hmem hclosed
  constructor
  · rintro hends pos hstart hpos ⟨i, level, operand, hlevel, hoperand, hstalls⟩
    have hlt : i < rule.levels.length := (List.getElem?_eq_some_iff.mp hlevel).1
    have hname : PrecedenceRule.levelName rule.name i ∈ (Definition.precedence rule).names :=
      List.mem_cons_of_mem _ (List.mem_map.mpr ⟨i, List.mem_range.mpr (by omega), rfl⟩)
    rw [hhandles (i + 1) hlt] at hoperand
    obtain rfl := Option.some.inj hoperand
    obtain ⟨handle, hhandle, result, hne, hsame⟩ :=
      hends _ hname (.fresh input pos) rfl hstart hpos
    rw [hhandles i (Nat.le_of_lt hlt)] at hhandle
    obtain rfl := Option.some.inj hhandle
    obtain ⟨t, hrun⟩ := (PrecedenceRule.callRule_exhausts_of_stalls hplaced hclosed hlevel hpos
      hstalls _ (s := .fresh input pos) ⟨rfl, rfl⟩).exists_run
    exact hne t ((hsame _ (Nat.le_refl _)).symm.trans hrun)
  · intro hstalls
    have hlevels (depth i : Nat) (hi : i ≤ rule.levels.length) (s : MatchState)
        (hinput : s.cursor.input = input) (hstart : start ≤ s.cursor.pos)
        (hs : s.cursor.pos ≤ s.cursor.input.length)
        (hdepth : s.cursor.remaining.length * (rule.levels.length + 1) +
          (rule.levels.length - i) < depth) :
        Halts (callRule grammar.rules depth (rule.levelHandle head i)) s := by
      refine PrecedenceRule.callRule_halts_of_not_stalls hplaced hclosed ?_ hi hinput hstart hs
        hdepth
      intro j level pos hlevel hstart hpos hlevelStalls
      have hlt : j < rule.levels.length := (List.getElem?_eq_some_iff.mp hlevel).1
      exact hstalls pos hstart hpos ⟨j, level, _, hlevel, hhandles (j + 1) hlt, hlevelStalls⟩
    intro name hname s hinput hstart hs
    have hdepth : s.cursor.remaining.length * (rule.levels.length + 1) + rule.levels.length + 1 <
        grammar.callDepth s.cursor := by
      have henough := hplaced.le_callDepth s.cursor
      rw [Nat.succ_mul, Nat.mul_succ] at henough
      omega
    rcases List.mem_cons.mp hname with rfl | hname
    · refine ⟨head, hhead, ?_⟩
      apply Halts.terminates (m := fun depth => callRule grammar.rules depth head) _
        fun deeper hle => callRule_refines .eq grammar.rules hle head
      obtain ⟨depth, hsucc⟩ : ∃ depth, grammar.callDepth s.cursor = depth + 1 := ⟨_, rfl⟩
      unfold Halts
      rw [hsucc, PrecedenceRule.ensures_callRule_head hplaced]
      exact hlevels depth 0 (Nat.zero_le _) ⟨s.cursor, .empty, _⟩ hinput hstart hs
        (by dsimp only; omega)
    · obtain ⟨i, hi, rfl⟩ := List.mem_map.mp hname
      rw [List.mem_range] at hi
      refine ⟨_, hhandles i (by omega), ?_⟩
      exact Halts.terminates
        (m := fun depth => callRule grammar.rules depth (rule.levelHandle head i))
        (hlevels _ i (by omega) s hinput hstart hs (by omega))
        fun deeper hle => callRule_refines .eq grammar.rules hle _

/-- A postfix operator of no bytes is taken once, and the rule ends. -/
theorem empty_postfix_operator_terminates :
    let rule : PrecedenceRule :=
      ⟨"P", [.operators (.postfixOps [(.literal (.exact []), ⟨"x", fun _ _ x => .ok x⟩)]),
        .atom (.literal (.exact [0x61]))]⟩
    ∃ grammar handle, Blueprint.build { definitions := [.precedence rule] } = .ok grammar ∧
      grammar.handle? "P" = some handle ∧
      Terminates (fun depth => callRule grammar.rules depth handle) (.fresh [0x61] 0)
        (grammar.callDepth (.start [0x61])) := by
  intro rule
  have hwell : rule.WellFormed := PrecedenceRule.errors_eq_nil_iff.mp rfl
  have hleaves : ∀ root ∈ (Definition.precedence rule).roots, root.Leaf :=
    List.forall_mem_cons.mpr ⟨.literal _, List.forall_mem_singleton.mpr (.literal _)⟩
  obtain ⟨grammar, hbuild⟩ := hwell.exists_build hleaves
  have hiff := precedence_terminates_iff_not_stalls hbuild List.mem_cons_self
    (PrecedenceRule.closed_of_leaves hleaves) [0x61] 0
  have hstalls : ∀ pos, ¬ grammar.Stalls rule [0x61] pos := by
    rintro pos ⟨i, level, operand, hlevel, -, hlevelStalls⟩
    have hmem : level ∈ rule.levels := List.mem_of_getElem? hlevel
    obtain rfl := List.mem_singleton.mp hmem
    exact hlevelStalls
  obtain ⟨handle, hhandle, hends⟩ := hiff.mpr (fun pos _ _ => hstalls pos) "P"
    List.mem_cons_self (.fresh [0x61] 0) rfl (Nat.le_refl _) (Nat.zero_le _)
  exact ⟨grammar, handle, hbuild, hhandle, hends⟩

/-- A prefix operator of no bytes is found before every operand and never comes to
one: however deep calls may nest, they nest deeper. -/
theorem empty_prefix_operator_exhausts :
    let rule : PrecedenceRule :=
      ⟨"P", [.operators (.prefixOps [(.literal (.exact []), ⟨"x", fun _ _ x => .ok x⟩)]),
        .atom (.literal (.exact [0x61]))]⟩
    rule.WellFormed ∧ rule.Closed ∧
    ∃ grammar handle, Blueprint.build { definitions := [.precedence rule] } = .ok grammar ∧
      grammar.handle? "P" = some handle ∧
      ∀ depth, ∃ t, EStateM.run (callRule grammar.rules depth handle)
        ⟨.start [0x61], .empty, #[]⟩ = .error .exhausted t := by
  intro rule
  have hwell : rule.WellFormed := PrecedenceRule.errors_eq_nil_iff.mp rfl
  have hleaves : ∀ root ∈ (Definition.precedence rule).roots, root.Leaf :=
    List.forall_mem_cons.mpr ⟨.literal _, List.forall_mem_singleton.mpr (.literal _)⟩
  have hclosed := PrecedenceRule.closed_of_leaves hleaves
  obtain ⟨grammar, hbuild⟩ := hwell.exists_build hleaves
  obtain ⟨head, hplaced, hhead, -⟩ :=
    PrecedenceRule.exists_placedAt_of_build hbuild List.mem_cons_self hclosed
  refine ⟨hwell, hclosed, grammar, head, hbuild, hhead, fun depth => ?_⟩
  cases depth with
  | zero => exact ⟨_, rfl⟩
  | succ depth =>
    have hstalls : (prefixOps [(.literal (.exact []), ⟨"x", fun _ _ x => .ok x⟩)]).Stalls
        (IdleCall grammar.rules (rule.levelHandle head 1) [0x61] 0) [0x61] 0 :=
      ⟨_, _, rfl, rfl⟩
    have hexhausts : Exhausts (callRule grammar.rules (depth + 1) head)
        ⟨.start [0x61], .empty, #[]⟩ := by
      unfold Exhausts
      rw [PrecedenceRule.ensures_callRule_head hplaced]
      exact PrecedenceRule.callRule_exhausts_of_stalls hplaced hclosed (i := 0) rfl
        (Nat.zero_le _) hstalls depth ⟨rfl, rfl⟩
    exact hexhausts.exists_run

end Peg
