import Mathlib.Logic.Relation
import Peg.Proofs.Grammar.Binding
import Peg.Proofs.Matcher.Replay

/-!
Where a mismatch comes from. Only a terminal, a negative lookahead and a choice of nothing fail
by themselves. Whatever else fails does so with the mismatch of a part, or of what a rule that
it calls fails with; alternatives and lookahead pick one of those and change none. So the
expression that is reported stands in what was evaluated, or in a rule that this leads to, and
it fails there again whenever it is matched there.
-/

namespace Peg

open Matcher

/-! ## Expressions that fail by themselves -/

/-- An expression that fails by itself, and not because a part of it does. -/
inductive Expr.FailsItself : Expr → Prop
  | leaf {e : Expr} (h : e.Leaf) : FailsItself e
  | notAhead (e : Expr) : FailsItself (.notAhead e)
  | noChoice : FailsItself (.choice [])

theorem Expr.FailsItself.ensures {call : Nat → Matcher Value} {e : Expr} (h : e.FailsItself)
    (s : MatchState) :
    Ensures (e.eval call) s (fun _ _ => True) (fun x _ => x = ⟨e, s.cursor.pos⟩)
      (fun _ => True) := by
  have hterminal (width? : Bytes → Option Nat) :
      Ensures (terminal e width?) s (fun _ _ => True) (fun x _ => x = ⟨e, s.cursor.pos⟩)
        (fun _ => True) := by
    rw [ensures_terminal]
    split
    · trivial
    · rfl
  cases h with
  | leaf h =>
    cases h with
    | literal l => exact hterminal _
    | charClass c => exact hterminal _
    | anyChar => exact hterminal _
  | notAhead e =>
    rw [ensures_notAhead]
    exact (Ensures.trivial _ s).mono (fun _ _ _ => rfl) (fun _ _ _ => trivial)
  | noChoice =>
    rw [ensures_choice]
    exact rfl

/-! ## Where mismatches are made -/

namespace Matcher

/-- On the input the matcher fails with such mismatches only. -/
def FailsOnly {α : Type} (input : Bytes) (P : Mismatch → Prop) (m : Matcher α) : Prop :=
  ∀ s : MatchState, s.cursor.Over input →
    Ensures m s (fun _ t => t.cursor.Over input) (fun x t => P x ∧ t.cursor.Over input)
      (fun _ => True)

variable {α : Type} {input : Bytes} {P Q : Mismatch → Prop} {m : Matcher α}

theorem FailsOnly.mono (h : FailsOnly input P m) (hPQ : ∀ x, P x → Q x) : FailsOnly input Q m :=
  fun s hs => (h s hs).mono (fun _ _ ht => ht) fun x _ hx => ⟨hPQ x hx.1, hx.2⟩

theorem InBounds.failsOnly (hm : InBounds m)
    (h : ∀ s : MatchState, s.cursor.Over input →
      Ensures m s (fun _ _ => True) (fun x _ => P x) (fun _ => True)) : FailsOnly input P m := by
  intro s hs
  apply ((h s hs).also (hm s hs.pos_le_input)).mono
  · exact fun _ _ ht => hs.advances ht.2
  · exact fun _ _ ht => ⟨ht.1, hs.advances ht.2.1⟩

theorem FailsOnly.many {m : Matcher Value} (hm : FailsOnly input P m) (idle : Nat → Event)
    (values : List Value) : FailsOnly input P (many idle m values) := by
  intro s hs
  refine Ensures.many (fun _ t => t.cursor.Over input) ?_ hs
  intro values t ht
  apply (hm t ht).mono
  · intro value u hu
    split
    · exact hu
    · exact hu
  · exact fun x u hu => hu.2.jump ht

/-- Of several mismatches one is kept as it is. -/
theorem firstOf_failsOnly {ms : List (Matcher α)} (hms : ∀ m ∈ ms, FailsOnly input P m)
    (empty : Mismatch) {best : Option Mismatch} (hbest : ∀ x ∈ best, P x)
    (hempty : ms = [] → P (best.getD empty)) : FailsOnly input P (firstOf empty best ms) := by
  induction ms generalizing best with
  | nil => exact fun s hs => ⟨hempty rfl, hs⟩
  | cons m ms ih =>
    intro s hs
    rw [ensures_firstOf_cons]
    apply (hms m List.mem_cons_self s hs).mono (fun _ _ ht => ht)
    intro x t hx
    have hmerged : P (x.mergeInto best) := by
      rcases x.mergeInto_eq_or_mem best with heq | hmem
      · rw [heq]
        exact hx.1
      · exact hbest _ hmem
    have hkept : ∀ y ∈ some (x.mergeInto best), P y := by
      intro y hy
      obtain rfl := Option.some.inj hy
      exact hmerged
    exact ih (fun m hm => hms m (List.mem_cons_of_mem _ hm)) hkept (fun _ => hmerged) _
      (hx.2.jump hs)

end Matcher

/-- What the mismatches of an expression come from: the parts that fail by themselves where they
are matched, and the calls of rules. -/
structure Expr.Sources (call : Nat → Matcher Value) (input : Bytes) (P : Mismatch → Prop)
    (e : Expr) : Prop where
  own : ∀ (d : Expr) (s t : MatchState), d.Occurs e → d.FailsItself → s.cursor.Over input →
    EStateM.run (d.eval call) s = .error (.mismatch ⟨d, s.cursor.pos⟩) t → P ⟨d, s.cursor.pos⟩
  calls : ∀ ref handle, (Expr.rule ref).Occurs e → ref.handle? = some handle →
    FailsOnly input P (call handle)

section Evaluation

variable {call : Nat → Matcher Value} {input : Bytes} {P : Mismatch → Prop}

theorem Expr.Sources.part {e part : Expr} (h : e.Sources call input P)
    (hpart : part ∈ e.children) : part.Sources call input P :=
  ⟨fun d s t hd => h.own d s t (.inside hpart hd),
    fun ref handle href => h.calls ref handle (.inside hpart href)⟩

theorem Expr.FailsItself.failsOnly (hcall : ∀ handle, InBounds (call handle)) {e : Expr}
    (he : e.FailsItself) (h : e.Sources call input P) : FailsOnly input P (e.eval call) := by
  apply (e.eval_inBounds hcall).failsOnly
  intro s hs
  apply ((he.ensures s).also (Ensures.run_eq _ s)).mono (fun _ _ _ => trivial)
  rintro _ t ⟨rfl, hrun⟩
  exact h.own e s t .self he hs hrun

theorem evalParts_failsOnly {es : List Expr} (hes : ∀ e ∈ es, FailsOnly input P (e.eval call)) :
    FailsOnly input P (Expr.evalParts call es) := by
  induction es with
  | nil => exact fun s hs => hs
  | cons e es ih =>
    intro s hs
    rw [Expr.ensures_evalParts_cons]
    apply (hes e List.mem_cons_self s hs).imp_ok
    intro value t ht
    exact ih (fun e he => hes e (List.mem_cons_of_mem _ he)) t ht

theorem Expr.eval_failsOnly (hcall : ∀ handle, InBounds (call handle)) {e : Expr}
    (h : e.Sources call input P) : FailsOnly input P (e.eval call) := by
  induction e using Expr.parts_induction with
  | literal l => exact (FailsItself.leaf (.literal l)).failsOnly hcall h
  | charClass c => exact (FailsItself.leaf (.charClass c)).failsOnly hcall h
  | anyChar => exact (FailsItself.leaf .anyChar).failsOnly hcall h
  | seq es ih =>
    intro s hs
    rw [ensures_seq]
    exact evalParts_failsOnly (fun e he => ih e he (h.part he)) s hs
  | choice es ih =>
    cases es with
    | nil => exact FailsItself.noChoice.failsOnly hcall h
    | cons e es =>
      intro s hs
      rw [ensures_choice]
      -- there are alternatives, so it is not the choice itself that is reported
      refine firstOf_failsOnly ?_ _ nofun nofun s hs
      intro m hm
      rw [evalEach_eq_map] at hm
      obtain ⟨part, hpart, rfl⟩ := List.mem_map.mp hm
      exact ih part hpart (h.part hpart)
  | star e ih =>
    intro s hs
    rw [ensures_star]
    exact (ih (h.part List.mem_cons_self)).many _ _ s hs
  | plus e ih =>
    have hbody := ih (h.part List.mem_cons_self)
    intro s hs
    rw [ensures_plus]
    apply (hbody s hs).imp_ok
    intro first t ht
    split
    · exact hbody.many _ _ t ht
    · exact ht
  | optional e ih =>
    intro s hs
    rw [ensures_optional]
    exact (ih (h.part List.mem_cons_self) s hs).mono (fun _ _ ht => ht) fun _ _ ht => ht.2.jump hs
  | ahead e ih =>
    intro s hs
    rw [ensures_ahead]
    exact (ih (h.part List.mem_cons_self) s hs).mono (fun _ _ ht => ht.jump hs)
      fun _ _ ht => ⟨ht.1, ht.2.jump hs⟩
  | notAhead e ih => exact (FailsItself.notAhead e).failsOnly hcall h
  | discard e ih | label name e ih | action e a ih | slice e ih | concat e ih =>
    intro s hs
    exact ensures_wrapped rfl (·.Over input) (fun x c => P x ∧ c.Over input) (fun _ => trivial)
      (ih (h.part List.mem_cons_self) s hs)
  | rule ref =>
    intro s hs
    rw [ensures_rule]
    cases href : ref.handle? with
    | none => trivial
    | some handle => exact h.calls ref handle .self href s hs

theorem OperatorLevel.ensures_firstOperator_over (hcall : ∀ handle, InBounds (call handle))
    {α : Type} (operators : List (Expr × α)) {s : MatchState} (hs : s.cursor.Over input) :
    Ensures (firstOperator call operators) { s with scope := .empty }
      (fun found t => Found found (fun _ _ => t.cursor.Over input) (t.cursor.Over input))
      (fun _ _ => False) (fun _ => True) := by
  have hrefl := Cursor.Advances.refl hs.pos_le_input
  apply (ensures_firstOperator_advances hcall hrefl).imp_ok
  intro found t ht
  exact ht.imp (fun _ _ => hs.advances) hs.advances

/-- An operator that fails is passed over. What a level fails with comes from an operand. -/
theorem OperatorLevel.eval_failsOnly (hcall : ∀ handle, InBounds (call handle))
    {self operand : Matcher Value} (hself : FailsOnly input P self)
    (hoperand : FailsOnly input P operand) (level : OperatorLevel) :
    FailsOnly input P (level.eval call self operand) := by
  intro s hs
  cases level with
  | prefixOps operators =>
    apply ensures_prefixOps
    apply (ensures_firstOperator_over hcall operators hs).imp_total
    intro found t ht
    refine ht.imp (fun op a ht => ?_) (fun ht => hoperand _ ht)
    apply (hself { t with scope := s.scope } ht).imp_ok
    exact fun x u hu => Settled.intro (fun _ _ => hu) fun _ => trivial
  | postfixOps operators =>
    apply ensures_postfixOps (fun _ t => t.cursor.Over input) (hoperand s hs)
    intro x t ht
    apply (ensures_firstOperator_over hcall operators ht).imp_total
    intro found u hu
    refine hu.imp (fun op a hu => Settled.intro (fun y _ => ?_) fun _ => trivial) (fun hu => hu)
    split
    · exact hu
    · exact hu
  | leftAssoc operators =>
    apply ensures_leftAssoc (fun _ t => t.cursor.Over input) (hoperand s hs)
    intro left t ht
    apply (ensures_firstOperator_over hcall operators ht).imp_total
    intro found u hu
    refine hu.imp (fun op a hu => ?_) (fun hu => hu)
    apply (hoperand { u with scope := t.scope } hu).imp_ok
    refine fun right w hw => Settled.intro (fun y _ => ?_) fun _ => trivial
    split
    · exact hw
    · exact hw
  | rightAssoc operators =>
    apply ensures_rightAssoc
    apply (hoperand s hs).imp_ok
    intro left t ht
    apply (ensures_firstOperator_over hcall operators ht).imp_total
    intro found u hu
    refine hu.imp (fun op a hu => ?_) (fun hu => hu)
    apply (hself { u with scope := t.scope } hu).imp_ok
    exact fun right w hw => Settled.intro (fun _ _ => hw) fun _ => trivial

end Evaluation

/-! ## What is reported -/

/-- A reference in the expression leads to the rule with the handle. -/
def Expr.Refers (e : Expr) (handle : Nat) : Prop :=
  ∃ ref, (Expr.rule ref).Occurs e ∧ ref.handle? = some handle

/-- From the rule with the one handle the rule with the other may be called: by a reference in
its body or in an operator of it, or as a level or an operand of it. -/
def Rule.Leads (rules : List Rule) (handle callee : Nat) : Prop :=
  ∃ rule, rules[handle]? = some rule ∧
    (callee ∈ rule.body.handles ∨ ∃ root ∈ rule.exprs, root.Refers callee)

/-- The expression stands in the body of a rule that the rule with the handle leads to. -/
def Expr.OccursFrom (rules : List Rule) (handle : Nat) (d : Expr) : Prop :=
  ∃ callee rule body, Relation.ReflTransGen (Rule.Leads rules) handle callee ∧
    rules[callee]? = some rule ∧ rule.body = .expr body ∧ d.Occurs body

theorem Expr.OccursFrom.of_leads {rules : List Rule} {handle callee : Nat} {d : Expr}
    (hleads : Rule.Leads rules handle callee) (h : d.OccursFrom rules callee) :
    d.OccursFrom rules handle := by
  obtain ⟨last, rule, body, hpath, hrest⟩ := h
  exact ⟨last, rule, body, hpath.head hleads, hrest⟩

/-- The mismatch is that of an expression that fails by itself, and that always fails so in this
place of the input: whatever is bound then, and unless it ends in a fault. -/
structure Mismatch.Genuine (rules : List Rule) (depth : Nat) (input : Bytes) (x : Mismatch) :
    Prop where
  failsItself : x.expr.FailsItself
  failsAgain : x.expr.AlwaysEnds rules depth input x.pos (fun _ => False) (· = x)

section Calls

variable {rules : List Rule} {depth depth' : Nat} {input : Bytes}

theorem Mismatch.Genuine.mono {x : Mismatch} (h : x.Genuine rules depth input)
    (hle : depth ≤ depth') : x.Genuine rules depth' input :=
  ⟨h.failsItself, h.failsAgain.mono hle (fun _ => id) fun _ => id⟩

theorem Expr.sources_of_calls {P : Mismatch → Prop} {e : Expr}
    (hown : ∀ x : Mismatch, x.Genuine rules depth input → x.expr.Occurs e → P x)
    (hcalls : ∀ handle, e.Refers handle → FailsOnly input P (callRule rules depth handle)) :
    e.Sources (callRule rules depth) input P := by
  refine ⟨?_, fun ref handle href hhandle => hcalls handle ⟨ref, href, hhandle⟩⟩
  intro d s t hoccurs hself hs hrun
  have hagain := Expr.alwaysEnds_of_run_mismatch hrun
  rw [hs.input_eq] at hagain
  exact hown ⟨d, s.cursor.pos⟩ ⟨hself, hagain⟩ hoccurs

theorem callRule_failsOnly (rules : List Rule) (depth handle : Nat) (input : Bytes) :
    FailsOnly input (fun x => x.Genuine rules depth input ∧ x.expr.OccursFrom rules handle)
      (callRule rules depth handle) := by
  induction depth generalizing handle with
  | zero => exact fun s hs => trivial
  | succ depth ih =>
    have hbounds := callRule_inBounds rules depth
    have hcallee {callee : Nat} (hleads : Rule.Leads rules handle callee) :
        FailsOnly input
          (fun x => x.Genuine rules (depth + 1) input ∧ x.expr.OccursFrom rules handle)
          (callRule rules depth callee) :=
      (ih callee).mono fun x hx => ⟨hx.1.mono (Nat.le_succ _), hx.2.of_leads hleads⟩
    intro s hs
    rw [ensures_callRule_succ]
    split
    · trivial
    · next rule hrule =>
      unfold Rule.evalBody
      split
      · next body hbody =>
        refine Expr.eval_failsOnly hbounds (Expr.sources_of_calls ?_ ?_) _ hs
        · intro x hx hoccurs
          exact ⟨hx.mono (Nat.le_succ _), handle, rule, body, .refl, hrule, hbody, hoccurs⟩
        · intro callee hrefers
          refine hcallee ⟨rule, hrule, Or.inr ⟨body, ?_, hrefers⟩⟩
          simp [Rule.exprs, hbody, RuleBody.exprs]
      · next first rest hbody =>
        exact hcallee ⟨rule, hrule, Or.inl (by simp [hbody, RuleBody.handles])⟩ _ hs
      · trivial
      · next level operand hbody =>
        have hself := (ih handle).mono fun x hx =>
          And.intro (hx.1.mono (Nat.le_succ depth)) hx.2
        have hleads : Rule.Leads rules handle operand :=
          ⟨rule, hrule, Or.inl (by simp [hbody, RuleBody.handles])⟩
        exact OperatorLevel.eval_failsOnly hbounds hself (hcallee hleads) level _ hs

/-- An expression or a rule, matched in any state, that fails. The position it reports lies
between the start and the end of the input. What it reports is a terminal, a negative lookahead
or a choice of nothing, which stands in the expression or in a rule that this leads to. Matched
by itself in that position, whatever is bound then, that fails with just this mismatch again. -/
theorem reported_failure_is_genuine (rules : List Rule) (depth : Nat) {s : MatchState}
    (hs : s.cursor.pos ≤ s.cursor.input.length) :
    (∀ (e : Expr) (x : Mismatch) (t : MatchState),
      EStateM.run (e.eval (callRule rules depth)) s = .error (.mismatch x) t →
      (s.cursor.pos ≤ x.pos ∧ x.pos ≤ s.cursor.input.length) ∧
        x.Genuine rules depth s.cursor.input ∧
        (x.expr.Occurs e ∨ ∃ handle, e.Refers handle ∧ x.expr.OccursFrom rules handle)) ∧
    ∀ (handle : Nat) (x : Mismatch) (t : MatchState),
      EStateM.run (callRule rules depth handle) s = .error (.mismatch x) t →
      (s.cursor.pos ≤ x.pos ∧ x.pos ≤ s.cursor.input.length) ∧
        x.Genuine rules depth s.cursor.input ∧ x.expr.OccursFrom rules handle := by
  have hover : s.cursor.Over s.cursor.input := ⟨rfl, hs⟩
  have hbounds := callRule_inBounds rules depth
  constructor
  · intro e x t hrun
    have hwithin := ((e.eval_inBounds hbounds s hs).of_mismatch hrun).2
    have hsources : e.Sources (callRule rules depth) s.cursor.input fun x =>
        x.Genuine rules depth s.cursor.input ∧
          (x.expr.Occurs e ∨ ∃ handle, e.Refers handle ∧ x.expr.OccursFrom rules handle) := by
      refine Expr.sources_of_calls (fun x hx hoccurs => ⟨hx, Or.inl hoccurs⟩) fun handle hrefers => ?_
      refine (callRule_failsOnly rules depth handle s.cursor.input).mono fun x hx => ?_
      exact ⟨hx.1, Or.inr ⟨handle, hrefers, hx.2⟩⟩
    exact ⟨⟨hwithin.start_le, hwithin.le_length⟩,
      ((Expr.eval_failsOnly hbounds hsources s hover).of_mismatch hrun).1⟩
  · intro handle x t hrun
    have hwithin := ((hbounds handle s hs).of_mismatch hrun).2
    exact ⟨⟨hwithin.start_le, hwithin.le_length⟩,
      ((callRule_failsOnly rules depth handle s.cursor.input s hover).of_mismatch hrun).1⟩

/-- In front of the second letter of `ab` a rule asks that there be none, by a rule of its own.
It is called behind a label, but the lookahead fails there whatever is bound. -/
theorem reported_failure_is_genuine_of_lookahead :
    let notB : Expr := .notAhead (.rule ⟨"B", some 1⟩)
    let rules : List Rule :=
      [⟨"NotB", .plain, .expr notB⟩, ⟨"B", .plain, .expr (.literal (.exact [0x62]))⟩]
    let e : Expr := .seq [.label "x" .anyChar, .rule ⟨"NotB", some 0⟩]
    let s : MatchState := ⟨.start [0x61, 0x62], .empty, #[]⟩
    s.cursor.pos ≤ s.cursor.input.length ∧
    ∃ t, EStateM.run (e.eval (callRule rules 2)) s = .error (.mismatch ⟨notB, 1⟩) t ∧
      (⟨notB, 1⟩ : Mismatch).Genuine rules 2 s.cursor.input ∧
      (notB.Occurs e ∨ ∃ handle, e.Refers handle ∧ notB.OccursFrom rules handle) := by
  intro notB rules e s
  have hs : s.cursor.pos ≤ s.cursor.input.length := by decide
  obtain ⟨t, hrun⟩ :
      ∃ t, EStateM.run (e.eval (callRule rules 2)) s = .error (.mismatch ⟨notB, 1⟩) t := ⟨_, rfl⟩
  obtain ⟨-, hgenuine, hoccurs⟩ := (reported_failure_is_genuine rules 2 hs).1 e _ t hrun
  exact ⟨hs, t, hrun, hgenuine, hoccurs⟩

end Calls

end Peg
