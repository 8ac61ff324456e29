import Peg.Proofs.Matcher.Evaluation

/-!
Which faults a match can end in. A fault is about a rule when a reference or a
handle was followed that leads to none. An expression comes to such a fault only
through a reference that is not bound, through a rule that it calls, or because
an action of its own raises it: what else can go wrong in a match is about spans.
-/

namespace Peg

/-- Whether the fault is that a rule was called which is not there. -/
def Fault.isAboutRule : Fault → Bool
  | unresolvedRule _ | noGrammar _ | missingRule _ | noLevels _ => true
  | outOfBounds _ | invertedSpan | sliceOutsideInput => false

/-! ## Faults of values -/

theorem Span.isAboutRule_of_between {start stop : Nat} {fault : Fault}
    (h : Span.between start stop = .error fault) : fault.isAboutRule = false := by
  unfold between at h
  split at h
  · cases h
  · cases h
    rfl

theorem Span.isAboutRule_of_slice {span : Span} {input : Bytes} {fault : Fault}
    (h : span.slice input = .error fault) : fault.isAboutRule = false := by
  unfold slice at h
  split at h
  · cases h
  · cases h
    rfl

mutual
theorem Value.isAboutRule_of_bytes {input : Bytes} {fault : Fault} :
    ∀ v : Value, v.bytes input = .error fault → fault.isAboutRule = false
  | .token _, h => Span.isAboutRule_of_slice h
  | .list items, h => Value.isAboutRule_of_bytesOfAll items h

theorem Value.isAboutRule_of_bytesOfAll {input : Bytes} {fault : Fault} :
    ∀ items : List Value, bytesOfAll input items = .error fault → fault.isAboutRule = false
  | v :: vs, h => by
    rw [Value.bytesOfAll] at h
    cases hfront : v.bytes input with
    | error fault' =>
      rw [hfront] at h
      cases h
      exact Value.isAboutRule_of_bytes v hfront
    | ok front =>
      rw [hfront] at h
      cases hrest : bytesOfAll input vs with
      | error fault' =>
        rw [hrest] at h
        cases h
        exact Value.isAboutRule_of_bytesOfAll vs hrest
      | ok rest =>
        rw [hrest] at h
        cases h
end

theorem Value.isAboutRule_of_extent {start : Nat} {v : Value} {fault : Fault}
    (h : v.extent start = .error fault) : fault.isAboutRule = false := by
  unfold extent at h
  split at h
  · cases h
  · exact Span.isAboutRule_of_between h

/-! ## Faults that actions raise -/

/-- Some action in the expression raises the fault. -/
def Expr.Raises (e : Expr) (fault : Fault) : Prop :=
  ∃ body a, (Expr.action body a).Occurs e ∧ ∃ context v, a.run context v = .error fault

theorem Expr.Raises.of_part {e part : Expr} {fault : Fault} (hpart : part ∈ e.children)
    (h : part.Raises fault) : e.Raises fault := by
  obtain ⟨body, a, hoccurs, hrun⟩ := h
  exact ⟨body, a, .inside hpart hoccurs, hrun⟩

theorem Expr.Raises.children_ne_nil {e : Expr} {fault : Fault} (h : e.Raises fault) :
    e.children ≠ [] := by
  obtain ⟨body, a, hoccurs, -⟩ := h
  cases hoccurs with
  | self => exact List.cons_ne_nil _ _
  | inside hpart _ => exact List.ne_nil_of_mem hpart

/-- Some action of the level, or in one of its operators, raises the fault. -/
def OperatorLevel.Raises (level : OperatorLevel) (fault : Fault) : Prop :=
  (∃ e ∈ level.exprs, e.Raises fault) ∨
    match level with
    | .prefixOps ops | .postfixOps ops =>
      ∃ op ∈ ops, ∃ context matched x, op.2.run context matched x = .error fault
    | .leftAssoc ops | .rightAssoc ops =>
      ∃ op ∈ ops, ∃ context matched left right,
        op.2.run context matched left right = .error fault

/-- Some action of the rule raises the fault. -/
def Rule.Raises (rule : Rule) (fault : Fault) : Prop :=
  match rule.body with
  | .expr e => e.Raises fault
  | .precedence _ => False
  | .level operators _ => operators.Raises fault

/-! ## Faults of matches -/

namespace Matcher

/-- A fault about a rule has one of these causes. -/
def Accounts (cause : Fault → Prop) (interrupt : Interrupt) : Prop :=
  ∀ fault, interrupt = .fault fault → fault.isAboutRule = true → cause fault

/-- Whenever the run of the matcher ends in a fault about a rule, it has one of
these causes. -/
def Accounted {α : Type} (cause : Fault → Prop) (m : Matcher α) : Prop :=
  ∀ s : MatchState, Ensures m s (fun _ _ => True) (fun _ _ => True) (Accounts cause)

variable {cause : Fault → Prop}

theorem Accounts.exhausted : Accounts cause .exhausted := by
  intro fault h
  cases h

theorem Accounts.of_cause {fault : Fault} (h : cause fault) : Accounts cause (.fault fault) := by
  intro fault' heq _
  cases heq
  exact h

theorem Accounts.of_not_about {fault : Fault} (h : fault.isAboutRule = false) :
    Accounts cause (.fault fault) := by
  intro fault' heq habout
  cases heq
  rw [h] at habout
  cases habout

/-- A result that may be a fault, where every fault is accounted for. -/
theorem settled_accounts {α : Type} {result : Except Fault α} {ok : α → Prop}
    (hok : ∀ a, ok a) (hcut : ∀ fault, result = .error fault → Accounts cause (.fault fault)) :
    Settled result ok (Accounts cause) := by
  cases result with
  | ok a => exact hok a
  | error fault => exact hcut fault rfl

theorem Accounted.many {m : Matcher Value} (h : Accounted cause m) (idle : Nat → Event)
    (values : List Value) : Accounted cause (many idle m values) := by
  intro s
  refine Ensures.many (fun _ _ => True) ?_ trivial
  intro values t _
  apply (h t).imp_ok
  intro value u _
  split
  · trivial
  · trivial

theorem terminal_accounted (e : Expr) (width? : Bytes → Option Nat) :
    Accounted cause (terminal e width?) := by
  intro s
  rw [ensures_terminal]
  split
  · trivial
  · trivial

end Matcher

section Evaluation

open Matcher

variable {call : Nat → Matcher Value} {cause : Fault → Prop}

theorem evalParts_accounted {es : List Expr} (hes : ∀ e ∈ es, Accounted cause (e.eval call)) :
    Accounted cause (Expr.evalParts call es) := by
  induction es with
  | nil => exact fun s => trivial
  | cons e es ih =>
    intro s
    rw [Expr.ensures_evalParts_cons]
    apply (hes e List.mem_cons_self s).imp_ok
    intro value t _
    exact ih (fun e he => hes e (List.mem_cons_of_mem _ he)) t

theorem firstOf_accounted {es : List Expr} (hes : ∀ e ∈ es, Accounted cause (e.eval call))
    (empty : Mismatch) (best : Option Mismatch) :
    Accounted cause (firstOf empty best (Expr.evalEach call es)) := by
  induction es generalizing best with
  | nil => exact fun s => trivial
  | cons e es ih =>
    intro s
    rw [Expr.evalEach, ensures_firstOf_cons]
    apply (hes e List.mem_cons_self s).mono (fun value t ht => ht)
    intro x t _
    exact ih (fun e he => hes e (List.mem_cons_of_mem _ he)) _ _

/-- Whatever keeps an expression from missing a rule: its references are bound, to
rules whose calls are accounted for, and so is what its actions raise. -/
structure Expr.Guarded (call : Nat → Matcher Value) (cause : Fault → Prop) (e : Expr) :
    Prop where
  references : ∀ ref, (Expr.rule ref).Occurs e →
    ∃ handle, ref.handle? = some handle ∧ Accounted cause (call handle)
  actions : ∀ fault, e.Raises fault → cause fault

theorem Expr.Guarded.part {e part : Expr} (h : e.Guarded call cause)
    (hpart : part ∈ e.children) : part.Guarded call cause :=
  ⟨fun ref hoccurs => h.references ref (.inside hpart hoccurs),
    fun fault hraises => h.actions fault (hraises.of_part hpart)⟩

theorem Expr.eval_accounted {e : Expr} (h : e.Guarded call cause) :
    Accounted cause (e.eval call) := by
  induction e using Expr.parts_induction with
  | literal l => exact terminal_accounted _ _
  | charClass c => exact terminal_accounted _ _
  | anyChar => exact terminal_accounted _ _
  | seq es ih =>
    intro s
    rw [ensures_seq]
    exact evalParts_accounted (fun e he => ih e he (h.part he)) s
  | choice es ih =>
    intro s
    rw [ensures_choice]
    exact firstOf_accounted (fun e he => ih e he (h.part he)) _ _ s
  | star e ih =>
    intro s
    rw [ensures_star]
    exact (ih (h.part List.mem_cons_self)).many _ _ s
  | plus e ih =>
    have hbody := ih (h.part List.mem_cons_self)
    intro s
    rw [ensures_plus]
    apply (hbody s).imp_ok
    intro first t _
    split
    · exact hbody.many _ _ t
    · trivial
  | optional e ih =>
    intro s
    rw [ensures_optional]
    exact ih (h.part List.mem_cons_self) s
  | ahead e ih =>
    intro s
    rw [ensures_ahead]
    exact ih (h.part List.mem_cons_self) s
  | notAhead e ih =>
    intro s
    rw [ensures_notAhead]
    exact ih (h.part List.mem_cons_self) s
  | discard e ih => exact ih (h.part List.mem_cons_self)
  | label name e ih =>
    intro s
    rw [ensures_label]
    exact ih (h.part List.mem_cons_self) s
  | action e a ih =>
    intro s
    rw [ensures_action]
    apply (ih (h.part List.mem_cons_self) s).imp_ok
    intro value t _
    refine settled_accounts (fun _ => trivial) (fun fault hrun => ?_)
    exact .of_cause (h.actions fault ⟨e, a, .self, _, _, hrun⟩)
  | slice e ih =>
    intro s
    rw [ensures_slice]
    apply (ih (h.part List.mem_cons_self) s).imp_ok
    intro value t _
    refine settled_accounts (fun _ => trivial) (fun fault hextent => ?_)
    exact .of_not_about (Value.isAboutRule_of_extent hextent)
  | concat e ih =>
    intro s
    rw [ensures_concat]
    apply (ih (h.part List.mem_cons_self) s).imp_ok
    intro value t _
    refine settled_accounts (fun content => ?_) (fun fault hbytes => ?_)
    · refine settled_accounts (fun _ => trivial) (fun fault hspan => ?_)
      exact .of_not_about (Span.isAboutRule_of_between hspan)
    · exact .of_not_about (Value.isAboutRule_of_bytes value hbytes)
  | rule ref =>
    intro s
    obtain ⟨handle, hhandle, hcall⟩ := h.references ref .self
    rw [ensures_rule, hhandle]
    exact hcall s

namespace OperatorLevel

variable {α : Type} {self operand : Matcher Value}

theorem firstOperator_accounted {operators : List (Expr × α)}
    (h : ∀ e ∈ operators.map Prod.fst, e.Guarded call cause) (s : MatchState) :
    Ensures (firstOperator call operators) s
      (fun found _ => Found found (fun _ a => ∃ op ∈ operators, a = op.2) True)
      (fun _ _ => True) (Accounts cause) := by
  refine ensures_firstOperator (fun _ => True) ?_ (fun _ _ => trivial) trivial
  intro e a hmem t _
  apply (Expr.eval_accounted (h e (List.mem_map_of_mem hmem)) t).imp_ok
  intro value u _
  exact ⟨(e, a), hmem, rfl⟩

/-- A level misses no rule unless an operator, an operand or an action does. -/
theorem eval_accounted {level : OperatorLevel}
    (hexprs : ∀ e ∈ level.exprs, e.Guarded call cause)
    (hactions : ∀ fault, level.Raises fault → cause fault) (hself : Accounted cause self)
    (hoperand : Accounted cause operand) :
    Accounted cause (level.eval call self operand) := by
  intro s
  cases level with
  | prefixOps operators =>
    apply ensures_prefixOps
    apply (firstOperator_accounted hexprs _).imp_ok
    intro found t hfound
    refine hfound.imp (fun op a ha => ?_) (fun _ => hoperand _)
    obtain ⟨op, hop, rfl⟩ := ha
    apply (hself _).imp_ok
    intro x u _
    refine settled_accounts (fun _ => trivial) (fun fault hrun => ?_)
    exact .of_cause (hactions fault (Or.inr ⟨op, hop, _, _, _, hrun⟩))
  | postfixOps operators =>
    apply ensures_postfixOps (fun _ _ => True) (hoperand s)
    intro x t _
    apply (firstOperator_accounted hexprs _).imp_ok
    intro found u hfound
    refine hfound.imp (fun op a ha => ?_) (fun _ => trivial)
    obtain ⟨op, hop, rfl⟩ := ha
    refine settled_accounts (fun y => ?_) (fun fault hrun => ?_)
    · split
      · trivial
      · trivial
    · exact .of_cause (hactions fault (Or.inr ⟨op, hop, _, _, _, hrun⟩))
  | leftAssoc operators =>
    apply ensures_leftAssoc (fun _ _ => True) (hoperand s)
    intro left t _
    apply (firstOperator_accounted hexprs _).imp_ok
    intro found u hfound
    refine hfound.imp (fun op a ha => ?_) (fun _ => trivial)
    obtain ⟨op, hop, rfl⟩ := ha
    apply (hoperand _).imp_ok
    intro right w _
    refine settled_accounts (fun y => ?_) (fun fault hrun => ?_)
    · split
      · trivial
      · trivial
    · exact .of_cause (hactions fault (Or.inr ⟨op, hop, _, _, _, _, hrun⟩))
  | rightAssoc operators =>
    apply ensures_rightAssoc
    apply (hoperand s).imp_ok
    intro left t _
    apply (firstOperator_accounted hexprs _).imp_ok
    intro found u hfound
    refine hfound.imp (fun op a ha => ?_) (fun _ => trivial)
    obtain ⟨op, hop, rfl⟩ := ha
    apply (hself _).imp_ok
    intro right w _
    refine settled_accounts (fun _ => trivial) (fun fault hrun => ?_)
    exact .of_cause (hactions fault (Or.inr ⟨op, hop, _, _, _, _, hrun⟩))

end OperatorLevel

end Evaluation

end Peg
