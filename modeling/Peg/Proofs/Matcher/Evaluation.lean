import Peg.Proofs.Expr
import Peg.Proofs.Matcher.Ensures

/-!
What the evaluation of each expression, operator level and rule ensures, in
terms of what its parts ensure; expressions that take bytes themselves are
terminals. Together with the induction on expressions, these equations are all
that a proof about evaluation needs to know of the evaluator.
-/

namespace Peg

namespace Expr

open Matcher

variable {call : Nat → Matcher Value} {s : MatchState} {ok : Value → MatchState → Prop}
  {failed : Mismatch → MatchState → Prop} {cut : Interrupt → Prop}

theorem ensures_seq (es : List Expr) :
    Ensures ((seq es).eval call) s ok failed cut ↔
      Ensures (evalParts call es) s (fun values t => ok (.list values) t) failed cut :=
  ensures_map ..

theorem ensures_evalParts_cons {ok : List Value → MatchState → Prop} (e : Expr)
    (es : List Expr) :
    Ensures (evalParts call (e :: es)) s ok failed cut ↔
      Ensures (e.eval call) s (fun value t =>
        Ensures (evalParts call es) t
          (fun values u => ok (if e.isDiscard then values else value :: values) u)
          failed cut) failed cut := by
  simp only [evalParts, ensures_bind, ensures_pure]

theorem ensures_choice (es : List Expr) :
    Ensures ((choice es).eval call) s ok failed cut ↔
      Ensures (firstOf ⟨choice es, s.cursor.pos⟩ none (evalEach call es)) s ok failed cut := by
  simp only [eval, ensures_bind, ensures_position]

theorem run_choice (call : Nat → Matcher Value) (es : List Expr) (s : MatchState) :
    EStateM.run ((choice es).eval call) s =
      EStateM.run (firstOf ⟨choice es, s.cursor.pos⟩ none (evalEach call es)) s := by
  rw [eval, EStateM.run_bind, run_position]

theorem evalEach_append (call : Nat → Matcher Value) (es es' : List Expr) :
    evalEach call (es ++ es') = evalEach call es ++ evalEach call es' := by
  simp only [evalEach_eq_map, List.map_append]

theorem ensures_star (e : Expr) :
    Ensures ((star e).eval call) s ok failed cut ↔
      Ensures (many (.idleBody e) (e.eval call) []) s (fun values t => ok (.list values) t)
        failed cut :=
  ensures_map ..

theorem ensures_plus (e : Expr) :
    Ensures ((plus e).eval call) s ok failed cut ↔
      Ensures (e.eval call) s (fun first t =>
        if t.cursor.remaining.length < s.cursor.remaining.length then
          Ensures (many (.idleBody e) (e.eval call) [first]) t
            (fun values u => ok (.list values) u) failed cut
        else
          ok (.list [first]) { t with events := t.events.push (.idleBody e s.cursor.pos) })
        failed cut := by
  simp only [eval, ensures_bind, ensures_get, ensures_ite, ensures_map, ensures_note,
    ensures_pure]

theorem ensures_optional (e : Expr) :
    Ensures ((optional e).eval call) s ok failed cut ↔
      Ensures (e.eval call) s ok
        (fun _ t => ok (.token (Span.empty s.cursor.pos)) (t.backAt s.cursor.pos)) cut := by
  simp only [eval, ensures_bind, ensures_position, ensures_probe, ensures_pure]

theorem ensures_ahead (e : Expr) :
    Ensures ((ahead e).eval call) s ok failed cut ↔
      Ensures (e.eval call) s
        (fun _ t => ok (.token (Span.empty s.cursor.pos)) (t.backAt s.cursor.pos))
        (fun x t => failed x (t.backAt s.cursor.pos)) cut := by
  simp only [eval, ensures_bind, ensures_position, ensures_survey, ensures_pure, ensures_throw]

theorem ensures_notAhead (e : Expr) :
    Ensures ((notAhead e).eval call) s ok failed cut ↔
      Ensures (e.eval call) s
        (fun _ t => failed ⟨notAhead e, s.cursor.pos⟩ (t.backAt s.cursor.pos))
        (fun _ t => ok (.token (Span.empty s.cursor.pos)) (t.backAt s.cursor.pos)) cut := by
  simp only [eval, ensures_bind, ensures_position, ensures_survey, ensures_pure,
    ensures_mismatch]

theorem ensures_label (name : String) (e : Expr) :
    Ensures ((label name e).eval call) s ok failed cut ↔
      Ensures (e.eval call) s
        (fun value t => ok value { t with scope := t.scope.insert name value }) failed cut := by
  simp only [eval, ensures_bind, ensures_bindName, ensures_pure]

theorem ensures_action (e : Expr) (a : Action) :
    Ensures ((action e a).eval call) s ok failed cut ↔
      Ensures (e.eval call) s
        (fun value t => Settled (a.run ⟨t.cursor.input, t.scope⟩ value)
          (fun result => ok result { t with scope := s.scope }) cut)
        (fun x t => failed x { t with scope := s.scope }) cut := by
  simp only [eval, ensures_bind, ensures_get, ensures_withScope, ensures_context,
    ensures_ofFault]

theorem ensures_slice (e : Expr) :
    Ensures ((slice e).eval call) s ok failed cut ↔
      Ensures (e.eval call) s
        (fun value t => Settled (value.extent s.cursor.pos) (fun span => ok (.token span) t) cut)
        failed cut := by
  simp only [eval, ensures_bind, ensures_position, ensures_map, ensures_ofFault]

theorem ensures_concat (e : Expr) :
    Ensures ((concat e).eval call) s ok failed cut ↔
      Ensures (e.eval call) s
        (fun value t => Settled (value.bytes t.cursor.input)
          (fun content => Settled (t.cursor.spanSince s.cursor.pos)
            (fun span => ok (.composite ⟨span, content⟩) t) cut) cut)
        failed cut := by
  simp only [eval, ensures_bind, ensures_position, ensures_get, ensures_ofFault, ensures_pure]

/-- The body of an expression that matches where its body does. Only what comes
of the match is its own: the value, a name, or a fault. -/
def wrapped? : Expr → Option Expr
  | discard e | label _ e | action e _ | slice e | concat e => some e
  | _ => none

/-- What the run of a body does to the cursor and adds to the events, the run of the
expression around it does too. -/
theorem ensures_wrapped_events {e body : Expr} (he : e.wrapped? = some body)
    (ok : Cursor → Array Event → Prop) (failed : Mismatch → Cursor → Array Event → Prop)
    (hcut : ∀ fault, cut (.fault fault))
    (h : Ensures (body.eval call) s (fun _ t => ok t.cursor t.events)
      (fun x t => failed x t.cursor t.events) cut) :
    Ensures (e.eval call) s (fun _ t => ok t.cursor t.events)
      (fun x t => failed x t.cursor t.events) cut := by
  cases e with
  | discard e =>
    obtain rfl := Option.some.inj he
    exact h
  | label name e =>
    obtain rfl := Option.some.inj he
    rw [ensures_label]
    exact h
  | action e a =>
    obtain rfl := Option.some.inj he
    rw [ensures_action]
    apply h.imp_ok
    intro value t ht
    exact Settled.intro (fun _ _ => ht) hcut
  | slice e =>
    obtain rfl := Option.some.inj he
    rw [ensures_slice]
    apply h.imp_ok
    intro value t ht
    exact Settled.intro (fun _ _ => ht) hcut
  | concat e =>
    obtain rfl := Option.some.inj he
    rw [ensures_concat]
    apply h.imp_ok
    intro value t ht
    exact Settled.intro (fun _ _ => Settled.intro (fun _ _ => ht) hcut) hcut
  | _ => cases he

/-- The same of the cursor alone. -/
theorem ensures_wrapped {e body : Expr} (he : e.wrapped? = some body) (ok : Cursor → Prop)
    (failed : Mismatch → Cursor → Prop) (hcut : ∀ fault, cut (.fault fault))
    (h : Ensures (body.eval call) s (fun _ t => ok t.cursor) (fun x t => failed x t.cursor)
      cut) :
    Ensures (e.eval call) s (fun _ t => ok t.cursor) (fun x t => failed x t.cursor) cut :=
  ensures_wrapped_events he (fun c _ => ok c) (fun x c _ => failed x c) hcut h

theorem ensures_rule (ref : RuleRef) :
    Ensures ((rule ref).eval call) s ok failed cut ↔
      match ref.handle? with
      | some handle => Ensures (call handle) s ok failed cut
      | none => cut (.fault (.unresolvedRule ref.name)) := by
  rw [eval]
  cases ref.handle? <;> rfl

end Expr

namespace OperatorLevel

open Matcher

/-- Operators without references are found or not whatever rules there are. -/
theorem firstOperator_eq {α : Type} {operators : List (Expr × α)}
    (h : ∀ e ∈ operators.map Prod.fst, e.Closed) (call call' : Nat → Matcher Value) :
    firstOperator call operators = firstOperator call' operators := by
  induction operators with
  | nil => rfl
  | cons operator rest ih =>
    rw [firstOperator, firstOperator, (h operator.1 List.mem_cons_self).eval_eq call call',
      ih fun e he => h e (List.mem_cons_of_mem _ he)]

/-- What has to hold when an operator is found, and when none is. -/
def Found {α : Type} (found : Option (Value × α)) (some : Value → α → Prop) (none : Prop) :
    Prop :=
  match found with
  | .some (op, a) => some op a
  | .none => none

theorem found_some {α : Type} {op : Value} {a : α} {some : Value → α → Prop} {none : Prop} :
    Found (.some (op, a)) some none ↔ some op a := Iff.rfl

theorem Found.imp {α : Type} {found : Option (Value × α)} {some some' : Value → α → Prop}
    {none none' : Prop} (h : Found found some none) (hsome : ∀ op a, some op a → some' op a)
    (hnone : none → none') : Found found some' none' := by
  match found with
  | .some (op, a) => exact hsome op a h
  | .none => exact hnone h

variable {α : Type} {call : Nat → Matcher Value} {self operand : Matcher Value}
  {s : MatchState} {ok : Value → MatchState → Prop} {failed : Mismatch → MatchState → Prop}
  {cut : Interrupt → Prop}

/-- Operators are tried from states in which `inv` holds, each after the last
has failed and the cursor has gone back. The search itself never fails. -/
theorem ensures_firstOperator {operators : List (Expr × α)} (inv : MatchState → Prop)
    {some : Value → α → MatchState → Prop} {none : MatchState → Prop}
    (hop : ∀ e a, (e, a) ∈ operators → ∀ t, inv t →
      Ensures (e.eval call) t (fun op u => some op a u)
        (fun _ u => inv (u.backAt t.cursor.pos)) cut)
    (hnone : ∀ t, inv t → none t) (hs : inv s) :
    Ensures (firstOperator call operators) s
      (fun found t => Found found (fun op a => some op a t) (none t)) failed cut := by
  induction operators generalizing s with
  | nil => exact hnone s hs
  | cons operator rest ih =>
    obtain ⟨e, a⟩ := operator
    rw [firstOperator, ensures_bind, ensures_probe]
    apply (hop e a List.mem_cons_self s hs).mono (fun op u hu => hu)
    intro x u hu
    exact ih (fun e a he t ht => hop e a (List.mem_cons_of_mem _ he) t ht) hu

theorem ensures_operator {operators : List (Expr × α)}
    {ok : Option (Value × α) × Captures → MatchState → Prop} :
    Ensures (operator call operators) s ok failed cut ↔
      Ensures (firstOperator call operators) { s with scope := .empty }
        (fun found t => ok (found, t.scope) { t with scope := s.scope })
        (fun x t => failed x { t with scope := s.scope }) cut :=
  ensures_withScope ..

theorem ensures_prefixOps {operators : List (Expr × UnaryAction)}
    (h : Ensures (firstOperator call operators) { s with scope := .empty } (fun found t =>
        Found found
          (fun op a => Ensures self { t with scope := s.scope } (fun x u =>
            Settled (a.run ⟨u.cursor.input, t.scope⟩ (.list [op, x]) x)
              (fun y => ok y u) cut) failed cut)
          (Ensures operand { t with scope := s.scope } ok failed cut))
      (fun x t => failed x { t with scope := s.scope }) cut) :
    Ensures ((prefixOps operators).eval call self operand) s ok failed cut := by
  rw [eval, ensures_bind, ensures_operator]
  apply h.imp_ok
  intro found t hfound
  match found with
  | .some (op, a) =>
    simp only [ensures_bind, ensures_context, ensures_ofFault]
    exact hfound
  | .none => exact hfound

theorem ensures_rightAssoc {operators : List (Expr × BinaryAction)}
    (h : Ensures operand s (fun left t =>
        Ensures (firstOperator call operators) { t with scope := .empty } (fun found u =>
          Found found
            (fun op a => Ensures self { u with scope := t.scope } (fun right w =>
              Settled (a.run ⟨w.cursor.input, u.scope⟩ (.list [left, op, right]) left right)
                (fun y => ok y w) cut) failed cut)
            (ok left { u with scope := t.scope }))
          (fun x u => failed x { u with scope := t.scope }) cut)
      failed cut) :
    Ensures ((rightAssoc operators).eval call self operand) s ok failed cut := by
  rw [eval, ensures_bind]
  apply h.imp_ok
  intro left t hleft
  rw [ensures_bind, ensures_operator]
  apply hleft.imp_ok
  intro found u hfound
  match found with
  | .some (op, a) =>
    simp only [ensures_bind, ensures_context, ensures_ofFault]
    exact hfound
  | .none => exact hfound

/-- A run of operators after an operand, by an invariant of the operand and of
what the operators have made of it. -/
theorem ensures_postfixOps {operators : List (Expr × UnaryAction)}
    (inv : Value → MatchState → Prop) (hoperand : Ensures operand s inv failed cut)
    (hstep : ∀ x t, inv x t →
      Ensures (firstOperator call operators) { t with scope := .empty } (fun found u =>
        Found found
          (fun op a => Settled (a.run ⟨u.cursor.input, u.scope⟩ (.list [x, op]) x) (fun y =>
            if u.cursor.remaining.length < t.cursor.remaining.length then
              inv y { u with scope := t.scope }
            else
              ok y ⟨u.cursor, t.scope, u.events.push (.idlePostfixOp t.cursor.pos)⟩) cut)
          (ok x { u with scope := t.scope }))
        (fun x u => failed x { u with scope := t.scope }) cut) :
    Ensures ((postfixOps operators).eval call self operand) s ok failed cut := by
  rw [eval, ensures_bind]
  apply hoperand.imp_ok
  intro x t hx
  refine Ensures.iterate inv ?_ hx
  intro x t hinv
  rw [ensures_bind, ensures_operator]
  apply (hstep x t hinv).imp_ok
  intro found u hfound
  match found with
  | .some (op, a) =>
    simp only [ensures_bind, ensures_context, ensures_map, ensures_ofFault]
    exact hfound
  | .none => exact hfound

/-- A run of operators between operands, by an invariant of what stands to the
left. -/
theorem ensures_leftAssoc {operators : List (Expr × BinaryAction)}
    (inv : Value → MatchState → Prop) (hoperand : Ensures operand s inv failed cut)
    (hstep : ∀ left t, inv left t →
      Ensures (firstOperator call operators) { t with scope := .empty } (fun found u =>
        Found found
          (fun op a => Ensures operand { u with scope := t.scope } (fun right w =>
            Settled (a.run ⟨w.cursor.input, u.scope⟩ (.list [left, op, right]) left right)
              (fun y =>
                if w.cursor.remaining.length < t.cursor.remaining.length then inv y w
                else ok y { w with events := w.events.push (.idleInfixOp t.cursor.pos) }) cut)
            failed cut)
          (ok left { u with scope := t.scope }))
        (fun x u => failed x { u with scope := t.scope }) cut) :
    Ensures ((leftAssoc operators).eval call self operand) s ok failed cut := by
  rw [eval, ensures_bind]
  apply hoperand.imp_ok
  intro left t hleft
  refine Ensures.iterate inv ?_ hleft
  intro left t hinv
  rw [ensures_bind, ensures_operator]
  apply (hstep left t hinv).imp_ok
  intro found u hfound
  match found with
  | .some (op, a) =>
    simp only [ensures_bind, ensures_context, ensures_map, ensures_ofFault]
    exact hfound
  | .none => exact hfound

end OperatorLevel

section Calls

open Matcher

variable {call : Nat → Matcher Value} {s : MatchState} {ok : Value → MatchState → Prop}
  {failed : Mismatch → MatchState → Prop} {cut : Interrupt → Prop}

theorem ensures_callRule_zero (rules : List Rule) (handle : Nat) :
    Ensures (callRule rules 0 handle) s ok failed cut ↔ cut .exhausted := Iff.rfl

/-- A call matches the body of its rule in a scope of its own, and the scope it
was made in stays as it was. -/
theorem ensures_callRule_succ (rules : List Rule) (depth handle : Nat) :
    Ensures (callRule rules (depth + 1) handle) s ok failed cut ↔
      match rules[handle]? with
      | none => cut (.fault (.missingRule handle))
      | some rule =>
        Ensures (rule.evalBody (callRule rules depth) handle)
          ⟨s.cursor, .empty, s.events.push (.entered rule.name s.cursor.pos)⟩
          (fun value t => ok value ⟨t.cursor, s.scope,
            t.events.push (.matched rule.name s.cursor.pos t.cursor.pos)⟩)
          (fun x t => failed x ⟨t.cursor, s.scope, t.events.push (.failed rule.name x.pos)⟩)
          cut := by
  rw [callRule]
  cases rules[handle]? with
  | none => rfl
  | some rule =>
    dsimp only
    rw [ensures_traced, ensures_bind, ensures_withScope]
    rfl

end Calls

end Peg
