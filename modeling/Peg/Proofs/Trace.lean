import Peg.Parse
import Peg.Proofs.GenuineFailure

/-!
The record of rule calls. Every call notes where it begins and how it ends, and whatever is
given up on the way is given up between matchers, after the calls in it have ended: no record
is ever taken back, and none is left open. So the records of a call are a bracket around the
brackets of the calls that it made itself, one after another.

Records tell of calls alone. What else is noted while a grammar is matched, such as a
repetition whose body matched nothing, stands between them and is left out here.
-/

namespace Peg

open Matcher

/-- The records of rule calls among the events, in their order. -/
def traceOf (events : Array Event) : List Event :=
  events.toList.filter fun event => event.severity = .trace

theorem traceOf_push (events : Array Event) (event : Event) :
    traceOf (events.push event) =
      traceOf events ++ if event.severity = .trace then [event] else [] := by
  simp [traceOf, List.filter_append, List.filter_cons]

/-- How the call of a rule ends. -/
inductive CallEnd where
  /-- It matched up to `stop`. -/
  | matched (stop : Nat)
  /-- It failed with a mismatch at `pos`. -/
  | failed (pos : Nat)

/-- The position that is reported. -/
def CallEnd.pos : CallEnd → Nat
  | matched stop => stop
  | failed pos => pos

/-- The record of the end of a call that began at `start`. -/
def CallEnd.record (rule : String) (start : Nat) : CallEnd → Event
  | matched stop => .matched rule start stop
  | failed pos => .failed rule pos

/-! ## Brackets -/

/-- Whether a level matches itself again, to the right of an operator. -/
def OperatorLevel.repeatsItself : OperatorLevel → Bool
  | prefixOps _ | rightAssoc _ => true
  | postfixOps _ | leftAssoc _ => false

/-- The rules that a call of this rule, whose handle is `handle`, may call itself: those its
expression refers to, its loosest level, or its operand, those its operators refer to, and the
level again where it repeats. -/
def Rule.MayCall (rule : Rule) (handle callee : Nat) : Prop :=
  match rule.body with
  | .expr e => e.Refers callee
  | .precedence levels => levels.head? = some callee
  | .level operators operand =>
    callee = operand ∨ (operators.repeatsItself = true ∧ callee = handle) ∨
      ∃ e ∈ operators.exprs, e.Refers callee

/-- Called at this position of the input, the rule ends so. -/
def Rule.EndsSo (rules : List Rule) (input : Bytes) (handle start : Nat) (ending : CallEnd) :
    Prop :=
  ∃ depth s, s.cursor.input = input ∧ s.cursor.pos = start ∧
    Ensures (callRule rules depth handle) s (fun _ t => ending = .matched t.cursor.pos)
      (fun x _ => ending = .failed x.pos) (fun _ => False)

mutual
/-- The records of one call from its beginning to its end, with those of the calls it made
itself in between. The end they report is the end that the call comes to, and lies between its
beginning and the end of the input. -/
inductive Bracket (rules : List Rule) (input : Bytes) : Nat → Nat → CallEnd → List Event → Prop
  | call {handle start : Nat} {ending : CallEnd} {rule : Rule} {inner : List Event}
      (hrule : rules[handle]? = some rule)
      (hstart : start ≤ ending.pos) (hlength : ending.pos ≤ input.length)
      (hends : Rule.EndsSo rules input handle start ending)
      (hinner : Brackets rules input (rule.MayCall handle) inner) :
      Bracket rules input handle start ending
        (.entered rule.name start :: (inner ++ [ending.record rule.name start]))

/-- The records of calls one after another, each of a rule that may be called. -/
inductive Brackets (rules : List Rule) (input : Bytes) : (Nat → Prop) → List Event → Prop
  | nil (may : Nat → Prop) : Brackets rules input may []
  | cons {may : Nat → Prop} {handle start : Nat} {ending : CallEnd} {log rest : List Event}
      (hmay : may handle) (hcall : Bracket rules input handle start ending log)
      (hrest : Brackets rules input may rest) : Brackets rules input may (log ++ rest)
end

variable {rules : List Rule} {input : Bytes} {may : Nat → Prop}

theorem Brackets.append {log log' : List Event} :
    Brackets rules input may log → Brackets rules input may log' →
      Brackets rules input may (log ++ log')
  | .nil _, h' => h'
  | .cons hmay hcall hrest, h' => by
    rw [List.append_assoc]
    exact .cons hmay hcall (hrest.append h')

theorem Bracket.single {handle start : Nat} {ending : CallEnd} {log : List Event}
    (h : Bracket rules input handle start ending log) (hmay : may handle) :
    Brackets rules input may log := by
  have hcons := Brackets.cons hmay h (.nil may)
  rwa [List.append_nil] at hcons

/-! ## What is recorded from one state to the next -/

/-- Between the two states there are only records of complete calls. -/
structure MatchState.Continues (rules : List Rule) (input : Bytes) (may : Nat → Prop)
    (s t : MatchState) : Prop where
  inside : t.cursor.Over input
  recorded : ∃ log, Brackets rules input may log ∧ traceOf t.events = traceOf s.events ++ log

namespace MatchState.Continues

variable {s t u : MatchState}

theorem refl (hs : s.cursor.Over input) : Continues rules input may s s :=
  ⟨hs, [], .nil may, (List.append_nil _).symm⟩

theorem trans (hst : Continues rules input may s t) (htu : Continues rules input may t u) :
    Continues rules input may s u := by
  obtain ⟨log, hlog, ht⟩ := hst.recorded
  obtain ⟨log', hlog', hu⟩ := htu.recorded
  refine ⟨htu.inside, log ++ log', hlog.append hlog', ?_⟩
  rw [hu, ht, List.append_assoc]

/-- Going back takes no record back. -/
theorem backAt (h : Continues rules input may s t) (hs : u.cursor.Over input) :
    Continues rules input may s (t.backAt u.cursor.pos) :=
  ⟨h.inside.jump hs, h.recorded⟩

/-- An event of another kind is no record. -/
theorem push (h : Continues rules input may s t) {event : Event}
    (hevent : event.severity ≠ .trace) :
    Continues rules input may s { t with events := t.events.push event } := by
  obtain ⟨log, hlog, ht⟩ := h.recorded
  refine ⟨h.inside, log, hlog, ?_⟩
  rw [traceOf_push, if_neg hevent, List.append_nil, ht]

end MatchState.Continues

namespace Matcher

/-- Whether it matches or not, the matcher records complete calls only. -/
def RecordsCalls {α : Type} (rules : List Rule) (input : Bytes) (may : Nat → Prop)
    (m : Matcher α) : Prop :=
  ∀ s : MatchState, s.cursor.Over input →
    Ensures m s (fun _ t => s.Continues rules input may t)
      (fun _ t => s.Continues rules input may t) (fun _ => True)

variable {α : Type} {m : Matcher α} {s start : MatchState}

theorem RecordsCalls.after (hm : RecordsCalls rules input may m)
    (hs : start.Continues rules input may s) :
    Ensures m s (fun _ t => start.Continues rules input may t)
      (fun _ t => start.Continues rules input may t) (fun _ => True) :=
  (hm s hs.inside).mono (fun _ _ ht => hs.trans ht) (fun _ _ ht => hs.trans ht)

theorem terminal_recordsCalls {e : Expr} {width? : Bytes → Option Nat}
    (hwidth : ∀ rest size, width? rest = some size → size ≤ rest.length) :
    RecordsCalls rules input may (terminal e width?) := by
  intro s hs
  rw [ensures_terminal]
  split
  · next span after htake =>
    have hadvances := Cursor.advances_of_take? hwidth hs.pos_le_input htake
    exact ⟨hs.advances hadvances, [], .nil may, (List.append_nil _).symm⟩
  · exact .refl hs

theorem RecordsCalls.many {m : Matcher Value} (hm : RecordsCalls rules input may m)
    {idle : Nat → Event} (hidle : ∀ pos, (idle pos).severity ≠ .trace) (values : List Value) :
    RecordsCalls rules input may (many idle m values) := by
  intro s hs
  refine Ensures.many (fun _ t => s.Continues rules input may t) ?_ (.refl hs)
  intro values t ht
  apply (hm.after ht).mono
  · intro value u hu
    split
    · exact hu
    · exact hu.push (hidle _)
  · intro x u hu
    exact hu.backAt ht.inside

theorem firstOf_recordsCalls {ms : List (Matcher α)}
    (hms : ∀ m ∈ ms, RecordsCalls rules input may m) (empty : Mismatch)
    (best : Option Mismatch) : RecordsCalls rules input may (firstOf empty best ms) := by
  induction ms generalizing best with
  | nil => exact fun s hs => .refl hs
  | cons m ms ih =>
    intro s hs
    rw [ensures_firstOf_cons]
    apply (hms m List.mem_cons_self s hs).mono (fun _ _ ht => ht)
    intro x t ht
    exact (ih (fun m hm => hms m (List.mem_cons_of_mem _ hm)) _).after (ht.backAt hs)

end Matcher

/-! ## What expressions, levels and rules record -/

section Evaluation

variable {call : Nat → Matcher Value}

theorem Expr.Refers.of_part {e part : Expr} {handle : Nat} (h : part.Refers handle)
    (hpart : part ∈ e.children) : e.Refers handle := by
  obtain ⟨ref, hoccurs, hhandle⟩ := h
  exact ⟨ref, .inside hpart hoccurs, hhandle⟩

theorem evalParts_recordsCalls {es : List Expr}
    (hes : ∀ e ∈ es, RecordsCalls rules input may (e.eval call)) :
    RecordsCalls rules input may (Expr.evalParts call es) := by
  induction es with
  | nil => exact fun s hs => .refl hs
  | cons e es ih =>
    intro s hs
    rw [Expr.ensures_evalParts_cons]
    apply (hes e List.mem_cons_self s hs).imp_ok
    intro value t ht
    exact (ih fun e he => hes e (List.mem_cons_of_mem _ he)).after ht

/-- What an expression makes of the match of its body is not recorded. -/
theorem wrapped_recordsCalls {e body : Expr} (he : e.wrapped? = some body)
    (hbody : RecordsCalls rules input may (body.eval call)) :
    RecordsCalls rules input may (e.eval call) := by
  intro s hs
  let continued (c : Cursor) (events : Array Event) : Prop :=
    c.Over input ∧ ∃ log, Brackets rules input may log ∧ traceOf events = traceOf s.events ++ log
  have hcontinued : Ensures (body.eval call) s (fun _ t => continued t.cursor t.events)
      (fun _ t => continued t.cursor t.events) (fun _ => True) :=
    (hbody s hs).mono (fun _ _ ht => ⟨ht.inside, ht.recorded⟩)
      fun _ _ ht => ⟨ht.inside, ht.recorded⟩
  have haround := Expr.ensures_wrapped_events he continued (fun _ => continued)
    (fun _ => trivial) hcontinued
  exact haround.mono (fun _ _ ht => ⟨ht.1, ht.2⟩) fun _ _ ht => ⟨ht.1, ht.2⟩

/-- An expression records the calls of the rules it refers to, and nothing else. -/
theorem Expr.eval_recordsCalls {e : Expr}
    (hcalls : ∀ handle, e.Refers handle → RecordsCalls rules input may (call handle)) :
    RecordsCalls rules input may (e.eval call) := by
  induction e using Expr.children_induction with
  | step e ih =>
    have hparts : ∀ part ∈ e.children, RecordsCalls rules input may (part.eval call) := by
      intro part hpart
      exact ih part hpart fun handle href => hcalls handle (href.of_part hpart)
    cases e with
    | literal l => exact terminal_recordsCalls fun _ _ => Literal.width?_le
    | charClass c => exact terminal_recordsCalls fun _ _ => CharClass.width?_le
    | anyChar => exact terminal_recordsCalls anyChar_size_le
    | seq es =>
      intro s hs
      rw [ensures_seq]
      exact evalParts_recordsCalls hparts s hs
    | choice es =>
      intro s hs
      rw [ensures_choice]
      refine firstOf_recordsCalls (fun m hm => ?_) _ _ s hs
      rw [evalEach_eq_map] at hm
      obtain ⟨part, hpart, rfl⟩ := List.mem_map.mp hm
      exact hparts part hpart
    | star e =>
      intro s hs
      rw [ensures_star]
      exact (hparts e List.mem_cons_self).many (fun _ => by simp [Event.severity]) _ s hs
    | plus e =>
      have hbody := hparts e List.mem_cons_self
      intro s hs
      rw [ensures_plus]
      apply (hbody s hs).imp_ok
      intro first t ht
      split
      · exact (hbody.many (fun _ => by simp [Event.severity]) _).after ht
      · exact ht.push (by simp [Event.severity])
    | optional e =>
      intro s hs
      rw [ensures_optional]
      exact (hparts e List.mem_cons_self s hs).mono (fun _ _ ht => ht) fun _ _ ht => ht.backAt hs
    | ahead e =>
      intro s hs
      rw [ensures_ahead]
      exact (hparts e List.mem_cons_self s hs).mono (fun _ _ ht => ht.backAt hs)
        fun _ _ ht => ht.backAt hs
    | notAhead e =>
      intro s hs
      rw [ensures_notAhead]
      exact (hparts e List.mem_cons_self s hs).mono (fun _ _ ht => ht.backAt hs)
        fun _ _ ht => ht.backAt hs
    | discard e | label name e | action e a | slice e | concat e =>
      exact wrapped_recordsCalls rfl (hparts e List.mem_cons_self)
    | rule ref =>
      intro s hs
      rw [ensures_rule]
      cases href : ref.handle? with
      | none => trivial
      | some handle => exact hcalls handle ⟨ref, .self, href⟩ s hs

namespace OperatorLevel

/-- Operators that fail are given up, the calls made for them are recorded all the same. -/
theorem ensures_firstOperator_continues {α : Type} {operators : List (Expr × α)}
    (hops : ∀ e ∈ operators.map Prod.fst, RecordsCalls rules input may (e.eval call))
    {s start : MatchState} (hs : start.Continues rules input may s) :
    Ensures (firstOperator call operators) { s with scope := .empty } (fun found t =>
        Found found (fun _ _ => start.Continues rules input may t)
          (start.Continues rules input may t))
      (fun _ _ => False) (fun _ => True) := by
  refine ensures_firstOperator (fun t => start.Continues rules input may t) ?_
    (fun t ht => ht) ⟨hs.inside, hs.recorded⟩
  intro e a he t ht
  have hop := hops e (List.mem_map_of_mem (f := Prod.fst) he)
  exact (hop.after ht).mono (fun _ _ hu => hu) fun _ _ hu => hu.backAt ht.inside

/-- A level records the calls of its operand, those its operators make, and its own where it
repeats. -/
theorem eval_recordsCalls {self operand : Matcher Value} {level : OperatorLevel}
    (hops : ∀ e ∈ level.exprs, RecordsCalls rules input may (e.eval call))
    (hself : level.repeatsItself = true → RecordsCalls rules input may self)
    (hoperand : RecordsCalls rules input may operand) :
    RecordsCalls rules input may (level.eval call self operand) := by
  intro s hs
  have hstart : s.Continues rules input may s := .refl hs
  cases level with
  | prefixOps operators =>
    apply ensures_prefixOps
    apply (ensures_firstOperator_continues hops hstart).imp_total
    intro found t hfound
    refine hfound.imp (fun op a ht => ?_) fun ht => hoperand.after ⟨ht.inside, ht.recorded⟩
    apply ((hself rfl).after (s := { t with scope := s.scope }) ⟨ht.inside, ht.recorded⟩).imp_ok
    exact fun x u hu => Settled.intro (fun _ _ => hu) fun _ => trivial
  | postfixOps operators =>
    apply ensures_postfixOps (fun _ t => s.Continues rules input may t) (hoperand s hs)
    intro x t ht
    apply (ensures_firstOperator_continues hops ht).imp_total
    intro found u hfound
    refine hfound.imp (fun op a hu => ?_) fun hu => ⟨hu.inside, hu.recorded⟩
    have hback : s.Continues rules input may { u with scope := t.scope } :=
      ⟨hu.inside, hu.recorded⟩
    refine Settled.intro (fun y _ => ?_) fun _ => trivial
    split
    · exact hback
    · exact hback.push (by simp [Event.severity])
  | leftAssoc operators =>
    apply ensures_leftAssoc (fun _ t => s.Continues rules input may t) (hoperand s hs)
    intro left t ht
    apply (ensures_firstOperator_continues hops ht).imp_total
    intro found u hfound
    refine hfound.imp (fun op a hu => ?_) fun hu => ⟨hu.inside, hu.recorded⟩
    apply (hoperand.after (s := { u with scope := t.scope }) ⟨hu.inside, hu.recorded⟩).imp_ok
    intro right w hw
    refine Settled.intro (fun y _ => ?_) fun _ => trivial
    split
    · exact hw
    · exact hw.push (by simp [Event.severity])
  | rightAssoc operators =>
    apply ensures_rightAssoc
    apply (hoperand s hs).imp_ok
    intro left t ht
    apply (ensures_firstOperator_continues hops ht).imp_total
    intro found u hfound
    refine hfound.imp (fun op a hu => ?_) fun hu => ⟨hu.inside, hu.recorded⟩
    apply ((hself rfl).after (s := { u with scope := t.scope }) ⟨hu.inside, hu.recorded⟩).imp_ok
    exact fun right w hw => Settled.intro (fun _ _ => hw) fun _ => trivial

end OperatorLevel

/-- The body of a rule records the calls that a call of the rule may make itself. -/
theorem Rule.evalBody_recordsCalls {rule : Rule} {handle : Nat}
    (hcalls : ∀ callee, rule.MayCall handle callee → RecordsCalls rules input may (call callee)) :
    RecordsCalls rules input may (rule.evalBody call handle) := by
  unfold MayCall at hcalls
  unfold evalBody
  cases hbody : rule.body with
  | expr e =>
    rw [hbody] at hcalls
    exact Expr.eval_recordsCalls hcalls
  | precedence levels =>
    cases levels with
    | nil => exact fun s hs => trivial
    | cons first rest =>
      rw [hbody] at hcalls
      exact hcalls first rfl
  | level operators operand =>
    simp only [hbody] at hcalls
    refine OperatorLevel.eval_recordsCalls (fun e he => ?_) (fun hrepeats => ?_) ?_
    · exact Expr.eval_recordsCalls fun callee href => hcalls callee (Or.inr (Or.inr ⟨e, he, href⟩))
    · exact hcalls handle (Or.inr (Or.inl ⟨hrepeats, rfl⟩))
    · exact hcalls operand (Or.inl rfl)

end Evaluation

/-! ## What a call records -/

/-- Between the two states there are the records of one call, which ended so. -/
structure MatchState.Calls (rules : List Rule) (input : Bytes) (handle : Nat) (ending : CallEnd)
    (s t : MatchState) : Prop where
  inside : t.cursor.Over input
  recorded : ∃ log, Bracket rules input handle s.cursor.pos ending log ∧
    traceOf t.events = traceOf s.events ++ log

theorem MatchState.Calls.continues {handle : Nat} {ending : CallEnd} {s t : MatchState}
    (h : s.Calls rules input handle ending t) (hmay : may handle) :
    s.Continues rules input may t := by
  obtain ⟨log, hlog, ht⟩ := h.recorded
  exact ⟨h.inside, log, hlog.single hmay, ht⟩

/-- Between the two states there are the beginning of a call of the rule, the records of calls
that it may make itself, and its end. -/
def MatchState.Encloses (rules : List Rule) (input : Bytes) (handle : Nat) (ending : CallEnd)
    (s t : MatchState) : Prop :=
  ∃ rule inner, rules[handle]? = some rule ∧ Brackets rules input (rule.MayCall handle) inner ∧
    traceOf t.events = traceOf s.events ++
      .entered rule.name s.cursor.pos :: (inner ++ [ending.record rule.name s.cursor.pos])

theorem MatchState.Continues.encloses {rule : Rule} {handle : Nat} {s t : MatchState}
    (hrule : rules[handle]? = some rule) (ending : CallEnd)
    (h : MatchState.Continues rules input (rule.MayCall handle)
      ⟨s.cursor, .empty, s.events.push (.entered rule.name s.cursor.pos)⟩ t) :
    s.Encloses rules input handle ending
      ⟨t.cursor, s.scope, t.events.push (ending.record rule.name s.cursor.pos)⟩ := by
  obtain ⟨inner, hinner, ht⟩ := h.recorded
  have hrecord : (ending.record rule.name s.cursor.pos).severity = .trace := by
    cases ending <;> rfl
  refine ⟨rule, inner, hrule, hinner, ?_⟩
  rw [traceOf_push, if_pos hrecord, ht, traceOf_push]
  simp [Event.severity]

/-- A call that comes to an end has recorded its beginning, complete calls, and its end. -/
theorem callRule_calls (rules : List Rule) (input : Bytes) (depth handle : Nat) {s : MatchState}
    (hs : s.cursor.Over input) :
    Ensures (callRule rules depth handle) s
      (fun _ t => s.Calls rules input handle (.matched t.cursor.pos) t)
      (fun x t => s.Calls rules input handle (.failed x.pos) t) (fun _ => True) := by
  induction depth generalizing handle s with
  | zero => trivial
  | succ depth ih =>
    have hencloses : Ensures (callRule rules (depth + 1) handle) s
        (fun _ t => s.Encloses rules input handle (.matched t.cursor.pos) t)
        (fun x t => s.Encloses rules input handle (.failed x.pos) t) (fun _ => True) := by
      rw [ensures_callRule_succ]
      split
      · trivial
      · next rule hrule =>
        have hbody : RecordsCalls rules input (rule.MayCall handle)
            (rule.evalBody (callRule rules depth) handle) := by
          refine rule.evalBody_recordsCalls fun callee hmay t ht => ?_
          exact (ih callee ht).mono (fun _ _ hu => hu.continues hmay)
            fun _ _ hu => hu.continues hmay
        exact (hbody ⟨s.cursor, .empty, _⟩ hs).mono
          (fun _ t ht => ht.encloses hrule (.matched t.cursor.pos))
          fun x _ ht => ht.encloses hrule (.failed x.pos)
    -- the end that is recorded is that of the call, which the cursor tells
    have hbounds := callRule_inBounds rules (depth + 1) handle s hs.pos_le_input
    apply ((hencloses.also hbounds).also (Ensures.run_eq _ s)).mono
    · rintro v t ⟨⟨⟨rule, inner, hrule, hinner, ht⟩, hadvances⟩, hrun⟩
      have hover := hs.advances hadvances
      have hends : Rule.EndsSo rules input handle s.cursor.pos (.matched t.cursor.pos) :=
        ⟨depth + 1, s, hs.input_eq, rfl, .of_run_ok hrun rfl⟩
      exact ⟨hover, _, .call hrule hadvances.pos_le hover.pos_le hends hinner, ht⟩
    · rintro x t ⟨⟨⟨rule, inner, hrule, hinner, ht⟩, hadvances, hwithin⟩, hrun⟩
      have hlength : x.pos ≤ input.length := by
        rw [← hs.input_eq]
        exact hwithin.le_length
      have hends : Rule.EndsSo rules input handle s.cursor.pos (.failed x.pos) :=
        ⟨depth + 1, s, hs.input_eq, rfl, .of_run_mismatch hrun rfl⟩
      exact ⟨hs.advances hadvances, _, .call hrule hwithin.start_le hlength hends hinner, ht⟩

/-- The trace of a parse. -/
def Run.trace (run : Run) : List Event :=
  traceOf run.events

theorem Matcher.exists_of_runOn_ok {m : Matcher Value} {cursor : Cursor} {v : Value}
    (h : (m.runOn cursor).outcome = .ok v) :
    ∃ t, EStateM.run m ⟨cursor, .empty, #[]⟩ = .ok v t ∧
      m.runOn cursor = ⟨.ok v, t.cursor, t.events⟩ := by
  unfold runOn at h ⊢
  unfold EStateM.run
  cases hrun : m ⟨cursor, .empty, #[]⟩ with
  | ok value t =>
    rw [hrun] at h
    obtain rfl := Except.ok.inj h
    exact ⟨t, rfl, rfl⟩
  | error interrupt t =>
    rw [hrun] at h
    cases h

theorem Matcher.exists_of_runOn_mismatch {m : Matcher Value} {cursor : Cursor} {x : Mismatch}
    (h : (m.runOn cursor).outcome = .error (.mismatch x)) :
    ∃ t, EStateM.run m ⟨cursor, .empty, #[]⟩ = .error (.mismatch x) t ∧
      m.runOn cursor = ⟨.error (.mismatch x), t.cursor, t.events⟩ := by
  unfold runOn at h ⊢
  unfold EStateM.run
  cases hrun : m ⟨cursor, .empty, #[]⟩ with
  | ok value t =>
    rw [hrun] at h
    cases h
  | error interrupt t =>
    rw [hrun] at h
    obtain rfl := Except.error.inj h
    exact ⟨t, rfl, rfl⟩

/-- The trace of a parse that comes to an end, from any rule of a grammar and any position of
the input: it is the bracket of the rule that the parse began with, and reports what the parse
came to. -/
theorem parse_traces_one_bracket (grammar : Grammar) (handle : Nat) {cursor : Cursor}
    (hcursor : cursor.pos ≤ cursor.input.length) :
    (∀ v, (grammar.parseHandle handle cursor).outcome = .ok v →
      Bracket grammar.rules cursor.input handle cursor.pos
        (.matched (grammar.parseHandle handle cursor).cursor.pos)
        (grammar.parseHandle handle cursor).trace) ∧
    ∀ x, (grammar.parseHandle handle cursor).outcome = .error (.mismatch x) →
      Bracket grammar.rules cursor.input handle cursor.pos (.failed x.pos)
        (grammar.parseHandle handle cursor).trace := by
  have hcalls := callRule_calls grammar.rules cursor.input (grammar.callDepth cursor) handle
    (s := ⟨cursor, .empty, #[]⟩) ⟨rfl, hcursor⟩
  unfold Grammar.parseHandle
  constructor
  · intro v houtcome
    obtain ⟨t, hrun, heq⟩ := exists_of_runOn_ok houtcome
    obtain ⟨log, hlog, ht⟩ := (hcalls.of_ok hrun).recorded
    rw [heq, Run.trace, ht]
    exact hlog
  · intro x houtcome
    obtain ⟨t, hrun, heq⟩ := exists_of_runOn_mismatch houtcome
    obtain ⟨log, hlog, ht⟩ := (hcalls.of_mismatch hrun).recorded
    rw [heq, Run.trace, ht]
    exact hlog

/-- On `a` the first alternative of `A <- B / "a"` calls a rule that fails, and the call stays on
record when it is given up. -/
theorem parse_traces_one_bracket_of_failed_alternative :
    let rules : List Rule :=
      [⟨"A", .plain, .expr (.choice [.rule ⟨"B", some 1⟩, .literal (.exact [0x61])])⟩,
        ⟨"B", .plain, .expr (.literal (.exact [0x62]))⟩]
    let grammar : Grammar := ⟨none, rules, 0, by decide⟩
    let cursor : Cursor := .start [0x61]
    let records : List Event :=
      [.entered "A" 0, .entered "B" 0, .failed "B" 0, .matched "A" 0 1]
    cursor.pos ≤ cursor.input.length ∧ (grammar.parseHandle 0 cursor).trace = records ∧
      Bracket rules [0x61] 0 0 (.matched 1) records := by
  intro rules grammar cursor records
  have hcursor : cursor.pos ≤ cursor.input.length := by decide
  have htrace : (grammar.parseHandle 0 cursor).trace = records := rfl
  refine ⟨hcursor, htrace, ?_⟩
  rw [← htrace]
  exact (parse_traces_one_bracket grammar 0 hcursor).1 _ rfl

end Peg
