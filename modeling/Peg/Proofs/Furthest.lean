import Mathlib.Logic.Relation
import Mathlib.Order.Bounds.Defs
import Peg.Parse
import Peg.Proofs.Matcher.Bounds

/-!
Where a cursor has been. A cursor keeps one number beside its position, and that number is
brought up to date only when the cursor goes back; yet the furthest position that can be read
off the two is always the greatest that the cursor has ever had. All that is matched counts,
also what was matched ahead or in an alternative that was given up: the positions that a run
visits are put together from those of its steps, and no step takes the cursor anywhere without
leaving a trace in the two numbers.
-/

namespace Peg

/-- From the one cursor, through these positions, the other was reached: it is at the last of
them, and its furthest position is the greatest of them and of the furthest before. -/
structure Cursor.Travelled (before : Cursor) (visited : List Nat) (after : Cursor) : Prop where
  input_eq : after.input = before.input
  pos_eq : after.pos = visited.getLast?.getD before.pos
  furthest_eq : after.furthest = visited.foldl max before.furthest

namespace Cursor.Travelled

variable {a b c : Cursor} {first second : List Nat}

theorem refl (a : Cursor) : a.Travelled [] a :=
  ⟨rfl, rfl, rfl⟩

theorem trans (hab : a.Travelled first b) (hbc : b.Travelled second c) :
    a.Travelled (first ++ second) c := by
  refine ⟨hbc.input_eq.trans hab.input_eq, ?_, ?_⟩
  · rw [hbc.pos_eq, hab.pos_eq, List.getLast?_append]
    cases second.getLast? <;> rfl
  · rw [hbc.furthest_eq, hab.furthest_eq, List.foldl_append]

theorem advance (a : Cursor) (size : Nat) :
    a.Travelled [(a.advance size).pos] (a.advance size) :=
  ⟨rfl, rfl, a.furthest_advance size⟩

theorem jump (a : Cursor) (pos : Nat) : a.Travelled [pos] (a.jump pos) :=
  ⟨rfl, rfl, a.furthest_jump pos⟩

theorem take {width? : Bytes → Option Nat} {span : Span}
    (h : a.take? width? = some (span, b)) : a.Travelled [b.pos] b := by
  obtain ⟨size, -, heq⟩ := Option.map_eq_some_iff.mp h
  obtain ⟨-, rfl⟩ := Prod.mk.inj heq
  exact advance a size

end Cursor.Travelled

namespace Matcher

/-! ## The positions that a run visits -/

/-- The run of the matcher from the state takes the cursor to these positions, one after
another. Taking bytes moves it on, and going back moves it back; nothing else moves it. What was
visited stays so when a mismatch is handled, and when a run is cut short. -/
inductive Visits : {α : Type} → Matcher α → MatchState → List Nat → Prop
  | pure {α : Type} (a : α) (s : MatchState) : Visits (pure a) s []
  | throw {α : Type} (interrupt : Interrupt) (s : MatchState) :
    Visits (throw interrupt : Matcher α) s []
  | get (s : MatchState) : Visits get s []
  | note (event : Event) (s : MatchState) : Visits (note event) s []
  | bindName (name : String) (value : Value) (s : MatchState) : Visits (bindName name value) s []
  | take (e : Expr) {width? : Bytes → Option Nat} {s : MatchState} {span : Span} {after : Cursor}
    (h : s.cursor.take? width? = some (span, after)) : Visits (terminal e width?) s [after.pos]
  | refuse (e : Expr) {width? : Bytes → Option Nat} {s : MatchState}
    (h : s.cursor.take? width? = none) : Visits (terminal e width?) s []
  | rewind (pos : Nat) (s : MatchState) : Visits (rewind pos) s [pos]
  | bind {α β : Type} {m : Matcher α} {f : α → Matcher β} {s t : MatchState} {a : α}
    {first second : List Nat} (hm : Visits m s first) (hrun : EStateM.run m s = .ok a t)
    (hf : Visits (f a) t second) : Visits (m >>= f) s (first ++ second)
  | cut {α β : Type} {m : Matcher α} {s t : MatchState} {interrupt : Interrupt}
    {visited : List Nat} (hm : Visits m s visited)
    (hrun : EStateM.run m s = .error interrupt t) (f : α → Matcher β) :
    Visits (m >>= f) s visited
  | attempt {α : Type} {m : Matcher α} {s : MatchState} {visited : List Nat}
    (hm : Visits m s visited) : Visits (attempt m) s visited
  | withScope {α : Type} {m : Matcher α} {s : MatchState} {scope : Captures}
    {visited : List Nat} (hm : Visits m { s with scope } visited) :
    Visits (withScope scope m) s visited

/-- The cursor that the run of a matcher leaves, however it ends. -/
def cursorAfter {α : Type} (m : Matcher α) (s : MatchState) : Cursor :=
  match EStateM.run m s with
  | .ok _ t | .error _ t => t.cursor

section Ends

variable {α β : Type} {m : Matcher α} {s t : MatchState}

theorem cursorAfter_of_ok {a : α} (h : EStateM.run m s = .ok a t) :
    cursorAfter m s = t.cursor := by
  rw [cursorAfter, h]

theorem cursorAfter_of_error {interrupt : Interrupt}
    (h : EStateM.run m s = .error interrupt t) : cursorAfter m s = t.cursor := by
  rw [cursorAfter, h]

theorem cursorAfter_bind_of_ok {a : α} (h : EStateM.run m s = .ok a t) (f : α → Matcher β) :
    cursorAfter (m >>= f) s = cursorAfter (f a) t := by
  rw [cursorAfter, EStateM.run_bind, h]
  rfl

theorem cursorAfter_bind_of_error {interrupt : Interrupt}
    (h : EStateM.run m s = .error interrupt t) (f : α → Matcher β) :
    cursorAfter (m >>= f) s = t.cursor := by
  rw [cursorAfter, EStateM.run_bind, h]

theorem cursorAfter_attempt : cursorAfter (attempt m) s = cursorAfter m s := by
  rw [cursorAfter, cursorAfter, run_attempt]
  cases EStateM.run m s with
  | ok a t => rfl
  | error interrupt t => cases interrupt <;> rfl

theorem cursorAfter_withScope (scope : Captures) :
    cursorAfter (withScope scope m) s = cursorAfter m { s with scope } := by
  rw [cursorAfter, cursorAfter, run_withScope]
  cases EStateM.run m { s with scope } <;> rfl

end Ends

/-- The positions that a run visits account for the cursor that it leaves. -/
theorem Visits.travelled {α : Type} {m : Matcher α} {s : MatchState} {visited : List Nat}
    (h : Visits m s visited) : s.cursor.Travelled visited (cursorAfter m s) := by
  induction h with
  | pure a s => exact .refl s.cursor
  | throw interrupt s => exact .refl s.cursor
  | get s => exact .refl s.cursor
  | note event s => exact .refl s.cursor
  | bindName name value s => exact .refl s.cursor
  | take e h =>
    rw [cursorAfter, run_terminal, h]
    exact .take h
  | refuse e h =>
    rw [cursorAfter, run_terminal, h]
    exact .refl _
  | rewind pos s => exact .jump s.cursor pos
  | bind _ hrun _ hfirst hsecond =>
    rw [cursorAfter_of_ok hrun] at hfirst
    rw [cursorAfter_bind_of_ok hrun]
    exact hfirst.trans hsecond
  | cut _ hrun f ih =>
    rw [cursorAfter_of_error hrun] at ih
    rw [cursorAfter_bind_of_error hrun]
    exact ih
  | attempt _ ih =>
    rw [cursorAfter_attempt]
    exact ih
  | withScope _ ih =>
    rw [cursorAfter_withScope]
    exact ih

/-! ## Every run can be followed -/

/-- From every state there are positions that the run of the matcher visits. -/
def Traceable {α : Type} (m : Matcher α) : Prop :=
  ∀ s, ∃ visited, Visits m s visited

section Traceable

variable {α β : Type} {m : Matcher α}

theorem traceable_pure (a : α) : Traceable (pure a) :=
  fun s => ⟨[], .pure a s⟩

theorem traceable_throw (interrupt : Interrupt) : Traceable (throw interrupt : Matcher α) :=
  fun s => ⟨[], .throw interrupt s⟩

theorem traceable_get : Traceable get :=
  fun s => ⟨[], .get s⟩

theorem traceable_note (event : Event) : Traceable (note event) :=
  fun s => ⟨[], .note event s⟩

theorem traceable_rewind (pos : Nat) : Traceable (rewind pos) :=
  fun s => ⟨[pos], .rewind pos s⟩

theorem traceable_terminal (e : Expr) (width? : Bytes → Option Nat) :
    Traceable (terminal e width?) := by
  intro s
  cases htake : s.cursor.take? width? with
  | some taken => exact ⟨[taken.2.pos], .take e htake⟩
  | none => exact ⟨[], .refuse e htake⟩

theorem Traceable.bind (hm : Traceable m) {f : α → Matcher β} (hf : ∀ a, Traceable (f a)) :
    Traceable (m >>= f) := by
  intro s
  obtain ⟨first, hfirst⟩ := hm s
  cases hrun : EStateM.run m s with
  | ok a t =>
    obtain ⟨second, hsecond⟩ := hf a t
    exact ⟨first ++ second, .bind hfirst hrun hsecond⟩
  | error interrupt t => exact ⟨first, .cut hfirst hrun f⟩

theorem Traceable.map (hm : Traceable m) (f : α → β) : Traceable (f <$> m) := by
  rw [map_eq_pure_bind]
  exact hm.bind fun a => traceable_pure (f a)

theorem traceable_position : Traceable position :=
  traceable_get.bind fun _ => traceable_pure _

theorem traceable_context (captures : Captures) : Traceable (context captures) :=
  traceable_get.bind fun _ => traceable_pure _

theorem traceable_ofFault (result : Except Fault α) : Traceable (ofFault result) := by
  cases result with
  | ok a => exact traceable_pure a
  | error fault => exact traceable_throw (.fault fault)

theorem Traceable.attempt (hm : Traceable m) : Traceable (attempt m) := by
  intro s
  obtain ⟨visited, h⟩ := hm s
  exact ⟨visited, .attempt h⟩

theorem Traceable.withScope (hm : Traceable m) (scope : Captures) :
    Traceable (withScope scope m) := by
  intro s
  obtain ⟨visited, h⟩ := hm { s with scope }
  exact ⟨visited, .withScope h⟩

theorem Traceable.probe (hm : Traceable m) : Traceable (probe m) := by
  refine traceable_position.bind fun start => hm.attempt.bind fun result => ?_
  cases result with
  | ok a => exact traceable_pure _
  | error x => exact (traceable_rewind start).bind fun _ => traceable_pure _

theorem Traceable.survey (hm : Traceable m) : Traceable (survey m) :=
  traceable_position.bind fun start => hm.attempt.bind fun _ =>
    (traceable_rewind start).bind fun _ => traceable_pure _

theorem traceable_firstOf {ms : List (Matcher α)} (hms : ∀ m ∈ ms, Traceable m)
    (empty : Mismatch) (best : Option Mismatch) : Traceable (firstOf empty best ms) := by
  induction ms generalizing best with
  | nil => exact traceable_throw _
  | cons m ms ih =>
    refine (hms m List.mem_cons_self).probe.bind fun result => ?_
    cases result with
    | ok a => exact traceable_pure a
    | error x => exact ih (fun m hm => hms m (List.mem_cons_of_mem _ hm)) _

theorem traceable_iterate {step : α → Matcher (Option α)} (hstep : ∀ a, Traceable (step a))
    (idle : Nat → Event) (a : α) : Traceable (iterate idle step a) := by
  have hwithin (bound : Nat) : ∀ a, Traceable (iterateWithin idle step bound a) := by
    induction bound with
    | zero => exact fun _ => traceable_throw .exhausted
    | succ bound ih =>
      refine fun a => traceable_get.bind fun before => (hstep a).bind fun next => ?_
      cases next with
      | none => exact traceable_pure a
      | some b =>
        refine traceable_get.bind fun after => ?_
        split
        · exact ih b
        · exact (traceable_note _).bind fun _ => traceable_pure b
  exact traceable_get.bind fun s => hwithin _ a

theorem Traceable.many {m : Matcher Value} (hm : Traceable m) (idle : Nat → Event)
    (before : List Value) : Traceable (many idle m before) := by
  refine traceable_iterate (fun values => hm.probe.bind fun result => ?_) idle before
  cases result with
  | ok value => exact traceable_pure _
  | error x => exact traceable_pure _

theorem Traceable.traced {m : Matcher Value} (hm : Traceable m) (rule : String) :
    Traceable (traced rule m) := by
  refine traceable_position.bind fun start => (traceable_note _).bind fun _ =>
    hm.attempt.bind fun result => ?_
  cases result with
  | ok value =>
    exact traceable_position.bind fun stop => (traceable_note _).bind fun _ => traceable_pure _
  | error x => exact (traceable_note _).bind fun _ => traceable_throw _

end Traceable

end Matcher

open Matcher

section Evaluation

variable {call : Nat → Matcher Value}

theorem Expr.evalParts_traceable {es : List Expr} (hes : ∀ e ∈ es, Traceable (e.eval call)) :
    Traceable (evalParts call es) := by
  induction es with
  | nil => exact traceable_pure []
  | cons e es ih =>
    exact (hes e List.mem_cons_self).bind fun value =>
      (ih fun e he => hes e (List.mem_cons_of_mem _ he)).bind fun _ => traceable_pure _

theorem Expr.eval_traceable (hcall : ∀ handle, Traceable (call handle)) (e : Expr) :
    Traceable (e.eval call) := by
  induction e using Expr.parts_induction with
  | literal l => exact traceable_terminal _ _
  | charClass c => exact traceable_terminal _ _
  | anyChar => exact traceable_terminal _ _
  | seq es ih => exact (evalParts_traceable ih).map Value.list
  | choice es ih =>
    refine traceable_position.bind fun start => traceable_firstOf ?_ _ _
    intro m hm
    rw [evalEach_eq_map] at hm
    obtain ⟨e, he, rfl⟩ := List.mem_map.mp hm
    exact ih e he
  | star e ih => exact (ih.many _ _).map Value.list
  | plus e ih =>
    refine traceable_get.bind fun before => ih.bind fun first => traceable_get.bind fun after => ?_
    split
    · exact (ih.many _ _).map Value.list
    · exact (traceable_note _).bind fun _ => traceable_pure _
  | optional e ih =>
    refine traceable_position.bind fun start => ih.probe.bind fun result => ?_
    cases result with
    | ok value => exact traceable_pure _
    | error x => exact traceable_pure _
  | ahead e ih =>
    refine traceable_position.bind fun start => ih.survey.bind fun result => ?_
    cases result with
    | ok value => exact traceable_pure _
    | error x => exact traceable_throw _
  | notAhead e ih =>
    refine traceable_position.bind fun start => ih.survey.bind fun result => ?_
    cases result with
    | ok value => exact traceable_throw _
    | error x => exact traceable_pure _
  | discard e ih => exact ih
  | label name e ih =>
    exact ih.bind fun value => Traceable.bind (fun s => ⟨[], .bindName name value s⟩)
      fun _ => traceable_pure _
  | action e a ih =>
    exact traceable_get.bind fun s => (ih.withScope _).bind fun result =>
      (traceable_context _).bind fun _ => traceable_ofFault _
  | slice e ih =>
    exact traceable_position.bind fun start => ih.bind fun value =>
      (traceable_ofFault _).map Value.token
  | concat e ih =>
    exact traceable_position.bind fun start => ih.bind fun value => traceable_get.bind fun s =>
      (traceable_ofFault _).bind fun content => (traceable_ofFault _).bind fun span =>
        traceable_pure _
  | rule ref =>
    rw [eval]
    split
    · exact hcall _
    · exact traceable_throw _

namespace OperatorLevel

theorem operator_traceable {α : Type} (hcall : ∀ handle, Traceable (call handle))
    (operators : List (Expr × α)) : Traceable (operator call operators) := by
  have hfirst : Traceable (firstOperator call operators) := by
    induction operators with
    | nil => exact traceable_pure none
    | cons operator rest ih =>
      refine (Expr.eval_traceable hcall operator.1).probe.bind fun result => ?_
      cases result with
      | ok value => exact traceable_pure _
      | error x => exact ih
  exact hfirst.withScope _

theorem eval_traceable (hcall : ∀ handle, Traceable (call handle)) {self operand : Matcher Value}
    (hself : Traceable self) (hoperand : Traceable operand) (level : OperatorLevel) :
    Traceable (level.eval call self operand) := by
  cases level with
  | prefixOps operators =>
    refine (operator_traceable hcall operators).bind fun found => ?_
    obtain ⟨found, captures⟩ := found
    cases found with
    | some op => exact hself.bind fun x => (traceable_context _).bind fun _ => traceable_ofFault _
    | none => exact hoperand
  | postfixOps operators =>
    refine hoperand.bind fun x => traceable_iterate (fun x => ?_) _ x
    refine (operator_traceable hcall operators).bind fun found => ?_
    obtain ⟨found, captures⟩ := found
    cases found with
    | some op => exact (traceable_context _).bind fun _ => (traceable_ofFault _).map some
    | none => exact traceable_pure _
  | leftAssoc operators =>
    refine hoperand.bind fun left => traceable_iterate (fun left => ?_) _ left
    refine (operator_traceable hcall operators).bind fun found => ?_
    obtain ⟨found, captures⟩ := found
    cases found with
    | some op =>
      exact hoperand.bind fun right => (traceable_context _).bind fun _ =>
        (traceable_ofFault _).map some
    | none => exact traceable_pure _
  | rightAssoc operators =>
    refine hoperand.bind fun left => (operator_traceable hcall operators).bind fun found => ?_
    obtain ⟨found, captures⟩ := found
    cases found with
    | some op =>
      exact hself.bind fun right => (traceable_context _).bind fun _ => traceable_ofFault _
    | none => exact traceable_pure left

end OperatorLevel

theorem callRule_traceable (rules : List Rule) (depth handle : Nat) :
    Traceable (callRule rules depth handle) := by
  induction depth generalizing handle with
  | zero => exact traceable_throw _
  | succ depth ih =>
    rw [callRule]
    split
    · exact traceable_throw _
    · next rule _ =>
      have hbody : Traceable (rule.evalBody (callRule rules depth) handle) := by
        unfold Rule.evalBody
        split
        · exact Expr.eval_traceable ih _
        · exact ih _
        · exact traceable_throw _
        · exact OperatorLevel.eval_traceable ih (ih handle) (ih _) _
      exact ((hbody.withScope _).bind fun _ => traceable_pure _).traced rule.name

end Evaluation

/-! ## Parses from a cursor -/

/-- What is parsed from a cursor, and what comes of it: an expression by itself, or a grammar
from the rule to start with or from the rule with a name. -/
inductive Parses (cursor : Cursor) : Matcher Value → Run → Prop
  | expr (e : Expr) :
    Parses cursor (e.eval fun handle => throw (.fault (.noGrammar handle))) (e.parse cursor)
  | grammar (g : Grammar) :
    Parses cursor (callRule g.rules (g.callDepth cursor) g.entry) (g.parse cursor)
  | rule {g : Grammar} {name : String} {handle : Nat} {run : Run}
    (hhandle : g.handle? name = some handle) (hrun : g.parseRule name cursor = .ok run) :
    Parses cursor (callRule g.rules (g.callDepth cursor) handle) run

/-- The parse matched, or failed; no rule of use was broken in it, and it went not too deep. -/
def Run.Ends (run : Run) : Prop :=
  match run.outcome with
  | .ok _ | .error (.mismatch _) => True
  | .error _ => False

namespace Parses

variable {cursor : Cursor} {m : Matcher Value} {run : Run}

theorem run_eq (h : Parses cursor m run) : run = m.runOn cursor := by
  cases h with
  | expr e => rfl
  | grammar g => rfl
  | rule hhandle hrun =>
    rw [Grammar.parseRule, hhandle] at hrun
    exact (Except.ok.inj hrun).symm

theorem traceable (h : Parses cursor m run) : Traceable m := by
  cases h with
  | expr e => exact e.eval_traceable fun _ => traceable_throw _
  | grammar g => exact callRule_traceable _ _ _
  | rule _ _ => exact callRule_traceable _ _ _

theorem inBounds (h : Parses cursor m run) : InBounds m := by
  cases h with
  | expr e =>
    refine e.eval_inBounds fun handle s _ => ?_
    rw [ensures_throw]
    trivial
  | grammar g => exact callRule_inBounds _ _ _
  | rule _ _ => exact callRule_inBounds _ _ _

theorem cursor_eq (h : Parses cursor m run) :
    run.cursor = cursorAfter m ⟨cursor, .empty, #[]⟩ := by
  rw [h.run_eq, runOn, cursorAfter, EStateM.run]
  cases m ⟨cursor, .empty, #[]⟩ <;> rfl

theorem advances (h : Parses cursor m run) (hends : run.Ends)
    (hpos : cursor.pos ≤ cursor.input.length) : cursor.Advances run.cursor := by
  have hbounds := h.inBounds ⟨cursor, .empty, #[]⟩ hpos
  rw [h.run_eq] at hends ⊢
  unfold Run.Ends runOn at hends
  unfold Ensures EStateM.run at hbounds
  unfold runOn
  cases hrun : m ⟨cursor, .empty, #[]⟩ with
  | ok value t =>
    rw [hrun] at hbounds
    exact hbounds
  | error interrupt t =>
    rw [hrun] at hbounds hends
    cases interrupt with
    | mismatch x => exact hbounds.1
    | fault fault => exact hends.elim
    | exhausted => exact hends.elim

end Parses

/-! ## A reader in use -/

/-- A reader in use: its cursor, the positions that were saved to go back to, and every position
that the cursor has had since the beginning, in this order. -/
structure Session where
  cursor : Cursor
  saved : List Nat
  held : List Nat

namespace Session

def start (input : Bytes) : Session :=
  ⟨.start input, [], [0]⟩

/-- The cursor goes on to another through these positions. -/
def proceed (session : Session) (visited : List Nat) (after : Cursor) : Session :=
  { session with cursor := after, held := session.held ++ visited }

/-- What can be done with a reader: reading a character, taking a text, going to a position of
the input, saving the position and going back to one that was saved, and parsing. Looking at
the next character changes nothing, and neither does what finds nothing there. -/
inductive Step : Session → Session → Prop
  | look (session : Session) : Step session session
  | next {session : Session} {c : Char} {after : Cursor}
    (h : session.cursor.next? = some (c, after)) : Step session (session.proceed [after.pos] after)
  | consume {session : Session} (l : Literal) {span : Span} {after : Cursor}
    (h : session.cursor.take? l.width? = some (span, after)) :
    Step session (session.proceed [after.pos] after)
  | moveTo {session : Session} {pos : Nat} {after : Cursor}
    (h : session.cursor.moveTo pos = .ok after) : Step session (session.proceed [after.pos] after)
  | save (session : Session) :
    Step session { session with saved := session.cursor.pos :: session.saved }
  | restore {session : Session} {pos : Nat} (h : pos ∈ session.saved) :
    Step session (session.proceed [pos] (session.cursor.jump pos))
  | parse {session : Session} {m : Matcher Value} {run : Run} {visited : List Nat}
    (hparses : Parses session.cursor m run) (hends : run.Ends)
    (hvisits : Visits m ⟨session.cursor, .empty, #[]⟩ visited) :
    Step session (session.proceed visited run.cursor)

/-- The session can come about from the beginning of the input. -/
def Reachable (input : Bytes) (session : Session) : Prop :=
  Relation.ReflTransGen Step (start input) session

/-- What every step keeps: the cursor is at the last position that it has had, and its furthest
position is the greatest of all; that and the saved positions lie in the input. -/
structure Accounted (input : Bytes) (session : Session) : Prop where
  input_eq : session.cursor.input = input
  inInput : session.cursor.InInput
  saved_le : ∀ pos ∈ session.saved, pos ≤ input.length
  last_eq : session.held.getLast? = some session.cursor.pos
  greatest : IsGreatest {pos | pos ∈ session.held} session.cursor.furthest

/-- The greatest of some positions, and of those that come to them. -/
theorem isGreatest_append {held : List Nat} {furthest : Nat}
    (h : IsGreatest {pos | pos ∈ held} furthest) (visited : List Nat) :
    IsGreatest {pos | pos ∈ held ++ visited} (visited.foldl max furthest) := by
  induction visited generalizing held furthest with
  | nil => rwa [List.append_nil]
  | cons pos visited ih =>
    have hmore : IsGreatest {p | p ∈ held ++ [pos]} (max furthest pos) := by
      refine ⟨?_, fun p hp => ?_⟩
      · show max furthest pos ∈ held ++ [pos]
        rw [Nat.max_def]
        split
        · exact List.mem_append_right _ List.mem_cons_self
        · exact List.mem_append_left _ h.1
      · rcases List.mem_append.mp hp with hp | hp
        · exact Nat.le_trans (h.2 hp) (Nat.le_max_left ..)
        · exact List.mem_singleton.mp hp ▸ Nat.le_max_right ..
    have hall := ih hmore
    rwa [List.append_assoc] at hall

namespace Accounted

variable {input : Bytes} {session next : Session}

theorem pos_le (h : session.Accounted input) : session.cursor.pos ≤ session.cursor.input.length :=
  Nat.le_trans session.cursor.pos_le_furthest h.inInput

theorem start (input : Bytes) : (Session.start input).Accounted input :=
  ⟨rfl, .start input, nofun, rfl, List.mem_singleton_self 0,
    fun _ hpos => Nat.le_of_eq (List.mem_singleton.mp hpos)⟩

theorem proceed (h : session.Accounted input) {visited : List Nat} {after : Cursor}
    (htravelled : session.cursor.Travelled visited after) (hinside : after.InInput) :
    (session.proceed visited after).Accounted input := by
  refine ⟨htravelled.input_eq.trans h.input_eq, hinside, h.saved_le, ?_, ?_⟩
  · show (session.held ++ visited).getLast? = some after.pos
    rw [List.getLast?_append, h.last_eq, htravelled.pos_eq]
    cases visited.getLast? <;> rfl
  · show IsGreatest {pos | pos ∈ session.held ++ visited} after.furthest
    rw [htravelled.furthest_eq]
    exact isGreatest_append h.greatest visited

theorem step (h : session.Accounted input) (hstep : session.Step next) :
    next.Accounted input := by
  cases hstep with
  | look => exact h
  | @next _ after hnext =>
    obtain ⟨segment, hfirst, heq⟩ := Option.map_eq_some_iff.mp hnext
    obtain ⟨-, rfl⟩ := Prod.mk.inj heq
    refine h.proceed (.advance _ _) ?_
    have hsize := Utf8.first?_size_le hfirst
    have hpos := h.pos_le
    have hinside := h.inInput
    rw [Cursor.length_remaining] at hsize
    unfold Cursor.InInput at hinside ⊢
    rw [Cursor.furthest_advance, Cursor.advance_input]
    omega
  | consume l htake =>
    exact h.proceed (.take htake)
      (h.inInput.advances (Cursor.advances_of_take? (fun _ _ => Literal.width?_le) h.pos_le htake))
  | @moveTo pos after hmove =>
    refine h.proceed ?_ (h.inInput.moveTo hmove)
    unfold Cursor.moveTo at hmove
    split at hmove
    · obtain rfl := Except.ok.inj hmove
      exact .jump _ pos
    · cases hmove
  | save =>
    refine ⟨h.input_eq, h.inInput, ?_, h.last_eq, h.greatest⟩
    have hpos := h.pos_le
    rw [h.input_eq] at hpos
    exact List.forall_mem_cons.mpr ⟨hpos, h.saved_le⟩
  | @restore pos hsaved =>
    refine h.proceed (.jump _ pos) ?_
    have hpos := h.saved_le pos hsaved
    have hinside := h.inInput
    unfold Cursor.InInput at hinside ⊢
    rw [Cursor.furthest_jump, Cursor.jump_input]
    rw [h.input_eq] at hinside ⊢
    exact Nat.max_le.mpr ⟨hinside, hpos⟩
  | @parse m run visited hparses hends hvisits =>
    have htravelled := hvisits.travelled
    rw [← hparses.cursor_eq] at htravelled
    exact h.proceed htravelled (h.inInput.advances (hparses.advances hends h.pos_le))

end Accounted

theorem Reachable.accounted {input : Bytes} {session : Session} (h : session.Reachable input) :
    session.Accounted input := by
  induction h with
  | refl => exact .start input
  | tail _ hstep ih => exact ih.step hstep

theorem Step.held_isPrefix {session next : Session} (h : session.Step next) :
    session.held <+: next.held := by
  cases h with
  | look => exact List.prefix_rfl
  | save => exact List.prefix_rfl
  | next | consume | moveTo | restore | parse => exact List.prefix_append _ _

/-- Whatever is done with a reader one after another: its position lies in the input and is the
last that it has had; the furthest position that it tells is the greatest of all that it ever
had, also in the course of a parse; and no further step loses any of them or makes the furthest
position less. Every parse that comes to an end is such a step, to where the parse has left the
cursor. -/
theorem furthest_is_greatest_held {input : Bytes} {session : Session}
    (h : session.Reachable input) :
    session.cursor.pos ≤ input.length ∧
    session.held.getLast? = some session.cursor.pos ∧
    IsGreatest {pos | pos ∈ session.held} session.cursor.furthest ∧
    (∀ next, session.Step next →
      session.held <+: next.held ∧ session.cursor.furthest ≤ next.cursor.furthest) ∧
    (∀ m run, Parses session.cursor m run → run.Ends →
      ∃ next, session.Step next ∧ next.cursor = run.cursor) := by
  have haccounted := h.accounted
  have hpos := haccounted.pos_le
  rw [haccounted.input_eq] at hpos
  refine ⟨hpos, haccounted.last_eq, haccounted.greatest, fun next hstep => ?_, ?_⟩
  · have hkept := hstep.held_isPrefix
    have hnext := (haccounted.step hstep).greatest
    exact ⟨hkept, hnext.2 (hkept.subset haccounted.greatest.1)⟩
  · intro m run hparses hends
    obtain ⟨visited, hvisits⟩ := hparses.traceable ⟨session.cursor, .empty, #[]⟩
    exact ⟨_, .parse hparses hends hvisits, rfl⟩

/-- Two characters are matched ahead: the cursor has been at 2 and is back at the beginning. -/
theorem furthest_is_greatest_held_after_lookahead :
    let session : Session := ⟨⟨[0x61, 0x62, 0x63], 0, 2⟩, [], [0, 2, 0]⟩
    session.Reachable [0x61, 0x62, 0x63] ∧ session.cursor.pos = 0 ∧
      IsGreatest {pos | pos ∈ [0, 2, 0]} 2 := by
  intro session
  let l : Literal := .exact [0x61, 0x62]
  let call (handle : Nat) : Matcher Value := throw (.fault (.noGrammar handle))
  let s : MatchState := ⟨.start [0x61, 0x62, 0x63], .empty, #[]⟩
  have hposition : Visits position s [] := .bind (.get s) rfl (.pure _ _)
  have htake : s.cursor.take? l.width? = some (⟨0, 2, by decide⟩, s.cursor.advance 2) := rfl
  have hliteral : Visits (terminal (.literal l) l.width?) s [2] := .take _ htake
  have hsurvey : Visits (survey ((Expr.literal l).eval call)) s [2, 0] :=
    .bind hposition rfl (.bind (.attempt hliteral) rfl (.bind (.rewind 0 _) rfl (.pure _ _)))
  have hvisits : Visits ((Expr.ahead (.literal l)).eval call) s [2, 0] :=
    .bind hposition rfl (.bind hsurvey rfl (.pure _ _))
  have hreachable : session.Reachable [0x61, 0x62, 0x63] :=
    .single (.parse (.expr (.ahead (.literal l))) trivial hvisits)
  exact ⟨hreachable, rfl, (furthest_is_greatest_held hreachable).2.2.1⟩

end Session

end Peg
