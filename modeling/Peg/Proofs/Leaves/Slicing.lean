import Peg.Proofs.Matcher.Counterparts
import Peg.Proofs.Leaves.Order

/-!
Slices of what actions have made. An action may put the tokens it was given in another order,
leave some out, or make up new ones inside what was matched for it. Then all that is left of
the order of tokens is that those of a value lie inside what was matched for the value. A slice
goes from the start of the first to the end of the last of them: that is a span unless the last
one ends before the first begins. Put together in the order of the input, values whose tokens do
not run backward give values whose tokens do not; so it is enough that actions make none that do.
-/

namespace Peg

open Matcher

/-! ## Spans inside a stretch of the input -/

/-- The last of the spans does not end before the first begins. -/
def RunForward (spans : List Span) : Prop :=
  ∀ first ∈ spans.head?, ∀ last ∈ spans.getLast?, first.start ≤ last.stop

/-- The spans lie between the positions and, where that is asked for, do not run backward. -/
structure LieInside (forward : Prop) (start : Nat) (spans : List Span) (stop : Nat) : Prop where
  start_le_stop : start ≤ stop
  within : ∀ span ∈ spans, start ≤ span.start ∧ span.stop ≤ stop
  runForward : forward → RunForward spans

namespace LieInside

variable {forward : Prop} {start mid stop : Nat} {spans front back : List Span}

theorem none (h : start ≤ stop) : LieInside forward start [] stop :=
  ⟨h, by simp, fun _ => by simp [RunForward]⟩

theorem single {span : Span} (hstart : start ≤ span.start) (hstop : span.stop ≤ stop) :
    LieInside forward start [span] stop := by
  have hspan := span.start_le_stop
  exact ⟨by omega, by simp [hstart, hstop], fun _ => by simpa [RunForward] using hspan⟩

theorem widen (h : LieInside forward mid spans stop) (hle : start ≤ mid) :
    LieInside forward start spans stop := by
  refine ⟨Nat.le_trans hle h.start_le_stop, fun span hspan => ?_, h.runForward⟩
  exact ⟨Nat.le_trans hle (h.within span hspan).1, (h.within span hspan).2⟩

/-- Only where all spans come from one of the two parts does it matter how they run there. -/
theorem append (hfront : LieInside forward start front mid)
    (hback : LieInside forward mid back stop) :
    LieInside forward start (front ++ back) stop := by
  have hle := hfront.start_le_stop
  have hle' := hback.start_le_stop
  refine ⟨Nat.le_trans hle hle', fun span hspan => ?_, fun hforward => ?_⟩
  · rcases List.mem_append.mp hspan with hspan | hspan
    · have := hfront.within span hspan
      omega
    · have := hback.within span hspan
      omega
  · cases front with
    | nil => simpa using hback.runForward hforward
    | cons first front =>
      by_cases hnil : back = []
      · simpa [hnil] using hfront.runForward hforward
      · intro first' hfirst last hlast
        obtain rfl : first = first' := by simpa using hfirst
        rw [List.getLast?_append_of_ne_nil _ hnil] at hlast
        have hstop := (hfront.within first List.mem_cons_self).2
        have hstart := (hback.within last (List.mem_of_getLast? hlast)).1
        have hfirst := first.start_le_stop
        have hlast := last.start_le_stop
        omega

end LieInside

namespace Value

variable {v : Value} {start stop : Nat}

/-- Where the spans of a value do not run backward, its extent is a span. -/
theorem extent_of_runForward {forward : Prop} (h : LieInside forward start v.spans stop)
    (hv : RunForward v.spans) :
    ∃ span, v.extent start = .ok span ∧ start ≤ span.start ∧ span.stop ≤ stop := by
  unfold extent
  rw [← spans]
  cases hspans : v.spans with
  | nil => exact ⟨_, rfl, Nat.le_refl _, h.start_le_stop⟩
  | cons first rest =>
    have hlast : v.spans.getLast? = some (rest.getLast?.getD first) := by
      rw [hspans, List.getLast?_cons]
    have hle := hv first (by simp [hspans]) _ hlast
    refine ⟨⟨_, _, hle⟩, Span.between_eq_ok_iff.mpr ⟨rfl, rfl⟩, ?_, ?_⟩
    · exact (h.within first (by simp [hspans])).1
    · exact (h.within _ (List.mem_of_getLast? hlast)).2

theorem extent_of_not_runForward (start : Nat) (hv : ¬ RunForward v.spans) :
    v.extent start = .error .invertedSpan := by
  unfold extent
  rw [← spans]
  unfold RunForward at hv
  cases hspans : v.spans with
  | nil => simp [hspans] at hv
  | cons first rest =>
    have hlt : ¬ first.start ≤ (rest.getLast?.getD first).stop := by
      simpa [hspans, List.getLast?_cons] using hv
    simp [Span.between, hlt]

theorem mem_spans_list_iff {vs : List Value} {span : Span} :
    span ∈ (list vs).spans ↔ ∃ v ∈ vs, span ∈ v.spans := by
  simp only [spans, leaves_list, leavesOfAll_eq_flatMap, List.filterMap_flatMap, List.mem_flatMap]

theorem spans_list_snoc (vs : List Value) (v : Value) :
    (list (vs ++ [v])).spans = (list vs).spans ++ v.spans := by
  simp [spans, leavesOfAll_eq_flatMap]

end Value

/-! ## What actions may do -/

/-- The expression matches from the one state to the other, with nothing bound before but
these names. -/
structure Expr.MatchesFrom (call : Nat → Matcher Value) (names : List String) (e : Expr)
    (s : MatchState) (v : Value) (t : MatchState) : Prop where
  pos_le : s.cursor.pos ≤ s.cursor.input.length
  scope : s.scope.Within names
  run_eq : EStateM.run (e.eval call) s = .ok v t

/-- Whatever the expression of an action matches, the action gives back a value, and the spans
in that lie inside what was matched. Bound before are at most the names that are bound around the
action. -/
def Expr.ActionsStay (forward : Prop) (call : Nat → Matcher Value) (names : List String)
    (e : Expr) : Prop :=
  ∀ body a around, HasAction body a around e →
    ∀ s v t, body.MatchesFrom call (names ++ around.flatMap labels) s v t →
      ∃ w, a.run ⟨t.cursor.input, t.scope⟩ v = .ok w ∧
        LieInside forward s.cursor.pos w.spans t.cursor.pos

/-- The same of the actions of operators: given operands whose spans lie inside what was matched
for them, before and behind the operator. -/
def OperatorLevel.ActionsStay (forward : Prop) (call : Nat → Matcher Value)
    (names : List String) : OperatorLevel → Prop
  | prefixOps ops => ∀ e a, (e, a) ∈ ops → ∀ s op t, e.MatchesFrom call names s op t →
    ∀ x stop, LieInside forward t.cursor.pos x.spans stop → stop ≤ t.cursor.input.length →
      ∃ y, a.run ⟨t.cursor.input, t.scope⟩ (.list [op, x]) x = .ok y ∧
        LieInside forward s.cursor.pos y.spans stop
  | postfixOps ops => ∀ e a, (e, a) ∈ ops → ∀ s op t, e.MatchesFrom call names s op t →
    ∀ x start, LieInside forward start x.spans s.cursor.pos →
      ∃ y, a.run ⟨t.cursor.input, t.scope⟩ (.list [x, op]) x = .ok y ∧
        LieInside forward start y.spans t.cursor.pos
  | leftAssoc ops | rightAssoc ops =>
    ∀ e a, (e, a) ∈ ops → ∀ s op t, e.MatchesFrom call names s op t →
      ∀ left right start stop, LieInside forward start left.spans s.cursor.pos →
        LieInside forward t.cursor.pos right.spans stop → stop ≤ t.cursor.input.length →
        ∃ y, a.run ⟨t.cursor.input, t.scope⟩ (.list [left, op, right]) left right = .ok y ∧
          LieInside forward start y.spans stop

/-- The names that may be bound while an operator of the level is matched. -/
def OperatorLevel.labels (level : OperatorLevel) : List String :=
  level.exprs.flatMap Expr.labels

def RuleBody.ActionsStay (forward : Prop) (call : Nat → Matcher Value) : RuleBody → Prop
  | expr e => e.ActionsStay forward call e.labels
  | precedence _ => True
  | level operators _ =>
    (∀ e ∈ operators.exprs, e.ActionsStay forward call operators.labels) ∧
      operators.ActionsStay forward call operators.labels

theorem Expr.ActionsStay.part {forward : Prop} {call : Nat → Matcher Value} {names : List String}
    {e part : Expr} (h : e.ActionsStay forward call names) (hpart : part ∈ e.scopeParts) :
    part.ActionsStay forward call names :=
  fun body a around haction => h body a around (.inside hpart haction)

theorem Expr.ActionsStay.body {forward : Prop} {call : Nat → Matcher Value} {names : List String}
    {e : Expr} {a : Action} (h : (e.action a).ActionsStay forward call names) :
    e.ActionsStay forward call (names ++ e.labels) := by
  intro inner b around haction s v t hmatch
  refine h inner b (e :: around) (.enclosed haction) s v t ?_
  rwa [List.flatMap_cons, ← List.append_assoc]

/-! ## Evaluation -/

/-- The cursor is over the input, and nothing is bound but these names. -/
structure MatchState.Binds (input : Bytes) (names : List String) (s : MatchState) : Prop where
  inside : s.cursor.Over input
  scope : s.scope.Within names

theorem MatchState.Binds.backAt {input : Bytes} {names : List String} {s t : MatchState}
    (ht : t.Binds input names) (hs : s.cursor.Over input) :
    (t.backAt s.cursor.pos).Binds input names :=
  ⟨ht.inside.jump hs, ht.scope⟩

/-- A fault, if it is one, is about a rule, or about a slice that runs backward. -/
def Interrupt.SparesForward (forward : Prop) (interrupt : Interrupt) : Prop :=
  ∀ fault, interrupt = .fault fault →
    fault.isAboutRule = true ∨ (fault = .invertedSpan ∧ ¬ forward)

theorem Interrupt.SparesForward.fault {forward : Prop} {fault : Fault}
    (h : fault.isAboutRule = true) : SparesForward forward (.fault fault) := by
  intro other heq
  cases heq
  exact Or.inl h

namespace Matcher

/-- Where the matcher matches, the spans of its value lie inside what it matched. -/
def StaysInside (forward : Prop) (input : Bytes) (names : List String) (m : Matcher Value) :
    Prop :=
  ∀ s : MatchState, s.Binds input names →
    Ensures m s
      (fun v t => t.Binds input names ∧ LieInside forward s.cursor.pos v.spans t.cursor.pos)
      (fun _ t => t.Binds input names) (Interrupt.SparesForward forward)

variable {forward : Prop} {input : Bytes} {names : List String} {m : Matcher Value}
  {s : MatchState}

theorem terminal_staysInside {width? : Bytes → Option Nat}
    (hwidth : ∀ rest size, width? rest = some size → size ≤ rest.length) (e : Expr) :
    StaysInside forward input names (terminal e width?) := by
  intro s hs
  rw [ensures_terminal]
  split
  · next span after htake =>
    have hadvances := Cursor.advances_of_take? hwidth hs.inside.pos_le_input htake
    obtain ⟨size, -, heq⟩ := Option.map_eq_some_iff.mp htake
    obtain ⟨rfl, rfl⟩ := Prod.mk.inj heq
    exact ⟨⟨hs.inside.advances hadvances, hs.scope⟩, .single (Nat.le_refl _) (Nat.le_refl _)⟩
  · exact hs

theorem firstOf_staysInside {ms : List (Matcher Value)}
    (hms : ∀ m ∈ ms, StaysInside forward input names m) (empty : Mismatch)
    (best : Option Mismatch) : StaysInside forward input names (firstOf empty best ms) := by
  induction ms generalizing best with
  | nil => exact fun s hs => hs
  | cons m ms ih =>
    intro s hs
    rw [ensures_firstOf_cons]
    apply (hms m List.mem_cons_self s hs).mono (fun _ _ ht => ht)
    intro x t ht
    exact ih (fun m hm => hms m (List.mem_cons_of_mem _ hm)) _ _ (ht.backAt hs.inside)

/-- The values of a repetition, after those before it. -/
theorem StaysInside.many (hm : StaysInside forward input names m) (idle : Nat → Event)
    {start : Nat} {values : List Value} (hs : s.Binds input names)
    (hvalues : LieInside forward start (Value.list values).spans s.cursor.pos) :
    Ensures (many idle m values) s
      (fun values t => t.Binds input names ∧
        LieInside forward start (Value.list values).spans t.cursor.pos)
      (fun _ t => t.Binds input names) (Interrupt.SparesForward forward) := by
  refine Ensures.many (fun values t => t.Binds input names ∧
    LieInside forward start (Value.list values).spans t.cursor.pos) ?_ ⟨hs, hvalues⟩
  rintro values t ⟨ht, hvalues⟩
  apply (hm t ht).mono
  · rintro v u ⟨hu, hv⟩
    have hmore : LieInside forward start (Value.list (values ++ [v])).spans u.cursor.pos := by
      rw [Value.spans_list_snoc]
      exact hvalues.append hv
    split
    · exact ⟨hu, hmore⟩
    · exact ⟨⟨hu.inside, hu.scope⟩, hmore⟩
  · exact fun x u hu => ⟨hu.backAt ht.inside, hvalues⟩

end Matcher

namespace Expr

variable {forward : Prop} {input : Bytes} {names : List String} {call : Nat → Matcher Value}

theorem evalParts_staysInside {es : List Expr}
    (hes : ∀ e ∈ es, StaysInside forward input names (e.eval call)) {s : MatchState}
    (hs : s.Binds input names) :
    Ensures (evalParts call es) s
      (fun values t => t.Binds input names ∧
        LieInside forward s.cursor.pos (Value.list values).spans t.cursor.pos)
      (fun _ t => t.Binds input names) (Interrupt.SparesForward forward) := by
  induction es generalizing s with
  | nil => exact ⟨hs, .none (Nat.le_refl _)⟩
  | cons e es ih =>
    rw [ensures_evalParts_cons]
    apply (hes e List.mem_cons_self s hs).imp_ok
    rintro v t ⟨ht, hv⟩
    apply (ih (fun e he => hes e (List.mem_cons_of_mem _ he)) ht).imp_ok
    rintro values u ⟨hu, hvalues⟩
    refine ⟨hu, ?_⟩
    split
    · exact hvalues.widen hv.start_le_stop
    · rw [Value.spans_list_cons]
      exact hv.append hvalues

/-- The empty token that stands for a match of nothing. -/
theorem lieInside_empty (pos : Nat) :
    LieInside forward pos (Value.token (Span.empty pos)).spans pos :=
  .single (Nat.le_refl _) (Nat.le_refl _)

/-- An expression keeps the spans of its value inside, if its actions do and the rules that it
calls do. -/
theorem eval_staysInside (hcall : ∀ handle names, StaysInside forward input names (call handle))
    {e : Expr} (hnames : e.bound ⊆ names) (he : e.ActionsStay forward call names) :
    StaysInside forward input names (e.eval call) := by
  induction e using children_induction generalizing names with
  | step e ih =>
    have hparts : ∀ part ∈ e.scopeParts, StaysInside forward input names (part.eval call) := by
      intro part hpart
      have hbound := List.Subset.trans (bound_subset_of_mem_scopeParts hpart) hnames
      exact ih part (mem_children_of_mem_scopeParts hpart) hbound (he.part hpart)
    cases e with
    | literal l => exact terminal_staysInside (fun _ _ => Literal.width?_le) _
    | charClass c => exact terminal_staysInside (fun _ _ => CharClass.width?_le) _
    | anyChar => exact terminal_staysInside anyChar_size_le _
    | seq es =>
      intro s hs
      rw [ensures_seq]
      exact evalParts_staysInside hparts hs
    | choice es =>
      intro s hs
      rw [ensures_choice, evalEach_eq_map]
      refine firstOf_staysInside (fun m hm => ?_) _ _ s hs
      obtain ⟨part, hpart, rfl⟩ := List.mem_map.mp hm
      exact hparts part hpart
    | star e =>
      intro s hs
      rw [ensures_star]
      exact (hparts e List.mem_cons_self).many _ hs (.none (Nat.le_refl _))
    | plus e =>
      have hbody := hparts e List.mem_cons_self
      intro s hs
      rw [ensures_plus]
      apply (hbody s hs).imp_ok
      rintro first t ⟨ht, hfirst⟩
      have hvalues : LieInside forward s.cursor.pos (Value.list [first]).spans t.cursor.pos := by
        rw [Value.spans_list_cons]
        exact hfirst.append (.none (Nat.le_refl _))
      split
      · exact hbody.many _ ht hvalues
      · exact ⟨⟨ht.inside, ht.scope⟩, hvalues⟩
    | optional e =>
      intro s hs
      rw [ensures_optional]
      exact (hparts e List.mem_cons_self s hs).mono (fun _ _ ht => ht)
        fun _ _ ht => ⟨ht.backAt hs.inside, lieInside_empty _⟩
    | ahead e =>
      intro s hs
      rw [ensures_ahead]
      exact (hparts e List.mem_cons_self s hs).mono
        (fun _ _ ht => ⟨ht.1.backAt hs.inside, lieInside_empty _⟩) fun _ _ ht => ht.backAt hs.inside
    | notAhead e =>
      intro s hs
      rw [ensures_notAhead]
      exact (hparts e List.mem_cons_self s hs).mono (fun _ _ ht => ht.1.backAt hs.inside)
        fun _ _ ht => ⟨ht.backAt hs.inside, lieInside_empty _⟩
    | discard e => exact hparts e List.mem_cons_self
    | label name e =>
      have hname : name ∈ names := hnames List.mem_cons_self
      intro s hs
      rw [ensures_label]
      apply (hparts e List.mem_cons_self s hs).imp_ok
      exact fun v t ht => ⟨⟨ht.1.inside, ht.1.scope.insert hname v⟩, ht.2⟩
    | action e a =>
      -- what the action encloses is matched in a scope with labels of its own
      have hlabels : e.bound ⊆ names ++ e.labels :=
        fun name hname => List.mem_append_right _ (mem_labels.mpr hname)
      have hbody := ih e List.mem_cons_self hlabels he.body
      intro s hs
      have hinner : s.Binds input (names ++ e.labels) :=
        ⟨hs.inside, hs.scope.mono (List.subset_append_left _ _)⟩
      rw [ensures_action]
      apply ((hbody s hinner).also (Ensures.run_eq _ s)).mono
      · rintro v t ⟨⟨ht, -⟩, hrun⟩
        have hscope : s.scope.Within (names ++ List.flatMap labels []) := by simpa using hs.scope
        obtain ⟨w, hw, hinside⟩ := he e a [] .here s v t ⟨hs.inside.pos_le_input, hscope, hrun⟩
        rw [hw]
        exact ⟨⟨ht.inside, hs.scope⟩, hinside⟩
      · exact fun x t ht => ⟨ht.1.inside, hs.scope⟩
    | slice e =>
      intro s hs
      rw [ensures_slice]
      apply (hparts e List.mem_cons_self s hs).imp_ok
      rintro v t ⟨ht, hv⟩
      by_cases hforward : RunForward v.spans
      · obtain ⟨span, hspan, hstart, hstop⟩ := Value.extent_of_runForward hv hforward
        rw [hspan]
        exact ⟨ht, .single hstart hstop⟩
      · rw [Value.extent_of_not_runForward _ hforward]
        rintro fault ⟨⟩
        exact Or.inr ⟨rfl, fun h => hforward (hv.runForward h)⟩
    | concat e =>
      intro s hs
      rw [ensures_concat]
      apply (hparts e List.mem_cons_self s hs).imp_ok
      rintro v t ⟨ht, hv⟩
      obtain ⟨content, hcontent⟩ := Value.exists_bytes v fun span hspan =>
        Nat.le_trans (hv.within span hspan).2 ht.inside.pos_le_input
      have hspan : t.cursor.spanSince s.cursor.pos =
          .ok ⟨s.cursor.pos, t.cursor.pos, hv.start_le_stop⟩ :=
        Span.between_eq_ok_iff.mpr ⟨rfl, rfl⟩
      rw [hcontent, hspan]
      exact ⟨ht, .single (Nat.le_refl _) (Nat.le_refl _)⟩
    | rule ref =>
      intro s hs
      rw [ensures_rule]
      cases ref.handle? with
      | none => exact .fault rfl
      | some handle => exact hcall handle names s hs

end Expr

namespace OperatorLevel

variable {α : Type} {forward : Prop} {input : Bytes} {names : List String}
  {call : Nat → Matcher Value} {self operand : Matcher Value} {s : MatchState}

/-- The operator that is found has matched from where the search began, and its value lies
inside what it matched. -/
theorem firstOperator_staysInside
    (hcall : ∀ handle names, StaysInside forward input names (call handle))
    {operators : List (Expr × α)} (hbound : ∀ e ∈ operators.map Prod.fst, e.bound ⊆ names)
    (hops : ∀ e ∈ operators.map Prod.fst, e.ActionsStay forward call names)
    (hs : s.cursor.Over input) :
    Ensures (firstOperator call operators) { s with scope := .empty } (fun found t =>
        Found found
          (fun op a => t.cursor.Over input ∧
            LieInside forward s.cursor.pos op.spans t.cursor.pos ∧
            ∃ e u, (e, a) ∈ operators ∧ u.cursor.pos = s.cursor.pos ∧
              e.MatchesFrom call names u op t)
          (t.cursor.Over input ∧ t.cursor.pos = s.cursor.pos))
      (fun _ _ => False) (Interrupt.SparesForward forward) := by
  refine ensures_firstOperator
    (fun t => t.Binds input names ∧ t.cursor.pos = s.cursor.pos) ?_
    (fun t ht => ⟨ht.1.inside, ht.2⟩) ⟨⟨hs, Captures.within_empty names⟩, rfl⟩
  rintro e a hmem t ⟨ht, hpos⟩
  have he : e ∈ operators.map Prod.fst := List.mem_map_of_mem (f := Prod.fst) hmem
  have hstays := Expr.eval_staysInside hcall (hbound e he) (hops e he) t ht
  apply (hstays.also (Ensures.run_eq _ t)).mono
  · rintro op u ⟨⟨hu, hop⟩, hrun⟩
    rw [hpos] at hop
    exact ⟨hu.inside, hop, e, t, hmem, hpos, ht.inside.pos_le_input, ht.scope, hrun⟩
  · exact fun x u hu => ⟨hu.1.backAt ht.inside, hpos⟩

theorem bound_subset_labels {level : OperatorLevel} {e : Expr} (he : e ∈ level.exprs) :
    e.bound ⊆ level.labels :=
  fun _ hname => List.mem_flatMap.mpr ⟨e, he, Expr.mem_labels.mpr hname⟩

/-- A level keeps the spans of its value inside, if its operators and operands do. -/
theorem eval_staysInside (hcall : ∀ handle names, StaysInside forward input names (call handle))
    (hself : StaysInside forward input names self)
    (hoperand : StaysInside forward input names operand) {level : OperatorLevel}
    (hops : ∀ e ∈ level.exprs, e.ActionsStay forward call level.labels)
    (hactions : level.ActionsStay forward call level.labels) :
    StaysInside forward input names (level.eval call self operand) := by
  have hbound : ∀ e ∈ level.exprs, e.bound ⊆ level.labels := fun _ => bound_subset_labels
  generalize level.labels = labels at hops hactions hbound
  intro s hs
  cases level with
  | prefixOps operators =>
    apply ensures_prefixOps
    apply (firstOperator_staysInside hcall hbound hops hs.inside).imp_total
    intro found t hfound
    refine hfound.imp ?_ ?_
    · rintro op a ⟨ht, hop, e, u, hmem, hpos, hmatch⟩
      apply (hself { t with scope := s.scope } ⟨ht, hs.scope⟩).imp_ok
      rintro x w ⟨hw, hx⟩
      obtain ⟨hinput, hlength⟩ := ht.same_input hw.inside
      obtain ⟨y, hy, hinside⟩ := hactions e a hmem u op t hmatch x w.cursor.pos hx hlength
      rw [hinput, hy]
      exact ⟨hw, hpos ▸ hinside⟩
    · rintro ⟨ht, hpos⟩
      rw [← hpos]
      exact hoperand { t with scope := s.scope } ⟨ht, hs.scope⟩
  | postfixOps operators =>
    apply ensures_postfixOps fun x t =>
      t.Binds input names ∧ LieInside forward s.cursor.pos x.spans t.cursor.pos
    · exact hoperand s hs
    rintro x t ⟨ht, hx⟩
    apply (firstOperator_staysInside hcall hbound hops ht.inside).imp_total
    intro found u hfound
    refine hfound.imp ?_ fun hu => ⟨⟨hu.1, ht.scope⟩, hu.2 ▸ hx⟩
    rintro op a ⟨hu, hop, e, w, hmem, hpos, hmatch⟩
    obtain ⟨y, hy, hinside⟩ := hactions e a hmem w op u hmatch x s.cursor.pos (hpos ▸ hx)
    rw [hy]
    change ite _ _ _
    split
    · exact ⟨⟨hu, ht.scope⟩, hinside⟩
    · exact ⟨⟨hu, ht.scope⟩, hinside⟩
  | leftAssoc operators =>
    apply ensures_leftAssoc fun left t =>
      t.Binds input names ∧ LieInside forward s.cursor.pos left.spans t.cursor.pos
    · exact hoperand s hs
    rintro left t ⟨ht, hleft⟩
    apply (firstOperator_staysInside hcall hbound hops ht.inside).imp_total
    intro found u hfound
    refine hfound.imp ?_ fun hu => ⟨⟨hu.1, ht.scope⟩, hu.2 ▸ hleft⟩
    rintro op a ⟨hu, hop, e, v, hmem, hpos, hmatch⟩
    apply (hoperand { u with scope := t.scope } ⟨hu, ht.scope⟩).imp_ok
    rintro right w ⟨hw, hright⟩
    obtain ⟨hinput, hlength⟩ := hu.same_input hw.inside
    obtain ⟨y, hy, hinside⟩ := hactions e a hmem v op u hmatch left right s.cursor.pos
      w.cursor.pos (hpos ▸ hleft) hright hlength
    rw [hinput, hy]
    change ite _ _ _
    split
    · exact ⟨hw, hinside⟩
    · exact ⟨⟨hw.inside, hw.scope⟩, hinside⟩
  | rightAssoc operators =>
    apply ensures_rightAssoc
    apply (hoperand s hs).imp_ok
    rintro left t ⟨ht, hleft⟩
    apply (firstOperator_staysInside hcall hbound hops ht.inside).imp_total
    intro found u hfound
    refine hfound.imp ?_ fun hu => ⟨⟨hu.1, ht.scope⟩, hu.2 ▸ hleft⟩
    rintro op a ⟨hu, hop, e, v, hmem, hpos, hmatch⟩
    apply (hself { u with scope := t.scope } ⟨hu, ht.scope⟩).imp_ok
    rintro right w ⟨hw, hright⟩
    obtain ⟨hinput, hlength⟩ := hu.same_input hw.inside
    obtain ⟨y, hy, hinside⟩ := hactions e a hmem v op u hmatch left right s.cursor.pos
      w.cursor.pos (hpos ▸ hleft) hright hlength
    rw [hinput, hy]
    exact ⟨hw, hinside⟩

end OperatorLevel

section Calls

variable {forward : Prop} {input : Bytes} {names : List String}

theorem Rule.evalBody_staysInside {call : Nat → Matcher Value}
    (hcall : ∀ handle names, StaysInside forward input names (call handle)) (handle : Nat)
    {rule : Rule} (h : rule.body.ActionsStay forward call) {s : MatchState}
    (hs : s.cursor.Over input) (hscope : s.scope = .empty) :
    Ensures (rule.evalBody call handle) s
      (fun v t => t.cursor.Over input ∧ LieInside forward s.cursor.pos v.spans t.cursor.pos)
      (fun _ t => t.cursor.Over input) (Interrupt.SparesForward forward) := by
  have hempty : ∀ names, s.Binds input names := by
    intro names
    refine ⟨hs, ?_⟩
    rw [hscope]
    exact Captures.within_empty names
  have hinside : ∀ {m : Matcher Value} {names : List String}, StaysInside forward input names m →
      Ensures m s
        (fun v t => t.cursor.Over input ∧ LieInside forward s.cursor.pos v.spans t.cursor.pos)
        (fun _ t => t.cursor.Over input) (Interrupt.SparesForward forward) := by
    intro m names hm
    exact (hm s (hempty names)).mono (fun _ _ ht => ⟨ht.1.inside, ht.2⟩) fun _ _ ht => ht.inside
  obtain ⟨name, kind, body⟩ := rule
  match body with
  | .expr e =>
    have hbound : e.bound ⊆ e.labels := fun _ hname => Expr.mem_labels.mpr hname
    exact hinside (Expr.eval_staysInside hcall hbound h)
  | .precedence [] => exact .fault rfl
  | .precedence (first :: _) => exact hinside (hcall first [])
  | .level operators operand =>
    exact hinside (OperatorLevel.eval_staysInside hcall (hcall handle []) (hcall operand [])
      h.1 h.2)

/-- However deep calls may nest, the value of a rule stays inside what the rule matched. -/
theorem callRule_staysInside {rules : List Rule}
    (hrules : ∀ depth, ∀ rule ∈ rules, rule.body.ActionsStay forward (callRule rules depth))
    (input : Bytes) (depth handle : Nat) (names : List String) :
    StaysInside forward input names (callRule rules depth handle) := by
  induction depth generalizing handle names with
  | zero =>
    intro s hs
    rw [ensures_callRule_zero]
    exact nofun
  | succ depth ih =>
    intro s hs
    rw [ensures_callRule_succ]
    split
    · exact .fault rfl
    · next rule hrule =>
      have hstays := hrules depth rule (List.mem_of_getElem? hrule)
      apply (rule.evalBody_staysInside ih handle hstays (s := ⟨s.cursor, .empty, _⟩) hs.inside
        rfl).mono
      · exact fun v t ht => ⟨⟨ht.1, hs.scope⟩, ht.2⟩
      · exact fun x t ht => ⟨ht, hs.scope⟩

/-- An action that gives back spans it was given, in whatever order, keeps them inside. -/
theorem Expr.ActionsStay.action {forward : Prop} {call : Nat → Matcher Value}
    (hcall : ∀ input handle names, StaysInside forward input names (call handle)) {e : Expr}
    {names : List String} (he : e.ActionsStay forward call (names ++ e.labels)) {a : Action}
    (ha : ∀ context v, ∃ w, a.run context v = .ok w ∧ (∀ span ∈ w.spans, span ∈ v.spans) ∧
      (forward → RunForward v.spans → RunForward w.spans)) :
    (e.action a).ActionsStay forward call names := by
  intro body b around haction s v t hmatch
  rcases hasAction_action_iff.mp haction with ⟨rfl, rfl, rfl⟩ | ⟨rest, rfl, hinner⟩
  · have hbinds : s.Binds s.cursor.input (names ++ e.labels) := by
      refine ⟨⟨rfl, hmatch.pos_le⟩, hmatch.scope.mono ?_⟩
      simp
    have hbound : e.bound ⊆ names ++ e.labels :=
      fun name hname => List.mem_append_right _ (mem_labels.mpr hname)
    have hinside := ((eval_staysInside (hcall _) hbound he s hbinds).of_ok hmatch.run_eq).2
    obtain ⟨w, hw, hspans, hforward⟩ := ha ⟨t.cursor.input, t.scope⟩ v
    refine ⟨w, hw, hinside.start_le_stop, ?_, ?_⟩
    · exact fun span hspan => hinside.within span (hspans span hspan)
    · exact fun h => hforward h (hinside.runForward h)
  · refine he body b rest hinner s v t ?_
    rwa [List.append_assoc, ← List.flatMap_cons]

/-- Actions that give back values whose spans lie inside what was matched for the action, in any
order. A slice of what an expression matched fails just if the last of the spans ends before the
first begins; otherwise it is a span inside what was matched. Apart from rules that are not there,
this is the only fault that an evaluation can end in. And if the actions give back no spans that
run backward, there is none: every slice that matches is a span. -/
theorem slice_fails_iff_runs_backward (rules : List Rule) (depth : Nat) {e : Expr}
    {names : List String} (hnames : e.labels ⊆ names) {s : MatchState}
    (hs : s.cursor.pos ≤ s.cursor.input.length) (hscope : s.scope.Within names) :
    ((∀ depth, ∀ rule ∈ rules, rule.body.ActionsStay False (callRule rules depth)) →
      e.ActionsStay False (callRule rules depth) names →
      Ensures (e.eval (callRule rules depth)) s
        (fun v t =>
          (RunForward v.spans → ∃ span,
            EStateM.run (e.slice.eval (callRule rules depth)) s = .ok (.token span) t ∧
            s.cursor.pos ≤ span.start ∧ span.start ≤ span.stop ∧ span.stop ≤ t.cursor.pos) ∧
          (¬ RunForward v.spans →
            EStateM.run (e.slice.eval (callRule rules depth)) s =
              .error (.fault .invertedSpan) t))
        (fun _ _ => True)
        (fun interrupt => ∀ fault, interrupt = .fault fault →
          fault.isAboutRule = true ∨ fault = .invertedSpan)) ∧
    ((∀ depth, ∀ rule ∈ rules, rule.body.ActionsStay True (callRule rules depth)) →
      e.ActionsStay True (callRule rules depth) names →
      Ensures (e.slice.eval (callRule rules depth)) s
        (fun v t => ∃ span, v = .token span ∧
          s.cursor.pos ≤ span.start ∧ span.start ≤ span.stop ∧ span.stop ≤ t.cursor.pos)
        (fun _ _ => True) Interrupt.SparesSpans) := by
  have hbinds : s.Binds s.cursor.input names := ⟨⟨rfl, hs⟩, hscope⟩
  have hbound : e.bound ⊆ names := fun name hname => hnames (Expr.mem_labels.mpr hname)
  constructor
  · intro hrules he
    have hstays := Expr.eval_staysInside (callRule_staysInside hrules s.cursor.input depth)
      hbound he s hbinds
    have hcut := (hstays.also (Ensures.run_eq _ s)).imp_cut
      fun interrupt h fault hfault => (h fault hfault).imp_right And.left
    apply hcut.mono
    · rintro v t ⟨⟨-, hinside⟩, hrun⟩
      rw [Expr.run_slice hrun]
      constructor
      · intro hforward
        obtain ⟨span, hspan, hstart, hstop⟩ := Value.extent_of_runForward hinside hforward
        exact ⟨span, by rw [hspan], hstart, span.start_le_stop, hstop⟩
      · intro hbackward
        rw [Value.extent_of_not_runForward _ hbackward]
    · exact fun _ _ _ => trivial
  · intro hrules he
    have hstays := Expr.eval_staysInside (callRule_staysInside hrules s.cursor.input depth)
      hbound he s hbinds
    have hspares : ∀ interrupt, Interrupt.SparesForward True interrupt → interrupt.SparesSpans :=
      fun interrupt h fault hfault => (h fault hfault).resolve_right fun hnot => hnot.2 trivial
    rw [Expr.ensures_slice]
    apply (hstays.imp_cut hspares).mono
    · rintro v t ⟨-, hinside⟩
      obtain ⟨span, hspan, hstart, hstop⟩ :=
        Value.extent_of_runForward hinside (hinside.runForward trivial)
      rw [hspan]
      exact ⟨span, rfl, hstart, span.start_le_stop, hstop⟩
    · exact fun _ _ _ => trivial

/-- An action that gives back what was matched twice over: the spans are not in the order of the
input, but they do not run backward, and the slice is a span. -/
theorem slice_of_repeated_match :
    let twice : Action := ⟨"twice", [], fun _ v => .ok (.list [v, v])⟩
    let ab : Expr := .seq [.literal (.exact [0x61]), .literal (.exact [0x62])]
    let e : Expr := ab.action twice
    let s : MatchState := ⟨.start [0x61, 0x62], .empty, #[]⟩
    e.labels ⊆ [] ∧ s.cursor.pos ≤ s.cursor.input.length ∧ s.scope.Within [] ∧
      e.ActionsStay True (callRule [] 0) [] ∧
      ∃ v t span, EStateM.run (e.slice.eval (callRule [] 0)) s = .ok v t ∧ v = .token span ∧
        0 ≤ span.start ∧ span.start ≤ span.stop ∧ span.stop ≤ t.cursor.pos := by
  intro twice ab e s
  have hlabels : e.labels ⊆ [] := fun _ hname => by cases hname
  have hs : s.cursor.pos ≤ s.cursor.input.length := by decide
  have hscope : s.scope.Within [] := Captures.within_empty []
  have hrules : ∀ depth, ∀ rule ∈ ([] : List Rule),
      rule.body.ActionsStay True (callRule [] depth) := by simp
  have htwice : ∀ context v, ∃ w, twice.run context v = .ok w ∧
      (∀ span ∈ w.spans, span ∈ v.spans) ∧ (True → RunForward v.spans → RunForward w.spans) := by
    intro context v
    refine ⟨.list [v, v], rfl, by simp [Value.mem_spans_list_iff], fun _ hv => ?_⟩
    have hspans : (Value.list [v, v]).spans = v.spans ++ v.spans := by
      simp [Value.spans, Value.leavesOfAll]
    rw [hspans]
    cases hcons : v.spans with
    | nil => simp [RunForward]
    | cons first rest =>
      rw [hcons] at hv
      unfold RunForward
      rw [List.getLast?_append_of_ne_nil _ (List.cons_ne_nil first rest)]
      exact hv
  have hab : ab.ActionsStay True (callRule [] 0) ([] ++ ab.labels) := by
    intro body a around haction
    simp [ab, Expr.hasAction_iff_of_parts, Expr.scopeParts, Expr.children] at haction
  have he : e.ActionsStay True (callRule [] 0) [] :=
    hab.action (fun input => callRule_staysInside hrules input 0) htwice
  obtain ⟨v, t, hrun⟩ : ∃ v t, EStateM.run (e.slice.eval (callRule [] 0)) s = .ok v t := ⟨_, _, rfl⟩
  obtain ⟨span, hspan, hinside⟩ :=
    ((slice_fails_iff_runs_backward [] 0 hlabels hs hscope).2 hrules he).of_ok hrun
  exact ⟨hlabels, hs, hscope, he, v, t, span, hrun, hspan, hinside⟩

/-- On `abc` an action gives back the three tokens it was given in the opposite order. The last
ends where the second began, and the slice of them fails. -/
theorem slice_of_reversed_match_fails :
    let reversed : Action := ⟨"reversed", [], fun _ v => .ok (match v with
      | .list items => .list items.reverse
      | v => v)⟩
    let abc : Expr := .seq [.literal (.exact [0x61]), .literal (.exact [0x62]),
      .literal (.exact [0x63])]
    let s : MatchState := ⟨.start [0x61, 0x62, 0x63], .empty, #[]⟩
    (abc.action reversed).ActionsStay False (callRule [] 0) [] ∧
      ∃ t, EStateM.run ((abc.action reversed).slice.eval (callRule [] 0)) s =
        .error (.fault .invertedSpan) t := by
  intro reversed abc s
  have hrules : ∀ depth, ∀ rule ∈ ([] : List Rule),
      rule.body.ActionsStay False (callRule [] depth) := by simp
  have hreversed : ∀ context v, ∃ w, reversed.run context v = .ok w ∧
      (∀ span ∈ w.spans, span ∈ v.spans) ∧ (False → RunForward v.spans → RunForward w.spans) := by
    intro context v
    refine ⟨_, rfl, ?_, False.elim⟩
    cases v <;> simp [Value.mem_spans_list_iff]
  have habc : abc.ActionsStay False (callRule [] 0) ([] ++ abc.labels) := by
    intro body a around haction
    simp [abc, Expr.hasAction_iff_of_parts, Expr.scopeParts, Expr.children] at haction
  exact ⟨habc.action (fun input => callRule_staysInside hrules input 0) hreversed, _, rfl⟩

end Calls

end Peg
