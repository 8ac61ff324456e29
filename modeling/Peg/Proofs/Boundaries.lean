import Peg.Proofs.Matcher.Bounds
import Peg.Proofs.Utf8

/-!
Parsing a text never splits a character. Everything that takes bytes takes whole
characters, if its literals are texts; everything else moves the cursor to where it has
been, or puts spans together from where it has been. Actions may give back the spans they
were given in any way, but make up none. So from a boundary between characters every
evaluation comes to a boundary, and the spans of its value begin and end at boundaries.
-/

namespace Peg

open Matcher Utf8

/-! ## Spans of values -/

namespace Value

/-- The spans of the tokens and composites in a value. -/
def spans (v : Value) : List Span :=
  v.leaves.filterMap span?

/-- The positions at which they begin and end. -/
def ends (v : Value) : List Nat :=
  v.spans.flatMap fun span => [span.start, span.stop]

theorem mem_ends_iff {v : Value} {pos : Nat} :
    pos ∈ v.ends ↔ ∃ span ∈ v.spans, pos = span.start ∨ pos = span.stop := by
  simp [ends]

theorem mem_ends_list_iff {vs : List Value} {pos : Nat} :
    pos ∈ (list vs).ends ↔ ∃ v ∈ vs, pos ∈ v.ends := by
  simp only [ends, spans, leaves_list, leavesOfAll_eq_flatMap, List.filterMap_flatMap,
    List.flatMap_assoc, List.mem_flatMap]

/-- All spans in the value lie between boundaries of the input. -/
def OnBoundaries (input : Bytes) (v : Value) : Prop :=
  ∀ pos ∈ v.ends, Boundary input pos

variable {input : Bytes}

theorem OnBoundaries.of_mem_spans {v : Value} (h : v.OnBoundaries input) {span : Span}
    (hspan : span ∈ v.spans) : Boundary input span.start ∧ Boundary input span.stop :=
  ⟨h _ (mem_ends_iff.mpr ⟨span, hspan, Or.inl rfl⟩),
    h _ (mem_ends_iff.mpr ⟨span, hspan, Or.inr rfl⟩)⟩

theorem OnBoundaries.token {span : Span} (hstart : Boundary input span.start)
    (hstop : Boundary input span.stop) : (Value.token span).OnBoundaries input := by
  intro pos hpos
  rcases List.mem_pair.mp hpos with rfl | rfl
  · exact hstart
  · exact hstop

theorem OnBoundaries.composite {composite : Composite}
    (hstart : Boundary input composite.span.start) (hstop : Boundary input composite.span.stop) :
    (Value.composite composite).OnBoundaries input :=
  OnBoundaries.token hstart hstop

theorem onBoundaries_list_iff {vs : List Value} :
    (list vs).OnBoundaries input ↔ ∀ v ∈ vs, v.OnBoundaries input := by
  simp only [OnBoundaries, mem_ends_list_iff]
  constructor
  · exact fun h v hv pos hpos => h pos ⟨v, hv, hpos⟩
  · rintro h pos ⟨v, hv, hpos⟩
    exact h v hv pos hpos

theorem OnBoundaries.nil (input : Bytes) : (list []).OnBoundaries input :=
  fun _ hpos => by cases hpos

theorem OnBoundaries.cons {v : Value} {vs : List Value} (hv : v.OnBoundaries input)
    (hvs : (list vs).OnBoundaries input) : (list (v :: vs)).OnBoundaries input :=
  onBoundaries_list_iff.mpr (List.forall_mem_cons.mpr ⟨hv, onBoundaries_list_iff.mp hvs⟩)

theorem OnBoundaries.snoc {v : Value} {vs : List Value} (hvs : (list vs).OnBoundaries input)
    (hv : v.OnBoundaries input) : (list (vs ++ [v])).OnBoundaries input :=
  onBoundaries_list_iff.mpr (List.forall_mem_append.mpr
    ⟨onBoundaries_list_iff.mp hvs, List.forall_mem_singleton.mpr hv⟩)

/-- The stretch that a value takes up lies between boundaries if its spans do. -/
theorem OnBoundaries.extent {v : Value} (h : v.OnBoundaries input) {start : Nat}
    (hstart : Boundary input start) {span : Span} (hspan : v.extent start = .ok span) :
    (Value.token span).OnBoundaries input := by
  unfold Value.extent at hspan
  rw [← spans] at hspan
  cases hspans : v.spans with
  | nil =>
    rw [hspans] at hspan
    obtain rfl := Except.ok.inj hspan
    exact .token hstart hstart
  | cons first rest =>
    rw [hspans] at hspan
    obtain ⟨hfirst, hlast⟩ := Span.between_eq_ok_iff.mp hspan
    have hmem : rest.getLast?.getD first ∈ v.spans :=
      hspans ▸ List.mem_of_getLast? List.getLast?_cons
    exact .token (hfirst ▸ (h.of_mem_spans (by simp [hspans])).1)
      (hlast ▸ (h.of_mem_spans hmem).2)

/-- The token stands for a stretch of the text: its characters are characters of the text, so
that in particular none of them comes of bytes that are not well-formed. -/
def IsTextOf (text : String) (span : Span) : Prop :=
  ∃ before middle after : String, text = before ++ middle ++ after ∧
    span.start = (encode before).length ∧ (token span).text (encode text) = .ok middle

/-- The text of a token between boundaries is what the text of the input has there. -/
theorem OnBoundaries.exists_text {text : String} {v : Value} (h : v.OnBoundaries (encode text))
    {span : Span} (hleaf : .token span ∈ v.leaves) : IsTextOf text span := by
  have hends := h.of_mem_spans (List.mem_filterMap.mpr ⟨_, hleaf, rfl⟩)
  obtain ⟨before, middle, after, hinput, hstart, hstop⟩ :=
    hends.1.exists_between hends.2 span.start_le_stop
  have hfront : encode text = encodeChars (before ++ middle) ++ encodeChars after := by
    rw [hinput, encodeChars_append]
  have hslice : span.slice (encode text) = .ok (encodeChars middle) := by
    rw [Span.slice, hfront, hstart, hstop, List.take_left, if_pos, encodeChars_append,
      List.drop_left]
    rw [List.length_append]
    exact Nat.le_add_right _ _
  have htext : text = String.ofList (before ++ middle ++ after) := by
    rw [← lossy_encode text, hinput, lossy_encodeChars]
  refine ⟨String.ofList before, String.ofList middle, String.ofList after, ?_, ?_, ?_⟩
  · rw [htext, String.ofList_append, String.ofList_append]
  · rw [encode_ofList, hstart]
  · have hbytes : (Value.token span).bytes (encode text) = .ok (encodeChars middle) := hslice
    rw [Value.text, hbytes]
    exact congrArg Except.ok (lossy_encodeChars middle)

end Value

/-! ## States -/

/-- The cursor is over this input, at a boundary, and was furthest at one. -/
structure Cursor.OnBoundaries (input : Bytes) (cursor : Cursor) : Prop where
  input_eq : cursor.input = input
  pos : Boundary input cursor.pos
  furthest : Boundary input cursor.furthest

namespace Cursor.OnBoundaries

variable {input : Bytes} {cursor after : Cursor}

theorem start (text : String) : (Cursor.start (encode text)).OnBoundaries (encode text) :=
  ⟨rfl, .start text, .start text⟩

theorem jump (h : cursor.OnBoundaries input) {pos : Nat} (hpos : Boundary input pos) :
    (cursor.jump pos).OnBoundaries input := by
  refine ⟨h.input_eq, hpos, ?_⟩
  rw [furthest_jump]
  exact h.furthest.max hpos

/-- Whole characters are taken, and what was taken is a token between boundaries. -/
theorem take? (h : cursor.OnBoundaries input) {width? : Bytes → Option Nat}
    (hwidth : TakesCharacters width?) {span : Span}
    (htake : cursor.take? width? = some (span, after)) :
    (Value.token span).OnBoundaries input ∧ after.OnBoundaries input := by
  obtain ⟨size, hsize, heq⟩ := Option.map_eq_some_iff.mp htake
  obtain ⟨rfl, rfl⟩ := Prod.mk.inj heq
  rw [remaining, h.input_eq] at hsize
  have hstop := h.pos.advance hwidth hsize
  refine ⟨.token h.pos hstop, h.input_eq, hstop, ?_⟩
  rw [furthest_advance]
  exact h.furthest.max hstop

/-- The stretch from a boundary up to the cursor. -/
theorem spanSince (h : cursor.OnBoundaries input) {start : Nat} (hstart : Boundary input start)
    {span : Span} (hspan : cursor.spanSince start = .ok span) :
    Boundary input span.start ∧ Boundary input span.stop := by
  obtain ⟨rfl, hstop⟩ := Span.between_eq_ok_iff.mp hspan
  exact ⟨hstart, hstop ▸ h.pos⟩

end Cursor.OnBoundaries

/-- The spans of the bound values lie between boundaries. -/
def Captures.OnBoundaries (input : Bytes) (scope : Captures) : Prop :=
  ∀ binding ∈ scope.toList, binding.2.OnBoundaries input

theorem Captures.OnBoundaries.empty (input : Bytes) : Captures.empty.OnBoundaries input :=
  fun _ hmem => by cases hmem

theorem Captures.OnBoundaries.insert {input : Bytes} {scope : Captures}
    (h : scope.OnBoundaries input) (name : String) {v : Value} (hv : v.OnBoundaries input) :
    (scope.insert name v).OnBoundaries input := by
  intro binding hmem
  rcases mem_place hmem with rfl | hmem
  · exact hv
  · exact h binding hmem

/-- The positions that an event is about. -/
def Event.positions : Event → List Nat
  | entered _ start => [start]
  | matched _ start stop => [start, stop]
  | failed _ pos | idleBody _ pos | idlePostfixOp pos | idleInfixOp pos => [pos]
  | levelsMade .. | mistake .. | built .. => []

/-- Whatever the state holds of positions are boundaries: where the cursor is and was, what is
bound, and what is on record. -/
structure MatchState.OnBoundaries (input : Bytes) (s : MatchState) : Prop where
  cursor : s.cursor.OnBoundaries input
  scope : s.scope.OnBoundaries input
  events : ∀ event ∈ s.events, ∀ pos ∈ event.positions, Boundary input pos

namespace MatchState.OnBoundaries

variable {input : Bytes} {s t : MatchState}

theorem start {cursor : Cursor} (h : cursor.OnBoundaries input) :
    MatchState.OnBoundaries input ⟨cursor, .empty, #[]⟩ :=
  ⟨h, .empty input, fun _ hmem => absurd hmem (Array.not_mem_empty _)⟩

theorem backAt (ht : t.OnBoundaries input) (hs : s.OnBoundaries input) :
    (t.backAt s.cursor.pos).OnBoundaries input :=
  ⟨ht.cursor.jump hs.cursor.pos, ht.scope, ht.events⟩

theorem withScope (ht : t.OnBoundaries input) {scope : Captures}
    (hscope : scope.OnBoundaries input) : OnBoundaries input { t with scope } :=
  ⟨ht.cursor, hscope, ht.events⟩

theorem noting (ht : t.OnBoundaries input) {event : Event}
    (hevent : ∀ pos ∈ event.positions, Boundary input pos) :
    OnBoundaries input { t with events := t.events.push event } := by
  refine ⟨ht.cursor, ht.scope, fun noted hnoted => ?_⟩
  rcases Array.mem_push.mp hnoted with hnoted | rfl
  · exact ht.events noted hnoted
  · exact hevent

/-- An event about the position of the one state is noted in the other. -/
theorem notingAt (ht : t.OnBoundaries input) (hs : s.OnBoundaries input) {event : Event}
    (hevent : event.positions = [s.cursor.pos]) :
    OnBoundaries input { t with events := t.events.push event } := by
  refine ht.noting fun pos hpos => ?_
  rw [hevent, List.mem_singleton] at hpos
  exact hpos ▸ hs.cursor.pos

end MatchState.OnBoundaries

/-! ## What actions give back -/

/-- The spans of the result begin and end where spans do that the action was given: those of
the values, or those of the bound names. -/
def ActionContext.Supplies (context : ActionContext) (given : List Value)
    (result : Except Fault Value) : Prop :=
  ∀ v, result = .ok v → ∀ pos ∈ v.ends,
    (∃ g ∈ given, pos ∈ g.ends) ∨ ∃ binding ∈ context.captures.toList, pos ∈ binding.2.ends

theorem ActionContext.Supplies.onBoundaries {context : ActionContext} {given : List Value}
    {result : Except Fault Value} (h : context.Supplies given result) {input : Bytes}
    (hgiven : ∀ g ∈ given, g.OnBoundaries input) (hscope : context.captures.OnBoundaries input)
    {v : Value} (hv : result = .ok v) : v.OnBoundaries input := by
  intro pos hpos
  rcases h v hv pos hpos with ⟨g, hg, hmem⟩ | ⟨binding, hbinding, hmem⟩
  · exact hgiven g hg pos hmem
  · exact hscope binding hbinding pos hmem

/-- The action makes up no spans of its own. -/
def Action.ReusesSpans (a : Action) : Prop :=
  ∀ (context : ActionContext) value, context.Supplies [value] (a.run context value)

def UnaryAction.ReusesSpans (a : UnaryAction) : Prop :=
  ∀ (context : ActionContext) parts x, context.Supplies [parts, x] (a.run context parts x)

def BinaryAction.ReusesSpans (a : BinaryAction) : Prop :=
  ∀ (context : ActionContext) parts left right,
    context.Supplies [parts, left, right] (a.run context parts left right)

section Operators

variable {input : Bytes} {context : ActionContext}

/-- The operator stands before its operand or after it. -/
theorem UnaryAction.ReusesSpans.onBoundaries {a : UnaryAction} (h : a.ReusesSpans)
    (hscope : context.captures.OnBoundaries input) {first second x y : Value}
    (hfirst : first.OnBoundaries input) (hsecond : second.OnBoundaries input)
    (hx : x.OnBoundaries input) (hy : a.run context (.list [first, second]) x = .ok y) :
    y.OnBoundaries input := by
  refine (h context _ x).onBoundaries ?_ hscope hy
  simp [Value.onBoundaries_list_iff, hfirst, hsecond, hx]

theorem BinaryAction.ReusesSpans.onBoundaries {a : BinaryAction} (h : a.ReusesSpans)
    (hscope : context.captures.OnBoundaries input) {left op right y : Value}
    (hleft : left.OnBoundaries input) (hop : op.OnBoundaries input)
    (hright : right.OnBoundaries input)
    (hy : a.run context (.list [left, op, right]) left right = .ok y) :
    y.OnBoundaries input := by
  refine (h context _ left right).onBoundaries ?_ hscope hy
  simp [Value.onBoundaries_list_iff, hleft, hop, hright]

end Operators

/-! ## Expressions and rules -/

/-- The literals are texts, and the actions make up no spans. -/
structure Expr.KeepsCharacters (e : Expr) : Prop where
  literals : ∀ l, (literal l).Occurs e → l.Valid
  actions : ∀ body a, (action body a).Occurs e → a.ReusesSpans

theorem Expr.KeepsCharacters.part {e part : Expr} (h : e.KeepsCharacters)
    (hpart : part ∈ e.children) : part.KeepsCharacters :=
  ⟨fun l hl => h.literals l (.inside hpart hl),
    fun body a ha => h.actions body a (.inside hpart ha)⟩

/-- The actions of the operators make up no spans. -/
def OperatorLevel.ActionsReuseSpans : OperatorLevel → Prop
  | prefixOps ops | postfixOps ops => ∀ op ∈ ops, op.2.ReusesSpans
  | leftAssoc ops | rightAssoc ops => ∀ op ∈ ops, op.2.ReusesSpans

def RuleBody.KeepsCharacters : RuleBody → Prop
  | expr e => e.KeepsCharacters
  | precedence _ => True
  | level operators _ =>
    (∀ e ∈ operators.exprs, e.KeepsCharacters) ∧ operators.ActionsReuseSpans

namespace Matcher

/-- From a boundary the matcher comes to a boundary, whether it matches or not, and its value
or its mismatch is at boundaries. -/
def KeepsBoundaries (input : Bytes) (m : Matcher Value) : Prop :=
  ∀ s : MatchState, s.OnBoundaries input →
    Ensures m s (fun v t => v.OnBoundaries input ∧ t.OnBoundaries input)
      (fun x t => Boundary input x.pos ∧ t.OnBoundaries input) (fun _ => True)

variable {input : Bytes} {s : MatchState}

theorem terminal_keepsBoundaries {width? : Bytes → Option Nat} (hwidth : TakesCharacters width?)
    (e : Expr) : KeepsBoundaries input (terminal e width?) := by
  intro s hs
  rw [ensures_terminal]
  split
  · next span after htake =>
    have htaken := hs.cursor.take? hwidth htake
    exact ⟨htaken.1, htaken.2, hs.scope, hs.events⟩
  · exact ⟨hs.cursor.pos, hs⟩

theorem firstOf_keepsBoundaries {ms : List (Matcher Value)}
    (hms : ∀ m ∈ ms, KeepsBoundaries input m) {empty : Mismatch} {best : Option Mismatch}
    (hempty : Boundary input empty.pos) (hbest : ∀ x ∈ best, Boundary input x.pos) :
    KeepsBoundaries input (firstOf empty best ms) := by
  induction ms generalizing best with
  | nil =>
    intro s hs
    rw [ensures_firstOf_nil]
    cases best with
    | none => exact ⟨hempty, hs⟩
    | some x => exact ⟨hbest x rfl, hs⟩
  | cons m ms ih =>
    intro s hs
    rw [ensures_firstOf_cons]
    apply (hms m List.mem_cons_self s hs).mono (fun _ _ ht => ht)
    intro x t ht
    refine ih (fun m hm => hms m (List.mem_cons_of_mem _ hm)) ?_ _ (ht.2.backAt hs)
    intro y hy
    obtain rfl := Option.some.inj hy
    rcases x.mergeInto_eq_or_mem best with heq | hmem
    · rw [heq]
      exact ht.1
    · exact hbest _ hmem

/-- The values of a repetition and those before it. -/
theorem KeepsBoundaries.many {m : Matcher Value} (hm : KeepsBoundaries input m) (e : Expr)
    {values : List Value} (hvalues : (Value.list values).OnBoundaries input)
    (hs : s.OnBoundaries input) :
    Ensures (many (.idleBody e) m values) s
      (fun values t => (Value.list values).OnBoundaries input ∧ t.OnBoundaries input)
      (fun x t => Boundary input x.pos ∧ t.OnBoundaries input) (fun _ => True) := by
  apply Ensures.many fun values t => (Value.list values).OnBoundaries input ∧ t.OnBoundaries input
  · rintro values t ⟨hvalues, ht⟩
    apply (hm t ht).mono
    · rintro value u ⟨hvalue, hu⟩
      have hmore := hvalues.snoc hvalue
      split
      · exact ⟨hmore, hu⟩
      · exact ⟨hmore, hu.notingAt ht rfl⟩
    · exact fun x u hu => ⟨hvalues, hu.2.backAt ht⟩
  · exact ⟨hvalues, hs⟩

end Matcher

namespace Expr

variable {input : Bytes} {call : Nat → Matcher Value}

theorem evalParts_keepsBoundaries {es : List Expr}
    (hes : ∀ e ∈ es, KeepsBoundaries input (e.eval call)) {s : MatchState}
    (hs : s.OnBoundaries input) :
    Ensures (evalParts call es) s
      (fun values t => (Value.list values).OnBoundaries input ∧ t.OnBoundaries input)
      (fun x t => Boundary input x.pos ∧ t.OnBoundaries input) (fun _ => True) := by
  induction es generalizing s with
  | nil => exact ⟨.nil input, hs⟩
  | cons e es ih =>
    rw [ensures_evalParts_cons]
    apply (hes e List.mem_cons_self s hs).imp_ok
    rintro value t ⟨hvalue, ht⟩
    apply (ih (fun e he => hes e (List.mem_cons_of_mem _ he)) ht).imp_ok
    rintro values u ⟨hvalues, hu⟩
    refine ⟨?_, hu⟩
    split
    · exact hvalues
    · exact .cons hvalue hvalues

theorem eval_keepsBoundaries (hcall : ∀ handle, KeepsBoundaries input (call handle)) {e : Expr}
    (he : e.KeepsCharacters) : KeepsBoundaries input (e.eval call) := by
  induction e using Expr.parts_induction with
  | literal l => exact terminal_keepsBoundaries (he.literals l .self).takesCharacters _
  | charClass cls => exact terminal_keepsBoundaries cls.takesCharacters _
  | anyChar => exact terminal_keepsBoundaries takesCharacters_first _
  | seq es ih =>
    intro s hs
    rw [ensures_seq]
    exact evalParts_keepsBoundaries (fun e hmem => ih e hmem (he.part hmem)) hs
  | choice es ih =>
    intro s hs
    rw [ensures_choice, evalEach_eq_map]
    refine firstOf_keepsBoundaries ?_ hs.cursor.pos (fun _ hx => by cases hx) s hs
    intro m hm
    obtain ⟨e, hmem, rfl⟩ := List.mem_map.mp hm
    exact ih e hmem (he.part hmem)
  | star e ih =>
    intro s hs
    rw [ensures_star]
    exact (ih (he.part List.mem_cons_self)).many e (.nil input) hs
  | plus e ih =>
    have hbody := ih (he.part List.mem_cons_self)
    intro s hs
    rw [ensures_plus]
    apply (hbody s hs).imp_ok
    rintro first t ⟨hfirst, ht⟩
    have hvalues : (Value.list [first]).OnBoundaries input := .cons hfirst (.nil input)
    split
    · exact hbody.many e hvalues ht
    · exact ⟨hvalues, ht.notingAt hs rfl⟩
  | optional e ih =>
    intro s hs
    rw [ensures_optional]
    apply (ih (he.part List.mem_cons_self) s hs).mono (fun _ _ ht => ht)
    exact fun x t ht => ⟨.token hs.cursor.pos hs.cursor.pos, ht.2.backAt hs⟩
  | ahead e ih =>
    intro s hs
    rw [ensures_ahead]
    apply (ih (he.part List.mem_cons_self) s hs).mono
    · exact fun v t ht => ⟨.token hs.cursor.pos hs.cursor.pos, ht.2.backAt hs⟩
    · exact fun x t ht => ⟨ht.1, ht.2.backAt hs⟩
  | notAhead e ih =>
    intro s hs
    rw [ensures_notAhead]
    apply (ih (he.part List.mem_cons_self) s hs).mono
    · exact fun v t ht => ⟨hs.cursor.pos, ht.2.backAt hs⟩
    · exact fun x t ht => ⟨.token hs.cursor.pos hs.cursor.pos, ht.2.backAt hs⟩
  | discard e ih => exact ih (he.part List.mem_cons_self)
  | label name e ih =>
    intro s hs
    rw [ensures_label]
    apply (ih (he.part List.mem_cons_self) s hs).imp_ok
    exact fun v t ht => ⟨ht.1, ht.2.withScope (ht.2.scope.insert name ht.1)⟩
  | action e a ih =>
    intro s hs
    rw [ensures_action]
    apply (ih (he.part List.mem_cons_self) s hs).mono
    · rintro v t ⟨hv, ht⟩
      refine Settled.intro (fun result hresult => ⟨?_, ht.withScope hs.scope⟩) fun _ => trivial
      exact (he.actions e a .self _ v).onBoundaries (by simpa using hv) ht.scope hresult
    · exact fun x t ht => ⟨ht.1, ht.2.withScope hs.scope⟩
  | slice e ih =>
    intro s hs
    rw [ensures_slice]
    apply (ih (he.part List.mem_cons_self) s hs).imp_ok
    rintro v t ⟨hv, ht⟩
    exact Settled.intro (fun span hspan => ⟨hv.extent hs.cursor.pos hspan, ht⟩) fun _ => trivial
  | concat e ih =>
    intro s hs
    rw [ensures_concat]
    apply (ih (he.part List.mem_cons_self) s hs).imp_ok
    rintro v t ⟨-, ht⟩
    refine Settled.intro (fun content _ => ?_) fun _ => trivial
    refine Settled.intro (fun span hspan => ⟨?_, ht⟩) fun _ => trivial
    have hends := ht.cursor.spanSince hs.cursor.pos hspan
    exact .composite hends.1 hends.2
  | rule ref =>
    intro s hs
    rw [ensures_rule]
    cases ref.handle? with
    | none => trivial
    | some handle => exact hcall handle s hs

end Expr

namespace OperatorLevel

variable {α : Type} {input : Bytes} {call : Nat → Matcher Value} {self operand : Matcher Value}
  {s : MatchState}

/-- An operator that is found leaves boundaries, and names bound to values at boundaries. -/
theorem firstOperator_keepsBoundaries (hcall : ∀ handle, KeepsBoundaries input (call handle))
    {operators : List (Expr × α)} {reuses : α → Prop}
    (hexprs : ∀ e ∈ operators.map Prod.fst, e.KeepsCharacters)
    (hactions : ∀ op ∈ operators, reuses op.2) (hs : s.OnBoundaries input) :
    Ensures (firstOperator call operators) { s with scope := .empty } (fun found t =>
      Found found (fun op a => reuses a ∧ op.OnBoundaries input ∧ t.OnBoundaries input)
        (t.OnBoundaries input)) (fun _ _ => False) (fun _ => True) := by
  refine ensures_firstOperator (fun t => t.OnBoundaries input) ?_ (fun t ht => ht)
    (hs.withScope (.empty input))
  intro e a hmem t ht
  have he := hexprs e (List.mem_map_of_mem hmem)
  apply (Expr.eval_keepsBoundaries hcall he t ht).mono
  · exact fun op u hu => ⟨hactions _ hmem, hu⟩
  · exact fun x u hu => hu.2.backAt ht

theorem eval_keepsBoundaries (hcall : ∀ handle, KeepsBoundaries input (call handle))
    (hself : KeepsBoundaries input self) (hoperand : KeepsBoundaries input operand)
    {level : OperatorLevel} (hexprs : ∀ e ∈ level.exprs, e.KeepsCharacters)
    (hactions : level.ActionsReuseSpans) :
    KeepsBoundaries input (level.eval call self operand) := by
  intro s hs
  cases level with
  | prefixOps operators =>
    apply ensures_prefixOps
    apply (firstOperator_keepsBoundaries hcall hexprs hactions hs).imp_total
    intro found t hfound
    refine hfound.imp ?_ fun ht => hoperand _ (ht.withScope hs.scope)
    rintro op a ⟨ha, hop, ht⟩
    apply (hself _ (ht.withScope hs.scope)).imp_ok
    rintro x u ⟨hx, hu⟩
    exact Settled.intro (fun y hy => ⟨ha.onBoundaries ht.scope hop hx hx hy, hu⟩)
      fun _ => trivial
  | postfixOps operators =>
    apply ensures_postfixOps fun x t => x.OnBoundaries input ∧ t.OnBoundaries input
    · exact hoperand s hs
    rintro x t ⟨hx, ht⟩
    apply (firstOperator_keepsBoundaries hcall hexprs hactions ht).imp_total
    intro found u hfound
    refine hfound.imp ?_ fun hu => ⟨hx, hu.withScope ht.scope⟩
    rintro op a ⟨ha, hop, hu⟩
    refine Settled.intro (fun y hy => ?_) fun _ => trivial
    have hresult := ha.onBoundaries hu.scope hx hop hx hy
    split
    · exact ⟨hresult, hu.withScope ht.scope⟩
    · exact ⟨hresult, (hu.withScope ht.scope).notingAt ht rfl⟩
  | leftAssoc operators =>
    apply ensures_leftAssoc fun left t => left.OnBoundaries input ∧ t.OnBoundaries input
    · exact hoperand s hs
    rintro left t ⟨hleft, ht⟩
    apply (firstOperator_keepsBoundaries hcall hexprs hactions ht).imp_total
    intro found u hfound
    refine hfound.imp ?_ fun hu => ⟨hleft, hu.withScope ht.scope⟩
    rintro op a ⟨ha, hop, hu⟩
    apply (hoperand _ (hu.withScope ht.scope)).imp_ok
    rintro right w ⟨hright, hw⟩
    refine Settled.intro (fun y hy => ?_) fun _ => trivial
    have hresult := ha.onBoundaries hu.scope hleft hop hright hy
    split
    · exact ⟨hresult, hw⟩
    · exact ⟨hresult, hw.notingAt ht rfl⟩
  | rightAssoc operators =>
    apply ensures_rightAssoc
    apply (hoperand s hs).imp_ok
    rintro left t ⟨hleft, ht⟩
    apply (firstOperator_keepsBoundaries hcall hexprs hactions ht).imp_total
    intro found u hfound
    refine hfound.imp ?_ fun hu => ⟨hleft, hu.withScope ht.scope⟩
    rintro op a ⟨ha, hop, hu⟩
    apply (hself _ (hu.withScope ht.scope)).imp_ok
    rintro right w ⟨hright, hw⟩
    exact Settled.intro (fun y hy => ⟨ha.onBoundaries hu.scope hleft hop hright hy, hw⟩)
      fun _ => trivial

end OperatorLevel

/-! ## Calls -/

theorem Rule.evalBody_keepsBoundaries {input : Bytes} {call : Nat → Matcher Value}
    (hcall : ∀ handle, KeepsBoundaries input (call handle)) (handle : Nat) {rule : Rule}
    (h : rule.body.KeepsCharacters) : KeepsBoundaries input (rule.evalBody call handle) := by
  obtain ⟨name, kind, body⟩ := rule
  match body with
  | .expr e => exact Expr.eval_keepsBoundaries hcall h
  | .precedence [] => exact fun s hs => trivial
  | .precedence (first :: _) => exact hcall first
  | .level operators operand =>
    exact OperatorLevel.eval_keepsBoundaries hcall (hcall handle) (hcall operand) h.1 h.2

theorem callRule_keepsBoundaries {rules : List Rule}
    (hrules : ∀ rule ∈ rules, rule.body.KeepsCharacters) (input : Bytes) (depth handle : Nat) :
    KeepsBoundaries input (callRule rules depth handle) := by
  induction depth generalizing handle with
  | zero => exact fun s hs => trivial
  | succ depth ih =>
    intro s hs
    rw [ensures_callRule_succ]
    split
    · trivial
    · next rule hrule =>
      have hkeeps := hrules rule (List.mem_of_getElem? hrule)
      have hbody := rule.evalBody_keepsBoundaries ih handle hkeeps
      have henter : MatchState.OnBoundaries input
          ⟨s.cursor, .empty, s.events.push (.entered rule.name s.cursor.pos)⟩ :=
        (hs.notingAt hs rfl).withScope (.empty input)
      apply (hbody _ henter).mono
      · rintro v t ⟨hv, ht⟩
        refine ⟨hv, (ht.withScope hs.scope).noting fun pos hpos => ?_⟩
        rcases List.mem_pair.mp hpos with rfl | rfl
        · exact hs.cursor.pos
        · exact ht.cursor.pos
      · rintro x t ⟨hx, ht⟩
        refine ⟨hx, (ht.withScope hs.scope).noting fun pos hpos => ?_⟩
        obtain rfl := List.mem_singleton.mp hpos
        exact hx

/-- Whatever is matched over a text, from a boundary between its characters: no character is
split, by the cursor or by its furthest position, by the value or the mismatch that the match
comes to, by the names it binds, or by what it puts on record. So the text of every token is a
part of the text. -/
theorem evaluation_keeps_boundaries {rules : List Rule}
    (hrules : ∀ rule ∈ rules, rule.body.KeepsCharacters) (depth : Nat) {text : String}
    {s : MatchState} (hs : s.OnBoundaries (encode text)) {m : Matcher Value}
    (hm : (∃ handle, m = callRule rules depth handle) ∨
      ∃ e : Expr, e.KeepsCharacters ∧ m = e.eval (callRule rules depth)) :
    Ensures m s
      (fun v t => t.OnBoundaries (encode text) ∧ v.OnBoundaries (encode text) ∧
        ∀ span, .token span ∈ v.leaves → Value.IsTextOf text span)
      (fun x t => t.OnBoundaries (encode text) ∧ Boundary (encode text) x.pos)
      (fun _ => True) := by
  have hcall := callRule_keepsBoundaries hrules (encode text) depth
  have hkeeps : KeepsBoundaries (encode text) m := by
    rcases hm with ⟨handle, rfl⟩ | ⟨e, he, rfl⟩
    · exact hcall handle
    · exact Expr.eval_keepsBoundaries hcall he
  apply (hkeeps s hs).mono
  · exact fun v t ht => ⟨ht.2, ht.1, fun span hleaf => ht.1.exists_text hleaf⟩
  · exact fun x t ht => ⟨ht.2, ht.1⟩

/-- A rule whose literal ignores case reads the first letter, and an action gives back the
second of the two values. -/
theorem evaluation_keeps_boundaries_of_accents :
    let rest : Action := ⟨"rest", [], fun _ v =>
      match v with
      | .list [_, tail] => .ok tail
      | _ => .ok .nil⟩
    let parts : Expr := .seq [.literal (.ignoringCase (encode "É")), .slice (.plus .anyChar)]
    let rules : List Rule := [⟨"A", .plain, .expr (.action parts rest)⟩]
    let s : MatchState := ⟨.start (encode "É€x"), .empty, #[]⟩
    (∀ rule ∈ rules, rule.body.KeepsCharacters) ∧ s.OnBoundaries (encode "É€x") ∧
      ∃ span t, EStateM.run (callRule rules 1 0) s = .ok (.token span) t ∧
        t.OnBoundaries (encode "É€x") ∧ span.start = 2 ∧ span.stop = 6 ∧
        Value.IsTextOf "É€x" span := by
  intro rest parts rules s
  have hliteral : (Literal.ignoringCase (encode "É")).Valid := Literal.valid_ignoringCase "É"
  have hrest : rest.ReusesSpans := by
    intro context v result hresult pos hpos
    refine Or.inl ⟨v, List.mem_singleton_self v, ?_⟩
    dsimp only [rest] at hresult
    split at hresult
    · obtain rfl := Except.ok.inj hresult
      exact Value.mem_ends_list_iff.mpr ⟨_, by simp, hpos⟩
    · obtain rfl := Except.ok.inj hresult
      cases hpos
  have hrules : ∀ rule ∈ rules, rule.body.KeepsCharacters := by
    intro rule hrule
    obtain rfl := List.mem_singleton.mp hrule
    refine ⟨fun l hl => ?_, fun body a ha => ?_⟩
    · have heq : l = .ignoringCase (encode "É") := by
        simpa [← Expr.mem_postorder_iff_occurs, Expr.postorder, Expr.inner, Expr.postorderAll,
          parts] using hl
      exact heq ▸ hliteral
    · have heq : body = parts ∧ a = rest := by
        simpa [← Expr.mem_postorder_iff_occurs, Expr.postorder, Expr.inner, Expr.postorderAll,
          parts] using ha
      exact heq.2 ▸ hrest
  have hs : s.OnBoundaries (encode "É€x") := .start (.start _)
  have hrun : EStateM.run (callRule rules 1 0) s = .ok (.token ⟨2, 6, by decide⟩)
      ⟨⟨encode "É€x", 6, 6⟩, .empty, #[.entered "A" 0, .matched "A" 0 6]⟩ := by
    have htext : encode "É€x" = [0xC3, 0x89, 0xE2, 0x82, 0xAC, 0x78] := by decide
    have hletter : encode "É" = [0xC3, 0x89] := by decide
    simp only [s, rules, parts, htext, hletter]
    rfl
  -- what the run comes to is known, and need not be found again
  clear_value rules s
  have hend := (evaluation_keeps_boundaries hrules 1 hs (.inl ⟨0, rfl⟩)).of_ok hrun
  exact ⟨hrules, hs, _, _, hrun, hend.1, rfl, rfl, hend.2.2 _ (by simp [Value.leaves])⟩

end Peg
