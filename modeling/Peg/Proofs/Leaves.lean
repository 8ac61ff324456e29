import Peg.Proofs.Boundaries
import Peg.Proofs.Matcher.Faults

/-!
The leaves of a value along the input. What a match puts together lies in the order in
which it was matched: the leaves of a part come before those of the next one, and a part
begins where the last one ended. Carried through every way of matching, this says that
tokens never get out of order, so that the stretch from the first of them to the last is
a span; and where nothing is dropped, neither by a sequence nor by an action, that the
leaves are the input, cut into pieces.
-/

namespace Peg

open Matcher

/-! ## The content of the leaves -/

namespace Value

variable (input : Bytes)

theorem bytesOfAll_append (front back : List Value) :
    bytesOfAll input (front ++ back) =
      (do return (← bytesOfAll input front) ++ (← bytesOfAll input back)) := by
  induction front with
  | nil =>
    rw [List.nil_append, bytesOfAll]
    cases bytesOfAll input back <;> rfl
  | cons v front ih =>
    rw [List.cons_append, bytesOfAll, bytesOfAll, ih]
    simp only [bind_assoc, pure_bind, List.append_assoc]

theorem bytesOfAll_singleton (v : Value) : bytesOfAll input [v] = v.bytes input := by
  rw [bytesOfAll, bytesOfAll]
  cases v.bytes input with
  | error fault => rfl
  | ok content => exact congrArg Except.ok (List.append_nil content)

mutual
/-- A value has the content of its leaves. -/
theorem bytesOfAll_leaves : ∀ v : Value, bytesOfAll input v.leaves = v.bytes input
  | list items => bytesOfAll_leavesOfAll items
  | token _ | composite _ | int _ | float _ | str _ | bool _ | nil | foreign _ =>
    bytesOfAll_singleton input _

theorem bytesOfAll_leavesOfAll :
    ∀ vs : List Value, bytesOfAll input (leavesOfAll vs) = bytesOfAll input vs
  | [] => rfl
  | v :: vs => by
    rw [leavesOfAll, bytesOfAll_append, bytesOfAll_leaves v, bytesOfAll_leavesOfAll vs, bytesOfAll]
end

end Value

/-! ## What a grammar does with values -/

/-- What the expressions of a grammar may do with the values that they match. -/
structure Discipline where
  /-- Sequences may leave out the values of some of their parts. -/
  discards : Prop
  /-- What an action may make of the matched value. -/
  result : Value → Value → Prop

namespace Discipline

/-- Nothing is left out, and actions give back what was matched. -/
def lossless : Discipline :=
  ⟨False, fun matched result => result = matched⟩

/-- Actions give back what was matched, or something in which there is no token and no
composite. -/
def orderly : Discipline :=
  ⟨True, fun matched result => result = matched ∨ result.spans = []⟩

end Discipline

/-- The action gives something back, and that is allowed. -/
def Action.Obeys (a : Action) (D : Discipline) : Prop :=
  ∀ context matched, ∃ v, a.run context matched = .ok v ∧ D.result matched v

def UnaryAction.Obeys (a : UnaryAction) (D : Discipline) : Prop :=
  ∀ context matched x, ∃ v, a.run context matched x = .ok v ∧ D.result matched v

def BinaryAction.Obeys (a : BinaryAction) (D : Discipline) : Prop :=
  ∀ context matched left right,
    ∃ v, a.run context matched left right = .ok v ∧ D.result matched v

structure Expr.Obeys (e : Expr) (D : Discipline) : Prop where
  discards : ∀ es, (seq es).Occurs e → ∀ part ∈ es, part.isDiscard = true → D.discards
  actions : ∀ body a, (action body a).Occurs e → a.Obeys D

theorem Expr.Obeys.part {e part : Expr} {D : Discipline} (h : e.Obeys D)
    (hpart : part ∈ e.children) : part.Obeys D :=
  ⟨fun es hes => h.discards es (.inside hpart hes),
    fun body a ha => h.actions body a (.inside hpart ha)⟩

def OperatorLevel.ActionsObey (D : Discipline) : OperatorLevel → Prop
  | prefixOps ops | postfixOps ops => ∀ op ∈ ops, op.2.Obeys D
  | leftAssoc ops | rightAssoc ops => ∀ op ∈ ops, op.2.Obeys D

/-- The operators and their actions are disciplined. -/
structure OperatorLevel.Obeys (level : OperatorLevel) (D : Discipline) : Prop where
  exprs : ∀ e ∈ level.exprs, e.Obeys D
  actions : level.ActionsObey D

def RuleBody.Obeys (body : RuleBody) (D : Discipline) : Prop :=
  match body with
  | .expr e => e.Obeys D
  | .precedence _ => True
  | .level operators _ => operators.Obeys D

/-! ## Leaves between two positions -/

/-- A way in which the leaves of a value can lie along the input, from one position to
another, kept by all that a disciplined grammar does with values. -/
structure Trail (D : Discipline) (input : Bytes) where
  covers : Nat → List Value → Nat → Prop
  nil : ∀ pos, covers pos [] pos
  append : ∀ {start mid stop front back}, covers start front mid → covers mid back stop →
    covers start (front ++ back) stop
  /-- A token covers the stretch that it stands for. -/
  token : ∀ span : Span, span.stop ≤ input.length → covers span.start [.token span] span.stop
  /-- A value may be left out where the discipline says so. -/
  skip : D.discards → ∀ {start leaves stop}, start ≤ stop → covers start leaves stop →
    covers start [] stop
  /-- So may it be replaced. -/
  replace : ∀ {matched v}, D.result matched v → ∀ {start stop}, start ≤ stop →
    covers start matched.leaves stop → covers start v.leaves stop
  /-- What a value extends over is a span, and covers no more. -/
  extent : ∀ {v : Value} {start stop}, start ≤ stop → stop ≤ input.length →
    covers start v.leaves stop →
    ∃ span, v.extent start = .ok span ∧ covers start [.token span] stop
  /-- A value has content, which covers the same stretch. -/
  content : ∀ {v : Value} {span : Span}, span.stop ≤ input.length →
    covers span.start v.leaves span.stop →
    ∃ bytes, v.bytes input = .ok bytes ∧
      covers span.start [.composite ⟨span, bytes⟩] span.stop

namespace Trail

variable {D : Discipline} {input : Bytes} {T : Trail D input}

/-- Between the two cursors, which are over the input of the trail, lies the value. -/
structure Reaches (T : Trail D input) (start : Cursor) (v : Value) (stop : Cursor) : Prop where
  input_eq : start.input = input
  advances : start.Advances stop
  covers : T.covers start.pos v.leaves stop.pos

namespace Reaches

variable {a b c : Cursor} {v w x : Value} {vs : List Value}

theorem inside (h : T.Reaches a v b) : b.input = input ∧ b.pos ≤ b.input.length :=
  ⟨h.advances.input_eq.trans h.input_eq, h.advances.pos_le_input⟩

theorem here (hinput : a.input = input) (hpos : a.pos ≤ a.input.length) :
    T.Reaches a (.list []) a :=
  ⟨hinput, .refl hpos, T.nil a.pos⟩

theorem cons (hv : T.Reaches a v b) (hvs : T.Reaches b (.list vs) c) :
    T.Reaches a (.list (v :: vs)) c :=
  ⟨hv.input_eq, hv.advances.trans hvs.advances, T.append hv.covers hvs.covers⟩

theorem snoc (hvs : T.Reaches a (.list vs) b) (hv : T.Reaches b v c) :
    T.Reaches a (.list (vs ++ [v])) c := by
  refine ⟨hvs.input_eq, hvs.advances.trans hv.advances, ?_⟩
  have hleaves : (Value.list (vs ++ [v])).leaves = (Value.list vs).leaves ++ v.leaves := by
    simp [Value.leavesOfAll_eq_flatMap]
  rw [hleaves]
  exact T.append hvs.covers hv.covers

/-- A cursor that is where the first one was may stand for it. -/
theorem since (hinput : a.input = input) (hab : a.Advances b) (hpos : b.pos = a.pos)
    (h : T.Reaches b v c) : T.Reaches a v c :=
  ⟨hinput, hab.trans h.advances, hpos ▸ h.covers⟩

/-- So may one that is where the last one was. -/
theorem upTo (h : T.Reaches a v b) (hbc : b.Advances c) (hpos : c.pos = b.pos) :
    T.Reaches a v c :=
  ⟨h.input_eq, h.advances.trans hbc, hpos ▸ h.covers⟩

theorem pair (hv : T.Reaches a v b) (hw : T.Reaches b w c) : T.Reaches a (.list [v, w]) c :=
  hv.cons (hw.cons (.here hw.inside.1 hw.inside.2))

theorem triple {d : Cursor} (hv : T.Reaches a v b) (hw : T.Reaches b w c)
    (hx : T.Reaches c x d) : T.Reaches a (.list [v, w, x]) d :=
  hv.cons (hw.pair hx)

/-- The value that was left out lies before the others. -/
theorem discard (hD : D.discards) (hv : T.Reaches a v b) (hw : T.Reaches b w c) :
    T.Reaches a w c :=
  ⟨hv.input_eq, hv.advances.trans hw.advances,
    T.append (T.skip hD hv.advances.pos_le hv.covers) hw.covers⟩

theorem replace (h : T.Reaches a v b) (hw : D.result v w) : T.Reaches a w b :=
  ⟨h.input_eq, h.advances, T.replace hw h.advances.pos_le h.covers⟩

/-- Back at the start there is a token of nothing. -/
theorem back (hinput : a.input = input) (h : a.Advances b) :
    T.Reaches a (.token (Span.empty a.pos)) (b.jump a.pos) := by
  have hlength : (Span.empty a.pos).stop ≤ input.length :=
    hinput ▸ Nat.le_trans h.pos_le h.pos_le_length
  exact ⟨hinput, h.jump, T.token (Span.empty a.pos) hlength⟩

theorem slice (h : T.Reaches a v b) :
    ∃ span, v.extent a.pos = .ok span ∧ T.Reaches a (.token span) b := by
  have hlength := h.advances.pos_le_length
  rw [h.input_eq] at hlength
  obtain ⟨span, hspan, hcovers⟩ := T.extent h.advances.pos_le hlength h.covers
  exact ⟨span, hspan, h.input_eq, h.advances, hcovers⟩

theorem concat (h : T.Reaches a v b) :
    ∃ bytes, v.bytes b.input = .ok bytes ∧
      T.Reaches a (.composite ⟨⟨a.pos, b.pos, h.advances.pos_le⟩, bytes⟩) b := by
  have hlength := h.advances.pos_le_length
  rw [h.input_eq] at hlength
  let span : Span := ⟨a.pos, b.pos, h.advances.pos_le⟩
  have hstop : span.stop ≤ input.length := hlength
  obtain ⟨bytes, hbytes, hcovers⟩ := T.content hstop h.covers
  exact ⟨bytes, h.inside.1.symm ▸ hbytes, h.input_eq, h.advances, hcovers⟩

end Reaches

end Trail

/-- A fault, if it is one, is about a rule: no span went wrong. -/
def Interrupt.SparesSpans (interrupt : Interrupt) : Prop :=
  ∀ fault, interrupt = .fault fault → fault.isAboutRule = true

theorem Interrupt.SparesSpans.exhausted : SparesSpans .exhausted := by
  intro fault h
  cases h

theorem Interrupt.SparesSpans.fault {fault : Fault} (h : fault.isAboutRule = true) :
    SparesSpans (.fault fault) := by
  intro other heq
  cases heq
  exact h

namespace Matcher

variable {D : Discipline} {input : Bytes} {T : Trail D input}

/-- Where the matcher matches, its value lies between where it began and where it ended;
and it never fails for a span that cannot be. -/
def Keeps (T : Trail D input) (m : Matcher Value) : Prop :=
  ∀ s : MatchState, s.cursor.input = input → s.cursor.pos ≤ s.cursor.input.length →
    Ensures m s (fun v t => T.Reaches s.cursor v t.cursor)
      (fun _ t => s.cursor.Advances t.cursor) Interrupt.SparesSpans

variable {m : Matcher Value} {s : MatchState}

/-- A matcher that comes after a value. -/
theorem Keeps.after (hm : Keeps T m) {a : Cursor} {v : Value} (hs : T.Reaches a v s.cursor) :
    Ensures m s (fun w t => T.Reaches s.cursor w t.cursor)
      (fun _ t => a.Advances t.cursor) Interrupt.SparesSpans := by
  apply (hm s hs.inside.1 hs.inside.2).mono
  · exact fun _ _ ht => ht
  · exact fun _ _ ht => hs.advances.trans ht

theorem terminal_keeps {width? : Bytes → Option Nat}
    (hwidth : ∀ rest size, width? rest = some size → size ≤ rest.length) (e : Expr) :
    Keeps T (terminal e width?) := by
  intro s hinput hs
  rw [ensures_terminal]
  split
  · next span after htake =>
    have hadvances := Cursor.advances_of_take? hwidth hs htake
    obtain ⟨size, -, heq⟩ := Option.map_eq_some_iff.mp htake
    obtain ⟨rfl, rfl⟩ := Prod.mk.inj heq
    exact ⟨hinput, hadvances, T.token ⟨s.cursor.pos, s.cursor.pos + size, by omega⟩
      (hinput ▸ hadvances.pos_le_length)⟩
  · exact .refl hs

theorem firstOf_keeps {ms : List (Matcher Value)} (hms : ∀ m ∈ ms, Keeps T m)
    (empty : Mismatch) (best : Option Mismatch) : Keeps T (firstOf empty best ms) := by
  induction ms generalizing best with
  | nil => exact fun s _ hs => .refl hs
  | cons m ms ih =>
    intro s hinput hs
    rw [ensures_firstOf_cons]
    apply (hms m List.mem_cons_self s hinput hs).mono (fun _ _ ht => ht)
    intro x t ht
    -- the next alternative begins where this one did
    have hback := ht.jump
    have hrest := ih (fun m hm => hms m (List.mem_cons_of_mem _ hm)) (some (x.mergeInto best))
    apply (hrest (t.backAt s.cursor.pos) (hback.input_eq.trans hinput) hback.pos_le_input).mono
    · exact fun _ u hu => .since hinput hback rfl hu
    · exact fun _ u hu => hback.trans hu

/-- The values of a repetition, after those before it. -/
theorem Keeps.many (hm : Keeps T m) (idle : Nat → Event) {a : Cursor} {values : List Value}
    (hs : T.Reaches a (.list values) s.cursor) :
    Ensures (many idle m values) s (fun values t => T.Reaches a (.list values) t.cursor)
      (fun _ t => a.Advances t.cursor) Interrupt.SparesSpans := by
  refine Ensures.many (fun values t => T.Reaches a (.list values) t.cursor) ?_ hs
  intro values t ht
  apply (hm t ht.inside.1 ht.inside.2).mono
  · intro v u hu
    have hmore := ht.snoc hu
    split
    · exact hmore
    · exact hmore
  · exact fun x u hu => ht.upTo hu.jump rfl

end Matcher

/-! ## Evaluation -/

namespace Expr

variable {D : Discipline} {input : Bytes} {T : Trail D input} {call : Nat → Matcher Value}

theorem evalParts_keeps {es : List Expr} (hes : ∀ e ∈ es, Keeps T (e.eval call))
    (hdiscards : ∀ e ∈ es, e.isDiscard = true → D.discards) {s : MatchState}
    (hinput : s.cursor.input = input) (hs : s.cursor.pos ≤ s.cursor.input.length) :
    Ensures (evalParts call es) s (fun values t => T.Reaches s.cursor (.list values) t.cursor)
      (fun _ t => s.cursor.Advances t.cursor) Interrupt.SparesSpans := by
  induction es generalizing s with
  | nil => exact .here hinput hs
  | cons e es ih =>
    rw [ensures_evalParts_cons]
    apply (hes e List.mem_cons_self s hinput hs).imp_ok
    intro v t ht
    have hrest := ih (fun e he => hes e (List.mem_cons_of_mem _ he))
      (fun e he => hdiscards e (List.mem_cons_of_mem _ he)) ht.inside.1 ht.inside.2
    apply hrest.mono
    · intro values u hu
      split
      · next hdiscard => exact ht.discard (hdiscards e List.mem_cons_self hdiscard) hu
      · exact ht.cons hu
    · exact fun _ u hu => ht.advances.trans hu

theorem eval_keeps (hcall : ∀ handle, Keeps T (call handle)) {e : Expr} (he : e.Obeys D) :
    Keeps T (e.eval call) := by
  induction e using Expr.parts_induction with
  | literal l => exact terminal_keeps (fun _ _ => Literal.width?_le) _
  | charClass c => exact terminal_keeps (fun _ _ => CharClass.width?_le) _
  | anyChar => exact terminal_keeps anyChar_size_le _
  | seq es ih =>
    intro s hinput hs
    rw [ensures_seq]
    exact evalParts_keeps (fun e hmem => ih e hmem (he.part hmem)) (he.discards es .self) hinput hs
  | choice es ih =>
    intro s hinput hs
    rw [ensures_choice, evalEach_eq_map]
    refine firstOf_keeps (fun m hm => ?_) _ _ s hinput hs
    obtain ⟨e, hmem, rfl⟩ := List.mem_map.mp hm
    exact ih e hmem (he.part hmem)
  | star e ih =>
    intro s hinput hs
    rw [ensures_star]
    exact (ih (he.part List.mem_cons_self)).many _ (.here hinput hs)
  | plus e ih =>
    have hbody := ih (he.part List.mem_cons_self)
    intro s hinput hs
    rw [ensures_plus]
    apply (hbody s hinput hs).imp_ok
    intro first t ht
    have hfirst : T.Reaches s.cursor (.list [first]) t.cursor :=
      ht.cons (.here ht.inside.1 ht.inside.2)
    split
    · exact hbody.many _ hfirst
    · exact hfirst
  | optional e ih =>
    intro s hinput hs
    rw [ensures_optional]
    apply (ih (he.part List.mem_cons_self) s hinput hs).mono (fun _ _ ht => ht)
    exact fun _ t ht => .back hinput ht
  | ahead e ih =>
    intro s hinput hs
    rw [ensures_ahead]
    apply (ih (he.part List.mem_cons_self) s hinput hs).mono
    · exact fun _ t ht => .back hinput ht.advances
    · exact fun _ t ht => ht.jump
  | notAhead e ih =>
    intro s hinput hs
    rw [ensures_notAhead]
    apply (ih (he.part List.mem_cons_self) s hinput hs).mono
    · exact fun _ t ht => ht.advances.jump
    · exact fun _ t ht => .back hinput ht
  | discard e ih => exact ih (he.part List.mem_cons_self)
  | label name e ih =>
    intro s hinput hs
    rw [ensures_label]
    exact ih (he.part List.mem_cons_self) s hinput hs
  | action e a ih =>
    intro s hinput hs
    rw [ensures_action]
    apply (ih (he.part List.mem_cons_self) s hinput hs).imp_ok
    intro v t ht
    obtain ⟨w, hrun, hw⟩ := he.actions e a .self ⟨t.cursor.input, t.scope⟩ v
    rw [hrun]
    exact ht.replace hw
  | slice e ih =>
    intro s hinput hs
    rw [ensures_slice]
    apply (ih (he.part List.mem_cons_self) s hinput hs).imp_ok
    intro v t ht
    obtain ⟨span, hspan, hreaches⟩ := ht.slice
    rw [hspan]
    exact hreaches
  | concat e ih =>
    intro s hinput hs
    rw [ensures_concat]
    apply (ih (he.part List.mem_cons_self) s hinput hs).imp_ok
    intro v t ht
    obtain ⟨bytes, hbytes, hreaches⟩ := ht.concat
    rw [hbytes, ht.advances.spanSince]
    exact hreaches
  | rule ref =>
    intro s hinput hs
    rw [ensures_rule]
    cases ref.handle? with
    | none => exact .fault rfl
    | some handle => exact hcall handle s hinput hs

/-- A slice of what matched is the extent of its value. -/
theorem run_slice {e : Expr} {s t : MatchState} {v : Value}
    (hrun : EStateM.run (e.eval call) s = .ok v t) :
    EStateM.run (e.slice.eval call) s =
      match v.extent s.cursor.pos with
      | .ok span => .ok (.token span) t
      | .error fault => .error (.fault fault) t := by
  rw [eval, EStateM.run_bind, run_position]
  dsimp only
  rw [EStateM.run_bind, hrun]
  dsimp only
  cases v.extent s.cursor.pos with
  | ok span => rfl
  | error fault => rfl

end Expr

namespace OperatorLevel

variable {α : Type} {D : Discipline} {input : Bytes} {T : Trail D input}
  {call : Nat → Matcher Value} {self operand : Matcher Value} {s : MatchState}

/-- The value of the operator that is found lies behind what was matched before. -/
theorem firstOperator_keeps (obeys : α → Prop) (hcall : ∀ handle, Keeps T (call handle))
    {operators : List (Expr × α)}
    (hexprs : ∀ e ∈ operators.map Prod.fst, e.Obeys D) (hactions : ∀ op ∈ operators, obeys op.2)
    (hinput : s.cursor.input = input) (hs : s.cursor.pos ≤ s.cursor.input.length) :
    Ensures (firstOperator call operators) { s with scope := .empty } (fun found t =>
      Found found (fun op a => obeys a ∧ T.Reaches s.cursor op t.cursor)
        (t.cursor.pos = s.cursor.pos ∧ s.cursor.Advances t.cursor)) (fun _ _ => False)
      Interrupt.SparesSpans := by
  refine ensures_firstOperator
    (fun t => t.cursor.pos = s.cursor.pos ∧ s.cursor.Advances t.cursor) ?_ (fun t ht => ht)
    ⟨rfl, .refl hs⟩
  rintro e a hmem t ⟨hpos, ht⟩
  have he := hexprs e (List.mem_map_of_mem hmem)
  apply (Expr.eval_keeps hcall he t (ht.input_eq.trans hinput) ht.pos_le_input).mono
  · intro op u hu
    exact ⟨hactions _ hmem, .since hinput ht hpos hu⟩
  · exact fun x u hu => ⟨hpos, ht.trans hu.jump⟩

theorem eval_keeps (hcall : ∀ handle, Keeps T (call handle)) (hself : Keeps T self)
    (hoperand : Keeps T operand) {level : OperatorLevel} (hlevel : level.Obeys D) :
    Keeps T (level.eval call self operand) := by
  intro s hinput hs
  cases level with
  | prefixOps operators =>
    apply ensures_prefixOps
    have hfind := firstOperator_keeps (UnaryAction.Obeys · D) hcall hlevel.exprs hlevel.actions
      hinput hs
    apply hfind.imp_total
    intro found t hfound
    refine hfound.imp ?_ ?_
    · rintro op a ⟨ha, hop⟩
      apply (hself.after (s := { t with scope := s.scope }) hop).imp_ok
      intro x u hx
      obtain ⟨y, hrun, hy⟩ := ha ⟨u.cursor.input, t.scope⟩ (.list [op, x]) x
      rw [hrun]
      exact (hop.pair hx).replace hy
    · rintro ⟨hpos, ht⟩
      apply (hoperand { t with scope := s.scope } (ht.input_eq.trans hinput) ht.pos_le_input).mono
      · exact fun _ u hu => .since hinput ht hpos hu
      · exact fun _ u hu => ht.trans hu
  | postfixOps operators =>
    apply ensures_postfixOps fun x t => T.Reaches s.cursor x t.cursor
    · exact hoperand s hinput hs
    intro x t hx
    have hfind := firstOperator_keeps (UnaryAction.Obeys · D) hcall hlevel.exprs hlevel.actions
      hx.inside.1 hx.inside.2
    apply hfind.imp_total
    intro found u hfound
    refine hfound.imp ?_ fun ⟨hpos, hu⟩ => hx.upTo hu hpos
    rintro op a ⟨ha, hop⟩
    obtain ⟨y, hrun, hy⟩ := ha ⟨u.cursor.input, u.scope⟩ (.list [x, op]) x
    rw [hrun]
    have hresult := (hx.pair hop).replace hy
    change ite _ _ _
    split
    · exact hresult
    · exact hresult
  | leftAssoc operators =>
    apply ensures_leftAssoc fun left t => T.Reaches s.cursor left t.cursor
    · exact hoperand s hinput hs
    intro left t hleft
    have hfind := firstOperator_keeps (BinaryAction.Obeys · D) hcall hlevel.exprs hlevel.actions
      hleft.inside.1 hleft.inside.2
    apply hfind.imp_total
    intro found u hfound
    refine hfound.imp ?_ fun ⟨hpos, hu⟩ => hleft.upTo hu hpos
    rintro op a ⟨ha, hop⟩
    apply (hoperand.after (s := { u with scope := t.scope }) hop).mono
    · intro right w hright
      obtain ⟨y, hrun, hy⟩ := ha ⟨w.cursor.input, u.scope⟩ (.list [left, op, right]) left right
      rw [hrun]
      have hresult := (hleft.triple hop hright).replace hy
      change ite _ _ _
      split
      · exact hresult
      · exact hresult
    · exact fun _ w hw => hleft.advances.trans hw
  | rightAssoc operators =>
    apply ensures_rightAssoc
    apply (hoperand s hinput hs).imp_ok
    intro left t hleft
    have hfind := firstOperator_keeps (BinaryAction.Obeys · D) hcall hlevel.exprs hlevel.actions
      hleft.inside.1 hleft.inside.2
    apply hfind.imp_total
    intro found u hfound
    refine hfound.imp ?_ fun ⟨hpos, hu⟩ => hleft.upTo hu hpos
    rintro op a ⟨ha, hop⟩
    apply (hself.after (s := { u with scope := t.scope }) hop).mono
    · intro right w hright
      obtain ⟨y, hrun, hy⟩ := ha ⟨w.cursor.input, u.scope⟩ (.list [left, op, right]) left right
      rw [hrun]
      exact (hleft.triple hop hright).replace hy
    · exact fun _ w hw => hleft.advances.trans hw

end OperatorLevel

section Calls

variable {D : Discipline} {input : Bytes} {T : Trail D input}

theorem Rule.evalBody_keeps {call : Nat → Matcher Value} (hcall : ∀ handle, Keeps T (call handle))
    (handle : Nat) {rule : Rule} (h : rule.body.Obeys D) :
    Keeps T (rule.evalBody call handle) := by
  obtain ⟨name, kind, body⟩ := rule
  match body with
  | .expr e => exact Expr.eval_keeps hcall h
  | .precedence [] => exact fun s _ _ => .fault rfl
  | .precedence (first :: _) => exact hcall first
  | .level operators operand =>
    exact OperatorLevel.eval_keeps hcall (hcall handle) (hcall operand) h

theorem callRule_keeps (T : Trail D input) {rules : List Rule}
    (hrules : ∀ rule ∈ rules, rule.body.Obeys D) (depth handle : Nat) :
    Keeps T (callRule rules depth handle) := by
  induction depth generalizing handle with
  | zero => exact fun s _ _ => .exhausted
  | succ depth ih =>
    intro s hinput hs
    rw [ensures_callRule_succ]
    split
    · exact .fault rfl
    · next rule hrule =>
      exact rule.evalBody_keeps ih handle (hrules rule (List.mem_of_getElem? hrule)) _ hinput hs

/-- What holds of all evaluations in a disciplined grammar. -/
theorem evaluation_keeps (T : Trail D input) {rules : List Rule}
    (hrules : ∀ rule ∈ rules, rule.body.Obeys D) (depth : Nat) {m : Matcher Value}
    (hm : (∃ handle, m = callRule rules depth handle) ∨
      ∃ e : Expr, e.Obeys D ∧ m = e.eval (callRule rules depth)) : Keeps T m := by
  have hcall := callRule_keeps T hrules depth
  rcases hm with ⟨handle, rfl⟩ | ⟨e, he, rfl⟩
  · exact hcall handle
  · exact Expr.eval_keeps hcall he

end Calls

end Peg
