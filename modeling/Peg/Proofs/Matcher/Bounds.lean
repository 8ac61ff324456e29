import Peg.Proofs.Matcher.Evaluation

/-!
Where a match can take the cursor. Whatever is matched, the cursor ends between
where it started and the end of the input, and a mismatch names a position in
between. Failing expressions do not go back on their own, so the bounds are
carried through both ways a run can end.
-/

namespace Peg

/-- What a run may do to the cursor: it ends further on, inside the input, and
the furthest position grows by nothing that lies outside the input. -/
structure Cursor.Advances (before after : Cursor) : Prop where
  input_eq : after.input = before.input
  pos_le : before.pos ≤ after.pos
  pos_le_length : after.pos ≤ before.input.length
  furthest_le : max before.furthest after.pos ≤ after.furthest
  furthest_le_max : after.furthest ≤ max before.furthest before.input.length

/-- Where the mismatch of a run lies: between its start and the furthest
position, inside the input. -/
structure Mismatch.Within (x : Mismatch) (before after : Cursor) : Prop where
  start_le : before.pos ≤ x.pos
  le_length : x.pos ≤ before.input.length
  le_furthest : x.pos ≤ after.furthest

theorem Mismatch.mergeInto_eq_or_mem (x : Mismatch) (best : Option Mismatch) :
    x.mergeInto best = x ∨ x.mergeInto best ∈ best := by
  cases best with
  | none => exact Or.inl rfl
  | some other =>
    unfold mergeInto furthest
    dsimp only
    split
    · exact Or.inl rfl
    · exact Or.inr rfl

namespace Cursor

variable {a b c : Cursor} {x : Mismatch}

theorem pos_le_furthest (cursor : Cursor) : cursor.pos ≤ cursor.furthest :=
  Nat.le_max_right ..

theorem Advances.refl (h : a.pos ≤ a.input.length) : a.Advances a :=
  ⟨rfl, Nat.le_refl _, h, Nat.max_le.mpr ⟨Nat.le_refl _, a.pos_le_furthest⟩,
    Nat.le_max_left ..⟩

theorem Advances.trans (hab : a.Advances b) (hbc : b.Advances c) : a.Advances c := by
  have hinput := hab.input_eq
  have hlength := hbc.pos_le_length
  have hmax := hbc.furthest_le_max
  have hmax' := hab.furthest_le_max
  have hfurthest := hab.furthest_le
  have hfurthest' := hbc.furthest_le
  rw [hinput] at hlength hmax
  exact ⟨hbc.input_eq.trans hinput, Nat.le_trans hab.pos_le hbc.pos_le, hlength,
    by omega, by omega⟩

theorem Advances.pos_le_input (h : a.Advances b) : b.pos ≤ b.input.length := by
  rw [h.input_eq]
  exact h.pos_le_length

theorem Advances.remaining_le (h : a.Advances b) :
    b.remaining.length ≤ a.remaining.length := by
  have hle := h.pos_le
  rw [length_remaining, length_remaining, h.input_eq]
  omega

/-- A cursor that moved has less left. -/
theorem Advances.remaining_lt (h : a.Advances b) (hne : b.pos ≠ a.pos) :
    b.remaining.length < a.remaining.length := by
  have hle := h.pos_le
  have hlength := h.pos_le_length
  rw [length_remaining, length_remaining, h.input_eq]
  omega

/-- A cursor that has as much left as before is where it was. -/
theorem Advances.pos_eq_of_idle (h : a.Advances b)
    (hidle : ¬ b.remaining.length < a.remaining.length) : b.pos = a.pos :=
  Classical.byContradiction fun hne => hidle (h.remaining_lt hne)

theorem Advances.pos_ne_of_remaining_lt (h : a.Advances b)
    (hless : b.remaining.length < a.remaining.length) : b.pos ≠ a.pos := by
  intro heq
  rw [length_remaining, length_remaining, h.input_eq, heq] at hless
  exact absurd hless (Nat.lt_irrefl _)

/-- Going back to the start undoes the way, but not the furthest position. -/
theorem Advances.jump (h : a.Advances b) : a.Advances (b.jump a.pos) := by
  have hpos := h.pos_le
  have hlength := h.pos_le_length
  have hfurthest := h.furthest_le
  have hmax := h.furthest_le_max
  refine ⟨h.input_eq, Nat.le_refl _, Nat.le_trans hpos hlength, ?_, ?_⟩
  · rw [furthest_jump, jump_pos]
    omega
  · rw [furthest_jump]
    omega

/-- Nothing is read past the end: what was matched is a stretch of the input. -/
theorem Advances.spanSince (h : a.Advances b) :
    b.spanSince a.pos = .ok ⟨a.pos, b.pos, h.pos_le⟩ :=
  Span.between_eq_ok_iff.mpr ⟨rfl, rfl⟩

/-- The cursor has never been outside its input. Fresh cursors have this, and
whatever moves a cursor keeps it. -/
def InInput (cursor : Cursor) : Prop :=
  cursor.furthest ≤ cursor.input.length

theorem InInput.start (input : Bytes) : (Cursor.start input).InInput :=
  Nat.zero_le _

theorem InInput.moveTo (ha : a.InInput) {pos : Nat} (h : a.moveTo pos = .ok b) : b.InInput := by
  unfold Cursor.moveTo at h
  split at h
  · next hpos =>
    obtain rfl := Except.ok.inj h
    unfold InInput at ha ⊢
    rw [furthest_jump]
    exact Nat.max_le.mpr ⟨ha, hpos⟩
  · cases h

theorem InInput.advances (ha : a.InInput) (h : a.Advances b) : b.InInput := by
  have hmax := h.furthest_le_max
  unfold InInput at ha ⊢
  rw [h.input_eq]
  omega

theorem advances_of_take? {width? : Bytes → Option Nat} {span : Span}
    (hwidth : ∀ rest size, width? rest = some size → size ≤ rest.length)
    (hpos : a.pos ≤ a.input.length) (h : a.take? width? = some (span, b)) : a.Advances b := by
  obtain ⟨size, hsize, heq⟩ := Option.map_eq_some_iff.mp h
  obtain ⟨-, rfl⟩ := Prod.mk.inj heq
  have hle := hwidth _ _ hsize
  rw [length_remaining] at hle
  refine ⟨rfl, ?_, ?_, ?_, ?_⟩
  · rw [advance_pos]
    omega
  · rw [advance_pos]
    omega
  · exact Nat.le_of_eq (a.furthest_advance size).symm
  · rw [furthest_advance]
    omega

end Cursor

/-- The cursor is over the input, and not past its end. -/
structure Cursor.Over (input : Bytes) (cursor : Cursor) : Prop where
  input_eq : cursor.input = input
  pos_le : cursor.pos ≤ input.length

namespace Cursor.Over

variable {input : Bytes} {a b : Cursor}

theorem pos_le_input (h : a.Over input) : a.pos ≤ a.input.length := by
  rw [h.input_eq]
  exact h.pos_le

theorem advances (ha : a.Over input) (h : a.Advances b) : b.Over input := by
  have hle := h.pos_le_length
  rw [ha.input_eq] at hle
  exact ⟨h.input_eq.trans ha.input_eq, hle⟩

theorem jump (hb : b.Over input) (ha : a.Over input) : (b.jump a.pos).Over input :=
  ⟨hb.input_eq, ha.pos_le⟩

/-- Of two cursors over one input, neither is behind the end of what the other is over. -/
theorem same_input (ha : a.Over input) (hb : b.Over input) :
    b.input = a.input ∧ b.pos ≤ a.input.length := by
  rw [ha.input_eq, hb.input_eq]
  exact ⟨rfl, hb.pos_le⟩

end Cursor.Over

namespace Mismatch.Within

variable {x : Mismatch} {a b c : Cursor}

theorem after (h : x.Within b c) (hab : a.Advances b) : x.Within a c := by
  have hlength := h.le_length
  rw [hab.input_eq] at hlength
  exact ⟨Nat.le_trans hab.pos_le h.start_le, hlength, h.le_furthest⟩

theorem mono (h : x.Within a b) (hbc : b.furthest ≤ c.furthest) : x.Within a c :=
  ⟨h.start_le, h.le_length, Nat.le_trans h.le_furthest hbc⟩

theorem jump (h : x.Within a b) (pos : Nat) : x.Within a (b.jump pos) :=
  h.mono (Nat.le_max_left ..)

/-- The mismatch of an expression that fails where it stands. -/
theorem here (h : a.Advances b) (hpos : x.pos = a.pos) : x.Within a b := by
  have hle := h.pos_le
  have hlength := h.pos_le_length
  refine ⟨Nat.le_of_eq hpos.symm, ?_, ?_⟩
  · omega
  · rw [hpos, Cursor.furthest]
    omega

end Mismatch.Within

namespace Matcher

/-- Runs of `m` from a cursor inside its input stay inside it. -/
def InBounds {α : Type} (m : Matcher α) : Prop :=
  ∀ s : MatchState, s.cursor.pos ≤ s.cursor.input.length →
    Ensures m s (fun _ t => s.cursor.Advances t.cursor)
      (fun x t => s.cursor.Advances t.cursor ∧ x.Within s.cursor t.cursor) (fun _ => True)

variable {α : Type} {s : MatchState} {start : Cursor}

/-- A matcher that comes after a stretch of input was matched. -/
theorem InBounds.after {m : Matcher α} (hm : InBounds m) (hs : start.Advances s.cursor) :
    Ensures m s (fun _ t => start.Advances t.cursor)
      (fun x t => start.Advances t.cursor ∧ x.Within start t.cursor) (fun _ => True) := by
  apply (hm s hs.pos_le_input).mono
  · intro _ t ht
    exact hs.trans ht
  · intro x t ht
    exact ⟨hs.trans ht.1, ht.2.after hs⟩

theorem ensures_terminal_advances {e : Expr} {width? : Bytes → Option Nat}
    (hwidth : ∀ rest size, width? rest = some size → size ≤ rest.length)
    (hs : s.cursor.pos ≤ s.cursor.input.length) :
    Ensures (terminal e width?) s (fun _ t => s.cursor.Advances t.cursor)
      (fun x t => (s.cursor.Advances t.cursor ∧ x.Within s.cursor t.cursor) ∧
        t.cursor.pos = s.cursor.pos) (fun _ => True) := by
  rw [ensures_terminal]
  split
  · next span after htake => exact Cursor.advances_of_take? hwidth hs htake
  · have hstay := Cursor.Advances.refl hs
    exact ⟨⟨hstay, .here hstay rfl⟩, rfl⟩

/-- Each alternative starts where the first one did. The mismatch that is raised
in the end is that of an alternative, or that of the empty choice. -/
theorem ensures_firstOf_advances {ms : List (Matcher α)} (hms : ∀ m ∈ ms, InBounds m)
    {empty : Mismatch} {best : Option Mismatch} (hs : start.Advances s.cursor)
    (hpos : s.cursor.pos = start.pos) (hempty : empty.pos = start.pos)
    (hbest : ∀ x ∈ best, x.Within start s.cursor) :
    Ensures (firstOf empty best ms) s (fun _ t => start.Advances t.cursor)
      (fun x t => (start.Advances t.cursor ∧ x.Within start t.cursor) ∧
        t.cursor.pos = start.pos) (fun _ => True) := by
  induction ms generalizing s best with
  | nil =>
    rw [ensures_firstOf_nil]
    refine ⟨⟨hs, ?_⟩, hpos⟩
    cases best with
    | none => exact .here hs hempty
    | some x => exact hbest x rfl
  | cons m ms ih =>
    rw [ensures_firstOf_cons]
    apply (hms m List.mem_cons_self s hs.pos_le_input).mono
    · intro _ t ht
      exact hs.trans ht
    · intro x t ht
      have hback := (hs.trans ht.1).jump
      have hx := (ht.2.after hs).jump start.pos
      have hkept : ∀ y ∈ some (x.mergeInto best), y.Within start (t.cursor.jump start.pos) := by
        intro y hy
        obtain rfl : x.mergeInto best = y := Option.some.inj hy
        rcases x.mergeInto_eq_or_mem best with heq | hmem
        · rw [heq]
          exact hx
        · exact ((hbest _ hmem).mono (Nat.max_le.mp ht.1.furthest_le).1).jump start.pos
      rw [hpos]
      exact ih (fun m hm => hms m (List.mem_cons_of_mem _ hm)) hback rfl hkept

theorem InBounds.many {m : Matcher Value} (hm : InBounds m) (idle : Nat → Event)
    (values : List Value) : InBounds (many idle m values) := by
  intro s hs
  refine Ensures.many (fun _ t => s.cursor.Advances t.cursor) ?_ (Cursor.Advances.refl hs)
  intro values t ht
  apply (hm t ht.pos_le_input).mono
  · intro value u hu
    have hsu := ht.trans hu
    split
    · exact hsu
    · exact hsu
  · intro x u hu
    exact ht.trans hu.1.jump

end Matcher

namespace Expr

open Matcher

/-- Whether the expression leaves the cursor where it was when it fails. -/
def staysOnMismatch : Expr → Bool
  | literal _ | charClass _ | anyChar | choice _ | ahead _ | notAhead _ => true
  | _ => false

/-- Whether the expression matches by taking bytes itself. -/
def isTerminal : Expr → Bool
  | literal _ | charClass _ | anyChar => true
  | _ => false

variable {call : Nat → Matcher Value}

theorem evalParts_inBounds {es : List Expr} (hes : ∀ e ∈ es, InBounds (e.eval call)) :
    InBounds (evalParts call es) := by
  induction es with
  | nil =>
    intro s hs
    exact Cursor.Advances.refl hs
  | cons e es ih =>
    intro s hs
    rw [ensures_evalParts_cons]
    apply (hes e List.mem_cons_self s hs).imp_ok
    intro value t ht
    exact (ih fun e he => hes e (List.mem_cons_of_mem _ he)).after ht

theorem mem_evalEach_inBounds {es : List Expr} (hes : ∀ e ∈ es, InBounds (e.eval call)) :
    ∀ m ∈ evalEach call es, InBounds m := by
  intro m hm
  rw [evalEach_eq_map] at hm
  obtain ⟨e, he, rfl⟩ := List.mem_map.mp hm
  exact hes e he

/-- An alternative that was tried leaves the choice where it started. -/
theorem ensures_choice_advances {es : List Expr} (hes : ∀ e ∈ es, InBounds (e.eval call))
    {s : MatchState} (hs : s.cursor.pos ≤ s.cursor.input.length) :
    Ensures ((choice es).eval call) s (fun _ t => s.cursor.Advances t.cursor)
      (fun x t => (s.cursor.Advances t.cursor ∧ x.Within s.cursor t.cursor) ∧
        t.cursor.pos = s.cursor.pos) (fun _ => True) := by
  rw [ensures_choice]
  exact ensures_firstOf_advances (mem_evalEach_inBounds hes) (Cursor.Advances.refl hs) rfl rfl
    (fun x hx => by cases hx)

theorem eval_inBounds (hcall : ∀ handle, InBounds (call handle)) (e : Expr) :
    InBounds (e.eval call) := by
  induction e using Expr.parts_induction with
  | literal l =>
    intro s hs
    exact (ensures_terminal_advances (fun _ _ => Literal.width?_le) hs).mono
      (fun _ _ ht => ht) (fun _ _ ht => ht.1)
  | charClass c =>
    intro s hs
    exact (ensures_terminal_advances (fun _ _ => CharClass.width?_le) hs).mono
      (fun _ _ ht => ht) (fun _ _ ht => ht.1)
  | anyChar =>
    intro s hs
    exact (ensures_terminal_advances anyChar_size_le hs).mono
      (fun _ _ ht => ht) (fun _ _ ht => ht.1)
  | seq es ih =>
    intro s hs
    rw [ensures_seq]
    exact evalParts_inBounds ih s hs
  | choice es ih =>
    intro s hs
    exact (ensures_choice_advances ih hs).mono (fun _ _ ht => ht) (fun _ _ ht => ht.1)
  | star e ih =>
    intro s hs
    rw [ensures_star]
    exact ih.many _ _ s hs
  | plus e ih =>
    intro s hs
    rw [ensures_plus]
    apply (ih s hs).imp_ok
    intro first t ht
    split
    · exact (ih.many _ _).after ht
    · exact ht
  | optional e ih =>
    intro s hs
    rw [ensures_optional]
    exact (ih s hs).mono (fun _ t ht => ht) (fun x t ht => ht.1.jump)
  | ahead e ih =>
    intro s hs
    rw [ensures_ahead]
    exact (ih s hs).mono (fun _ t ht => ht.jump)
      (fun x t ht => ⟨ht.1.jump, ht.2.jump _⟩)
  | notAhead e ih =>
    intro s hs
    rw [ensures_notAhead]
    exact (ih s hs).mono (fun _ t ht => ⟨ht.jump, .here ht.jump rfl⟩)
      (fun x t ht => ht.1.jump)
  | discard e ih | label name e ih | action e a ih | slice e ih | concat e ih =>
    intro s hs
    exact ensures_wrapped rfl s.cursor.Advances
      (fun x c => s.cursor.Advances c ∧ x.Within s.cursor c) (fun _ => trivial) (ih s hs)
  | rule ref =>
    intro s hs
    rw [ensures_rule]
    cases ref.handle? with
    | none => trivial
    | some handle => exact hcall handle s hs

/-- The expressions that go back on their own, or never go forward, fail where
they started. -/
theorem eval_mismatch_pos (hcall : ∀ handle, InBounds (call handle)) {e : Expr}
    (he : e.staysOnMismatch = true) {s : MatchState}
    (hs : s.cursor.pos ≤ s.cursor.input.length) :
    Ensures (e.eval call) s (fun _ _ => True) (fun _ t => t.cursor.pos = s.cursor.pos)
      (fun _ => True) := by
  cases e with
  | literal l =>
    exact (ensures_terminal_advances (fun _ _ => Literal.width?_le) hs).mono
      (fun _ _ _ => trivial) (fun _ _ ht => ht.2)
  | charClass c =>
    exact (ensures_terminal_advances (fun _ _ => CharClass.width?_le) hs).mono
      (fun _ _ _ => trivial) (fun _ _ ht => ht.2)
  | anyChar =>
    exact (ensures_terminal_advances anyChar_size_le hs).mono
      (fun _ _ _ => trivial) (fun _ _ ht => ht.2)
  | choice es =>
    exact (ensures_choice_advances (fun e _ => eval_inBounds hcall e) hs).mono
      (fun _ _ _ => trivial) (fun _ _ ht => ht.2)
  | ahead e =>
    rw [ensures_ahead]
    exact (eval_inBounds hcall e s hs).mono (fun _ _ _ => trivial) (fun _ _ _ => rfl)
  | notAhead e =>
    rw [ensures_notAhead]
    exact (eval_inBounds hcall e s hs).mono (fun _ _ _ => rfl) (fun _ _ _ => trivial)
  | _ => cases he

theorem terminal_token {e : Expr} {width? : Bytes → Option Nat} (s : MatchState) :
    Ensures (terminal e width?) s
      (fun v t => ∀ hle : s.cursor.pos ≤ t.cursor.pos,
        v = .token ⟨s.cursor.pos, t.cursor.pos, hle⟩) (fun _ _ => True) (fun _ => True) := by
  rw [ensures_terminal]
  split
  · next span after htake =>
    obtain ⟨size, -, heq⟩ := Option.map_eq_some_iff.mp htake
    obtain ⟨rfl, rfl⟩ := Prod.mk.inj heq
    intro _
    rfl
  · trivial

/-- The token of a terminal is the stretch that the cursor moved over. -/
theorem eval_isTerminal {e : Expr} (he : e.isTerminal = true) {s t : MatchState} {v : Value}
    (hrun : EStateM.run (e.eval call) s = .ok v t) {hle : s.cursor.pos ≤ t.cursor.pos} :
    v = .token ⟨s.cursor.pos, t.cursor.pos, hle⟩ := by
  cases e with
  | literal l => exact (terminal_token s).of_ok hrun hle
  | charClass c => exact (terminal_token s).of_ok hrun hle
  | anyChar => exact (terminal_token s).of_ok hrun hle
  | _ => cases he

/-- A composite spans what its body matched, where that lies in order. -/
theorem run_concat {e : Expr} {s t : MatchState} {v : Value} {span : Span}
    (hrun : EStateM.run (e.eval call) s = .ok v t)
    (hspan : t.cursor.spanSince s.cursor.pos = .ok span) :
    EStateM.run (e.concat.eval call) s =
      match v.bytes t.cursor.input with
      | .ok content => .ok (.composite ⟨span, content⟩) t
      | .error fault => .error (.fault fault) t := by
  rw [eval, EStateM.run_bind, run_position]
  dsimp only
  rw [EStateM.run_bind, hrun]
  dsimp only
  rw [EStateM.run_bind, EStateM.run_get]
  dsimp only
  rw [hspan]
  cases v.bytes t.cursor.input with
  | ok content => rfl
  | error fault => rfl

end Expr

namespace OperatorLevel

open Matcher

variable {call : Nat → Matcher Value} {self operand : Matcher Value} {α : Type}

theorem ensures_firstOperator_advances (hcall : ∀ handle, InBounds (call handle))
    {operators : List (Expr × α)} {start : Cursor} {s : MatchState}
    (hs : start.Advances s.cursor) :
    Ensures (firstOperator call operators) { s with scope := .empty } (fun found t =>
      Found found (fun _ _ => start.Advances t.cursor) (start.Advances t.cursor))
      (fun _ _ => False) (fun _ => True) := by
  refine ensures_firstOperator (fun t => start.Advances t.cursor) ?_ (fun t ht => ht) hs
  intro e a _ t ht
  apply (Expr.eval_inBounds hcall e t ht.pos_le_input).mono
  · intro op u hu
    exact ht.trans hu
  · intro x u hu
    exact ht.trans hu.1.jump

theorem eval_inBounds (hcall : ∀ handle, InBounds (call handle)) (hself : InBounds self)
    (hoperand : InBounds operand) (level : OperatorLevel) :
    InBounds (level.eval call self operand) := by
  intro s hs
  have hstart := Cursor.Advances.refl hs
  cases level with
  | prefixOps operators =>
    apply ensures_prefixOps
    apply (ensures_firstOperator_advances hcall hstart).imp_total
    intro found t hfound
    refine hfound.imp (fun op a ht => ?_) (fun ht => hoperand.after ht)
    apply (hself.after (s := { t with scope := s.scope }) ht).imp_ok
    intro x u hu
    exact Settled.intro (fun _ _ => hu) (fun _ => trivial)
  | postfixOps operators =>
    apply ensures_postfixOps (fun _ t => s.cursor.Advances t.cursor)
    · exact hoperand s hs
    intro x t ht
    apply (ensures_firstOperator_advances hcall ht).imp_total
    intro found u hfound
    refine hfound.imp (fun op a hu => ?_) (fun hu => hu)
    refine Settled.intro (fun y _ => ?_) (fun _ => trivial)
    split
    · exact hu
    · exact hu
  | leftAssoc operators =>
    apply ensures_leftAssoc (fun _ t => s.cursor.Advances t.cursor)
    · exact hoperand s hs
    intro left t ht
    apply (ensures_firstOperator_advances hcall ht).imp_total
    intro found u hfound
    refine hfound.imp (fun op a hu => ?_) (fun hu => hu)
    apply (hoperand.after (s := { u with scope := t.scope }) hu).imp_ok
    intro right w hw
    refine Settled.intro (fun y _ => ?_) (fun _ => trivial)
    split
    · exact hw
    · exact hw
  | rightAssoc operators =>
    apply ensures_rightAssoc
    apply (hoperand s hs).imp_ok
    intro left t ht
    apply (ensures_firstOperator_advances hcall ht).imp_total
    intro found u hfound
    refine hfound.imp (fun op a hu => ?_) (fun hu => hu)
    apply (hself.after (s := { u with scope := t.scope }) hu).imp_ok
    intro right w hw
    exact Settled.intro (fun _ _ => hw) (fun _ => trivial)

end OperatorLevel

section Calls

open Matcher

theorem Rule.evalBody_inBounds {call : Nat → Matcher Value}
    (hcall : ∀ handle, InBounds (call handle)) (handle : Nat) (rule : Rule) :
    InBounds (rule.evalBody call handle) := by
  intro s hs
  unfold evalBody
  split
  · exact Expr.eval_inBounds hcall _ s hs
  · exact hcall _ s hs
  · rw [ensures_throw]
    trivial
  · exact OperatorLevel.eval_inBounds hcall (hcall _) (hcall _) _ s hs

/-- However deep calls may nest, a call stays inside the input. -/
theorem callRule_inBounds (rules : List Rule) (depth handle : Nat) :
    InBounds (callRule rules depth handle) := by
  induction depth generalizing handle with
  | zero =>
    intro s hs
    rw [ensures_callRule_zero]
    trivial
  | succ depth ih =>
    intro s hs
    rw [ensures_callRule_succ]
    split
    · trivial
    · next rule hrule => exact rule.evalBody_inBounds ih handle _ hs

/-- Any expression and any rule, whatever is bound and noted before: the cursor
stays in the input, and so does the mismatch. A fresh cursor has a furthest
position inside the input, and every run keeps it there. What was matched lies
in order, so the tokens made of it are spans, and so are composites. -/
theorem evaluation_in_bounds (rules : List Rule) (depth : Nat) {s : MatchState}
    (hs : s.cursor.pos ≤ s.cursor.input.length) :
    (∀ m : Matcher Value,
      (∃ handle, m = callRule rules depth handle) ∨
        (∃ e : Expr, m = e.eval (callRule rules depth)) →
      Ensures m s
        (fun _ t => s.cursor.Advances t.cursor ∧ (s.cursor.InInput → t.cursor.InInput))
        (fun x t => s.cursor.Advances t.cursor ∧ x.Within s.cursor t.cursor ∧
          (s.cursor.InInput → t.cursor.InInput))
        (fun _ => True)) ∧
    (∀ (e : Expr) (x : Mismatch) (t : MatchState), e.staysOnMismatch = true →
      EStateM.run (e.eval (callRule rules depth)) s = .error (.mismatch x) t →
      t.cursor.pos = s.cursor.pos) ∧
    (∀ (e : Expr) (v : Value) (t : MatchState),
      EStateM.run (e.eval (callRule rules depth)) s = .ok v t →
      ∃ hle : s.cursor.pos ≤ t.cursor.pos,
        t.cursor.spanSince s.cursor.pos = .ok ⟨s.cursor.pos, t.cursor.pos, hle⟩ ∧
        (e.isTerminal = true → v = .token ⟨s.cursor.pos, t.cursor.pos, hle⟩) ∧
        EStateM.run (e.concat.eval (callRule rules depth)) s =
          match v.bytes t.cursor.input with
          | .ok content => .ok (.composite ⟨⟨s.cursor.pos, t.cursor.pos, hle⟩, content⟩) t
          | .error fault => .error (.fault fault) t) := by
  have hcall := callRule_inBounds rules depth
  refine ⟨?_, ?_, ?_⟩
  · intro m hm
    have hbounds : InBounds m := by
      rcases hm with ⟨handle, rfl⟩ | ⟨e, rfl⟩
      · exact hcall handle
      · exact Expr.eval_inBounds hcall e
    apply (hbounds s hs).mono
    · intro _ t ht
      exact ⟨ht, fun hinput => hinput.advances ht⟩
    · intro x t ht
      exact ⟨ht.1, ht.2, fun hinput => hinput.advances ht.1⟩
  · intro e x t he hrun
    exact (Expr.eval_mismatch_pos hcall he hs).of_mismatch hrun
  · intro e v t hrun
    have ht := (Expr.eval_inBounds hcall e s hs).of_ok hrun
    refine ⟨ht.pos_le, ht.spanSince, ?_, ?_⟩
    · intro he
      exact Expr.eval_isTerminal he hrun
    · exact Expr.run_concat hrun ht.spanSince

/-- A sequence that fails in its second part. -/
theorem evaluation_in_bounds_of_late_failure :
    let rules : List Rule :=
      [⟨"pair", .plain, .expr (.seq [.literal (.exact [0x61]), .literal (.exact [0x62])])⟩]
    let s : MatchState := ⟨.start [0x61, 0x63], .empty, #[]⟩
    s.cursor.pos ≤ s.cursor.input.length ∧
    ∃ x t, EStateM.run (callRule rules 1 0) s = .error (.mismatch x) t ∧ x.pos = 1 ∧
      s.cursor.Advances t.cursor ∧ x.Within s.cursor t.cursor := by
  intro rules s
  have hs : s.cursor.pos ≤ s.cursor.input.length := by decide
  have hbounds := ((evaluation_in_bounds rules 1 hs).1 _ (Or.inl ⟨0, rfl⟩)).of_mismatch rfl
  exact ⟨hs, _, _, rfl, rfl, hbounds.1, hbounds.2.1⟩

end Calls

end Peg
