import Peg.Proofs.Matcher.Bounds

/-!
Which rules an expression may call before it has taken a byte. That depends on
which of its parts may match without taking any, so rules are marked that may,
and the marking has to be closed under their bodies. A rule that can reach itself
through such calls is left recursive; a ranking that falls along them excludes
it. What is not marked takes at least one byte whenever it matches.
-/

namespace Peg

namespace Expr

mutual
/-- Whether the expression may match without taking a byte. -/
def nullable (marked : Nat → Bool) : Expr → Bool
  | literal l => l.bytes.isEmpty
  | charClass _ | anyChar => false
  | seq es => allNullable marked es
  | choice es => anyNullable marked es
  | star _ | optional _ | ahead _ | notAhead _ => true
  | plus e | discard e | label _ e | action e _ | slice e | concat e => e.nullable marked
  | rule ref => ref.handle?.any marked

def allNullable (marked : Nat → Bool) : List Expr → Bool
  | [] => true
  | e :: es => e.nullable marked && allNullable marked es

def anyNullable (marked : Nat → Bool) : List Expr → Bool
  | [] => false
  | e :: es => e.nullable marked || anyNullable marked es
end

mutual
/-- The rules that the expression may call before it has taken a byte. -/
def leftCalls (marked : Nat → Bool) : Expr → List Nat
  | literal _ | charClass _ | anyChar => []
  | seq es => partsLeftCalls marked es
  | choice es => eachLeftCalls marked es
  | star e | plus e | optional e | ahead e | notAhead e | discard e | label _ e | action e _
  | slice e | concat e => e.leftCalls marked
  | rule ref => ref.handle?.toList

/-- In a sequence the parts count up to the first that takes a byte. -/
def partsLeftCalls (marked : Nat → Bool) : List Expr → List Nat
  | [] => []
  | e :: es =>
    e.leftCalls marked ++ if e.nullable marked then partsLeftCalls marked es else []

def eachLeftCalls (marked : Nat → Bool) : List Expr → List Nat
  | [] => []
  | e :: es => e.leftCalls marked ++ eachLeftCalls marked es
end

end Expr

namespace OperatorLevel

/-- Whether some operator may match without taking a byte. -/
def idleOperator (marked : Nat → Bool) (level : OperatorLevel) : Bool :=
  Expr.anyNullable marked level.exprs

/-- The rules that the operators may call before one of them has taken a byte. -/
def operatorLeftCalls (marked : Nat → Bool) (level : OperatorLevel) : List Nat :=
  Expr.eachLeftCalls marked level.exprs

/-- The rules that the level `self` may call before it has taken a byte. -/
def leftCalls (marked : Nat → Bool) (self operand : Nat) (level : OperatorLevel) : List Nat :=
  match level with
  | prefixOps _ =>
    level.operatorLeftCalls marked ++ operand ::
      if level.idleOperator marked then [self] else []
  | postfixOps _ | leftAssoc _ =>
    operand :: if marked operand then level.operatorLeftCalls marked else []
  | rightAssoc _ =>
    operand :: if marked operand then
        level.operatorLeftCalls marked ++ if level.idleOperator marked then [self] else []
      else []

end OperatorLevel

namespace RuleBody

/-- Whether the body may match without taking a byte. -/
def nullable (marked : Nat → Bool) : RuleBody → Bool
  | expr e => e.nullable marked
  | precedence levels => levels.head?.any marked
  | level _ operand => marked operand

/-- The rules that the body of the rule `self` may call before it has taken a byte. -/
def leftCalls (marked : Nat → Bool) (self : Nat) : RuleBody → List Nat
  | expr e => e.leftCalls marked
  | precedence levels => levels.head?.toList
  | level operators operand => operators.leftCalls marked self operand

end RuleBody

/-- A marking of the rules that may match without taking a byte. -/
def MarkingClosed (rules : List Rule) (marked : Nat → Bool) : Prop :=
  ∀ handle rule, rules[handle]? = some rule → rule.body.nullable marked = true →
    marked handle = true

/-- A ranking that excludes left recursion: it falls from each rule to those
that the rule may call before it has taken a byte. -/
structure LeftRanked (rules : List Rule) (marked : Nat → Bool) (rank : Nat → Nat) : Prop where
  closed : MarkingClosed rules marked
  falls : ∀ handle rule, rules[handle]? = some rule →
    ∀ callee ∈ rule.body.leftCalls marked handle, rank callee < rank handle

/-- The cursor moved on, or stayed where `nullable` foresees that it may. -/
structure Cursor.MovesOn (nullable : Bool) (before after : Cursor) : Prop where
  advances : before.Advances after
  foreseen : after.pos = before.pos → nullable = true

namespace Cursor.MovesOn

variable {nullable : Bool} {a b c : Cursor}

theorem trans (hab : a.MovesOn nullable b) (hbc : b.Advances c) : a.MovesOn nullable c := by
  refine ⟨hab.advances.trans hbc, fun hpos => hab.foreseen ?_⟩
  have hle := hab.advances.pos_le
  have hle' := hbc.pos_le
  omega

theorem after (hbc : b.MovesOn nullable c) (hab : a.Advances b) : a.MovesOn nullable c := by
  refine ⟨hab.trans hbc.advances, fun hpos => hbc.foreseen ?_⟩
  have hle := hab.pos_le
  have hle' := hbc.advances.pos_le
  omega

theorem imp {nullable' : Bool} (h : a.MovesOn nullable b)
    (himp : nullable = true → nullable' = true) : a.MovesOn nullable' b :=
  ⟨h.advances, fun hpos => himp (h.foreseen hpos)⟩

end Cursor.MovesOn

namespace Matcher

/-- A match that takes nothing is one that `nullable` foresees. -/
def Foreseen (m : Matcher Value) (nullable : Bool) : Prop :=
  ∀ s : MatchState, s.cursor.pos ≤ s.cursor.input.length →
    Ensures m s (fun _ t => s.cursor.MovesOn nullable t.cursor)
      (fun _ t => s.cursor.Advances t.cursor) (fun _ => True)

theorem Foreseen.imp {m : Matcher Value} {nullable nullable' : Bool}
    (h : Foreseen m nullable) (himp : nullable = true → nullable' = true) :
    Foreseen m nullable' := by
  intro s hs
  exact (h s hs).mono (fun _ t ht => ht.imp himp) (fun x t ht => ht)

theorem Foreseen.after {m : Matcher Value} {nullable : Bool} (h : Foreseen m nullable)
    {start : Cursor} {s : MatchState} (hs : start.Advances s.cursor) :
    Ensures m s (fun _ t => start.MovesOn nullable t.cursor)
      (fun _ t => start.Advances t.cursor) (fun _ => True) := by
  exact (h s hs.pos_le_input).mono (fun _ t ht => ht.after hs) (fun x t ht => hs.trans ht)

theorem InBounds.foreseen {m : Matcher Value} (h : InBounds m) : Foreseen m true := by
  intro s hs
  exact (h s hs).mono (fun _ t ht => ⟨ht, fun _ => rfl⟩) (fun x t ht => ht.1)

end Matcher

section Foresight

open Matcher

variable {call : Nat → Matcher Value} {marked : Nat → Bool} {s : MatchState}

theorem terminal_foreseen {e : Expr} {width? : Bytes → Option Nat} {nullable : Bool}
    (hwidth : ∀ rest size, width? rest = some size → size ≤ rest.length)
    (hnullable : ∀ rest, width? rest = some 0 → nullable = true) :
    Foreseen (terminal e width?) nullable := by
  intro s hs
  rw [ensures_terminal]
  split
  · next span after htake =>
    refine ⟨Cursor.advances_of_take? hwidth hs htake, ?_⟩
    obtain ⟨size, hsize, heq⟩ := Option.map_eq_some_iff.mp htake
    obtain ⟨-, rfl⟩ := Prod.mk.inj heq
    intro hpos
    rw [Cursor.advance_pos] at hpos
    obtain rfl : size = 0 := by omega
    exact hnullable _ hsize
  · exact Cursor.Advances.refl hs

/-- Parts that take nothing together take nothing each. -/
theorem evalParts_foreseen {es : List Expr}
    (hes : ∀ e ∈ es, Foreseen (e.eval call) (e.nullable marked))
    (hs : s.cursor.pos ≤ s.cursor.input.length) :
    Ensures (Expr.evalParts call es) s
      (fun _ t => s.cursor.MovesOn (Expr.allNullable marked es) t.cursor)
      (fun _ t => s.cursor.Advances t.cursor) (fun _ => True) := by
  induction es generalizing s with
  | nil => exact ⟨Cursor.Advances.refl hs, fun _ => rfl⟩
  | cons e es ih =>
    rw [Expr.ensures_evalParts_cons]
    apply (hes e List.mem_cons_self s hs).imp_ok
    intro value t ht
    have htail := ih (fun e he => hes e (List.mem_cons_of_mem _ he)) ht.advances.pos_le_input
    refine htail.mono ?_ (fun x u hu => ht.advances.trans hu)
    intro values u hu
    have hhead := (ht.trans hu.advances).foreseen
    have hrest := (hu.after ht.advances).foreseen
    refine ⟨ht.advances.trans hu.advances, fun hpos => ?_⟩
    rw [Expr.allNullable, hhead hpos, hrest hpos]
    rfl

theorem firstOf_foreseen {es : List Expr}
    (hes : ∀ e ∈ es, Foreseen (e.eval call) (e.nullable marked))
    {empty : Mismatch} {best : Option Mismatch} (hs : s.cursor.pos ≤ s.cursor.input.length) :
    Ensures (firstOf empty best (Expr.evalEach call es)) s
      (fun _ t => s.cursor.MovesOn (Expr.anyNullable marked es) t.cursor)
      (fun _ t => s.cursor.Advances t.cursor) (fun _ => True) := by
  induction es generalizing s best with
  | nil => exact Cursor.Advances.refl hs
  | cons e es ih =>
    rw [Expr.evalEach, ensures_firstOf_cons]
    apply (hes e List.mem_cons_self s hs).mono
    · intro value t ht
      apply ht.imp
      intro he
      rw [Expr.anyNullable, he, Bool.true_or]
    · intro x t ht
      have hback := ht.jump
      have hes := fun e he => hes e (List.mem_cons_of_mem _ he)
      apply (ih (s := t.backAt s.cursor.pos) hes hback.pos_le_input).mono
      · intro value u hu
        apply (hu.after hback).imp
        intro hnext
        rw [Expr.anyNullable, hnext, Bool.or_true]
      · intro y u hu
        exact hback.trans hu

/-- What an expression may match without taking a byte is foreseen, if that is
so for the rules it calls. -/
theorem Expr.eval_foreseen (hcall : ∀ handle, Foreseen (call handle) (marked handle))
    (hbounds : ∀ handle, InBounds (call handle)) (e : Expr) :
    Foreseen (e.eval call) (e.nullable marked) := by
  induction e using Expr.parts_induction with
  | literal l =>
    apply terminal_foreseen (fun _ _ => Literal.width?_le)
    intro rest hwidth
    rw [Literal.width?] at hwidth
    split at hwidth
    · exact List.isEmpty_iff_length_eq_zero.mpr (Option.some.inj hwidth)
    · cases hwidth
  | charClass c =>
    apply terminal_foreseen (fun _ _ => CharClass.width?_le)
    intro rest hwidth
    have hpos := CharClass.width?_pos hwidth
    omega
  | anyChar =>
    apply terminal_foreseen Expr.anyChar_size_le
    intro rest hwidth
    obtain ⟨segment, hsegment, hsize⟩ := Option.map_eq_some_iff.mp hwidth
    have hpos := Utf8.first?_size_pos hsegment
    omega
  | seq es ih =>
    intro s hs
    rw [Expr.ensures_seq]
    exact evalParts_foreseen ih hs
  | choice es ih =>
    intro s hs
    rw [Expr.ensures_choice]
    exact firstOf_foreseen ih hs
  | star e ih => exact (Expr.eval_inBounds hbounds (.star e)).foreseen
  | plus e ih =>
    intro s hs
    rw [Expr.ensures_plus]
    apply (ih s hs).imp_ok
    intro first t ht
    split
    · have hmany := (Expr.eval_inBounds hbounds e).many (.idleBody e) [first]
      exact (hmany t ht.advances.pos_le_input).mono (fun values u hu => ht.trans hu)
        (fun x u hu => ht.advances.trans hu.1)
    · exact ht
  | optional e ih => exact (Expr.eval_inBounds hbounds (.optional e)).foreseen
  | ahead e ih => exact (Expr.eval_inBounds hbounds (.ahead e)).foreseen
  | notAhead e ih => exact (Expr.eval_inBounds hbounds (.notAhead e)).foreseen
  | discard e ih | label name e ih | action e a ih | slice e ih | concat e ih =>
    intro s hs
    exact Expr.ensures_wrapped rfl (s.cursor.MovesOn (e.nullable marked))
      (fun _ c => s.cursor.Advances c) (fun _ => trivial) (ih s hs)
  | rule ref =>
    intro s hs
    rw [Expr.ensures_rule]
    cases href : ref.handle? with
    | none => trivial
    | some handle =>
      have hnullable : (Expr.rule ref).nullable marked = marked handle := by
        rw [Expr.nullable, href]
        rfl
      rw [hnullable]
      exact hcall handle s hs

theorem Expr.anyNullable_of_mem {e : Expr} {es : List Expr} (hmem : e ∈ es)
    (he : e.nullable marked = true) : Expr.anyNullable marked es = true := by
  induction es with
  | nil => cases hmem
  | cons head es ih =>
    rw [Expr.anyNullable, Bool.or_eq_true]
    rcases List.mem_cons.mp hmem with rfl | htail
    · exact Or.inl he
    · exact Or.inr (ih htail)

namespace OperatorLevel

variable {α : Type} {self operand : Matcher Value}

/-- An operator that is found without taking a byte is a nullable one. -/
theorem firstOperator_foreseen (hcall : ∀ handle, Foreseen (call handle) (marked handle))
    (hbounds : ∀ handle, InBounds (call handle)) {operators : List (Expr × α)}
    (hs : s.cursor.pos ≤ s.cursor.input.length) :
    Ensures (firstOperator call operators) { s with scope := .empty } (fun found t =>
      Found found
        (fun _ _ => s.cursor.MovesOn (Expr.anyNullable marked (operators.map Prod.fst))
          t.cursor)
        (s.cursor.Advances t.cursor)) (fun _ _ => False) (fun _ => True) := by
  refine ensures_firstOperator
    (fun t => s.cursor.Advances t.cursor ∧ t.cursor.pos = s.cursor.pos) ?_ (fun t ht => ht.1)
    ⟨Cursor.Advances.refl hs, rfl⟩
  intro e a hmem t ht
  apply ((Expr.eval_foreseen hcall hbounds e).after ht.1).mono
  · intro op u hu
    exact hu.imp fun he => Expr.anyNullable_of_mem (List.mem_map_of_mem hmem) he
  · intro x u hu
    rw [MatchState.backAt, ht.2]
    exact ⟨hu.jump, rfl⟩

/-- A level matches nothing only where its operand does. -/
theorem eval_foreseen {nullable : Bool} (hbounds : ∀ handle, InBounds (call handle))
    (hself : Foreseen self nullable) (hoperand : Foreseen operand nullable)
    (level : OperatorLevel) : Foreseen (level.eval call self operand) nullable := by
  intro s hs
  have hstart := Cursor.Advances.refl hs
  cases level with
  | prefixOps operators =>
    apply ensures_prefixOps
    apply (ensures_firstOperator_advances hbounds hstart).imp_total
    intro found t hfound
    refine hfound.imp (fun op a ht => ?_) (fun ht => hoperand.after ht)
    apply (hself.after (s := { t with scope := s.scope }) ht).imp_ok
    intro x u hu
    exact Settled.intro (fun _ _ => hu) (fun _ => trivial)
  | postfixOps operators =>
    apply ensures_postfixOps (fun _ t => s.cursor.MovesOn nullable t.cursor) (hoperand s hs)
    intro x t ht
    apply (ensures_firstOperator_advances hbounds (.refl ht.advances.pos_le_input)).imp_total
    intro found u hfound
    refine hfound.imp (fun op a hu => ?_) (fun hu => ht.trans hu)
    refine Settled.intro (fun y _ => ?_) (fun _ => trivial)
    split
    · exact ht.trans hu
    · exact ht.trans hu
  | leftAssoc operators =>
    apply ensures_leftAssoc (fun _ t => s.cursor.MovesOn nullable t.cursor) (hoperand s hs)
    intro left t ht
    apply (ensures_firstOperator_advances hbounds (.refl ht.advances.pos_le_input)).imp_total
    intro found u hfound
    refine hfound.imp (fun op a hu => ?_) (fun hu => ht.trans hu)
    refine (hoperand.after (s := { u with scope := t.scope }) hu).mono ?_
      (fun x w hw => ht.advances.trans hw)
    intro right w hw
    refine Settled.intro (fun y _ => ?_) (fun _ => trivial)
    split
    · exact ht.trans hw.advances
    · exact ht.trans hw.advances
  | rightAssoc operators =>
    apply ensures_rightAssoc
    apply (hoperand s hs).imp_ok
    intro left t ht
    apply (ensures_firstOperator_advances hbounds (.refl ht.advances.pos_le_input)).imp_total
    intro found u hfound
    refine hfound.imp (fun op a hu => ?_) (fun hu => ht.trans hu)
    refine (hself.after (s := { u with scope := t.scope }) hu).mono ?_
      (fun x w hw => ht.advances.trans hw)
    intro right w hw
    exact Settled.intro (fun _ _ => ht.trans hw.advances) (fun _ => trivial)

end OperatorLevel

/-- A level that calls itself has the same body both times. -/
theorem Rule.evalBody_foreseen {rule : Rule} {handle : Nat}
    (hcall : ∀ callee, Foreseen (call callee) (marked callee))
    (hbounds : ∀ callee, InBounds (call callee))
    (hself : Foreseen (call handle) (rule.body.nullable marked)) :
    Foreseen (rule.evalBody call handle) (rule.body.nullable marked) := by
  intro s hs
  unfold evalBody
  split
  · next e hbody =>
    rw [hbody]
    exact Expr.eval_foreseen hcall hbounds e s hs
  · next first rest hbody =>
    rw [hbody]
    exact hcall first s hs
  · rw [ensures_throw]
    trivial
  · next operators operand hbody =>
    rw [hbody] at hself ⊢
    exact OperatorLevel.eval_foreseen hbounds hself (hcall operand) operators s hs

/-- Whether the rule with the handle has a nullable body. -/
def ruleNullable (rules : List Rule) (marked : Nat → Bool) (handle : Nat) : Bool :=
  rules[handle]?.any (·.body.nullable marked)

theorem MarkingClosed.of_ruleNullable {rules : List Rule} (hclosed : MarkingClosed rules marked)
    {handle : Nat} (h : ruleNullable rules marked handle = true) : marked handle = true := by
  unfold ruleNullable at h
  cases hrule : rules[handle]? with
  | none =>
    rw [hrule] at h
    cases h
  | some rule =>
    rw [hrule] at h
    exact hclosed handle rule hrule h

/-- However deep calls may nest, a rule matches nothing only where its body is
nullable. -/
theorem callRule_foreseen {rules : List Rule} (hclosed : MarkingClosed rules marked)
    (depth handle : Nat) :
    Foreseen (callRule rules depth handle) (ruleNullable rules marked handle) := by
  induction depth generalizing handle with
  | zero =>
    intro s hs
    rw [ensures_callRule_zero]
    trivial
  | succ depth ih =>
    -- the marking may say more than the bodies; a level needs the stronger fact of itself
    have hcall : ∀ callee, Foreseen (callRule rules depth callee) (marked callee) :=
      fun callee => (ih callee).imp hclosed.of_ruleNullable
    intro s hs
    rw [ensures_callRule_succ]
    cases hrule : rules[handle]? with
    | none => trivial
    | some rule =>
      have hnullable : ruleNullable rules marked handle = rule.body.nullable marked := by
        rw [ruleNullable, hrule]
        rfl
      have hself := ih handle
      rw [hnullable] at hself ⊢
      exact Rule.evalBody_foreseen hcall (callRule_inBounds rules depth) hself
        ⟨s.cursor, .empty, _⟩ hs

end Foresight

end Peg
