import Peg.Proofs.Matcher.Counterparts

/-!
What is left of expressions and rules when the functions of their actions are taken
out. The outline keeps the source and the expected names of every action, so it is
written out as the whole is. Expressions with the same outline stand for one another
where nothing is asked of the values.
-/

namespace Peg

/-! ## Outlines -/

/-- The action without its function: what was matched goes through. -/
def Action.outline (a : Action) : Action :=
  { a with run := fun _ value => .ok value }

def UnaryAction.outline (a : UnaryAction) : UnaryAction :=
  { a with run := fun _ matched _ => .ok matched }

def BinaryAction.outline (a : BinaryAction) : BinaryAction :=
  { a with run := fun _ matched _ _ => .ok matched }

namespace Expr

def outlineNode : Expr → Expr
  | action e a => action e a.outline
  | e => e

/-- The expression without the functions of its actions. -/
def outline (e : Expr) : Expr :=
  e.mapNodes outlineNode

end Expr

def OperatorLevel.outline : OperatorLevel → OperatorLevel
  | prefixOps ops => prefixOps (ops.map fun (e, a) => (e.outline, a.outline))
  | postfixOps ops => postfixOps (ops.map fun (e, a) => (e.outline, a.outline))
  | leftAssoc ops => leftAssoc (ops.map fun (e, a) => (e.outline, a.outline))
  | rightAssoc ops => rightAssoc (ops.map fun (e, a) => (e.outline, a.outline))

def RuleBody.outline : RuleBody → RuleBody
  | expr e => expr e.outline
  | precedence levels => precedence levels
  | level operators operand => level operators.outline operand

/-- The rule without the functions of its actions. -/
def Rule.outline (rule : Rule) : Rule :=
  { rule with body := rule.body.outline }

/-- The mismatch, naming the outline of its expression. -/
def Mismatch.outline (x : Mismatch) : Mismatch :=
  ⟨x.expr.outline, x.pos⟩

def Interrupt.outline : Interrupt → Interrupt
  | mismatch x => mismatch x.outline
  | interrupt => interrupt

/-! ## Outlines of the parts -/

namespace Expr

theorem outline_seq (es : List Expr) : (seq es).outline = seq (es.map outline) := by
  simp only [outline, mapNodes, outlineNode, mapAllNodes_eq_map]
  rfl

theorem outline_choice (es : List Expr) : (choice es).outline = choice (es.map outline) := by
  simp only [outline, mapNodes, outlineNode, mapAllNodes_eq_map]
  rfl

/-- Taking the functions out of the actions does not change the text. -/
theorem render_outline (e : Expr) (atomic : Bool) : e.outline.render atomic = e.render atomic := by
  refine render_mapNodes (fun node atomic => ?_) e atomic
  cases node <;> rfl

end Expr

/-! ## Correspondence of outlines -/

/-- The record of a match, line by line. -/
def MatchState.record (s : MatchState) : Array String :=
  s.events.map Event.line

theorem line_idleBody_eq {e e' : Expr} (h : e.render false = e'.render false) (pos : Nat) :
    (Event.idleBody e pos).line = (Event.idleBody e' pos).line := by
  have htext : toString e = toString e' := h
  unfold Event.line Event.message Event.severity
  dsimp only
  rw [htext]

/-- States with the same cursor and the same record go on so under expressions that are
written the same. -/
theorem Lockstep.ofRecords {node : Expr → Expr → Prop}
    (hnode : ∀ {e e'}, node e e' → e.render false = e'.render false) :
    Lockstep node (fun s s' => s.cursor = s'.cursor ∧ s.record = s'.record) where
  input_eq h := by rw [h.1]
  pos_eq h := by rw [h.1]
  setScope h _ _ := h
  jump h u _ _ := ⟨congrArg (·.jump u.cursor.pos) h.1, h.2⟩
  advance h size _ := ⟨congrArg (·.advance size) h.1, h.2⟩
  push h event := by
    refine ⟨h.1, ?_⟩
    have hrecord := h.2
    simp only [MatchState.record, Array.map_push] at hrecord ⊢
    rw [hrecord]
  pushIdle h _ _ he pos := by
    refine ⟨h.1, ?_⟩
    have hrecord := h.2
    simp only [MatchState.record, Array.map_push] at hrecord ⊢
    rw [hrecord, line_idleBody_eq (hnode he)]

/-- The correspondence of expressions with the same outline, under the same handles. Where
the actions differ, either run may be cut short by itself. -/
def Correspondence.ofOutlines (exact : Prop) : Correspondence where
  node e e' := e.outline = e'.outline
  handle := Eq
  view s s' := s.cursor = s'.cursor ∧ s.record = s'.record
  exact
  confined := exact
  cutsFirst interrupt := ¬ exact ∧ ∀ x, interrupt ≠ .mismatch x
  cutsSecond interrupt := ¬ exact ∧ ∀ x, interrupt ≠ .mismatch x
  node_refl _ := rfl
  lockstep := .ofRecords fun {e e'} h => by rw [← e.render_outline, h, e'.render_outline]
  mismatch_not_cut x := ⟨fun h => h.2 x rfl, fun h => h.2 x rfl⟩
  fault_cut h fault := ⟨⟨h, by rintro x ⟨⟩⟩, ⟨h, by rintro x ⟨⟩⟩⟩

theorem Correspondence.Interrupts.outline_eq {exact : Prop} {interrupt interrupt' : Interrupt}
    (h : (Correspondence.ofOutlines exact).Interrupts interrupt interrupt') :
    interrupt.outline = interrupt'.outline := by
  cases h with
  | @mismatch x x' h =>
    have hexpr : x.expr.outline = x'.expr.outline := h.node
    simp only [Interrupt.outline, Mismatch.outline, hexpr, h.pos_eq]
  | fault fault => rfl
  | exhausted => rfl

end Peg
