import Peg.Proofs.Expr
import Peg.Proofs.Matcher.Coupling

/-!
Expressions, operator levels and rules of which one stands for the other: they have
the same shape and differ in their actions, in the handles of the rules they refer
to, or in both. What is read off their shape alone is the same for both, so their
matchers are coupled, and so are calls of rules that stand for one another.
-/

namespace Peg

open Matcher

variable {C : Correspondence} {visible : List String}

/-- The second expression stands for the first, in a scope that binds no other names
than the visible ones. An action is on an expression with a scope of its own; the two
actions do the same with whatever that scope can bind. -/
inductive Expr.Counterpart (C : Correspondence) : List String → Expr → Expr → Prop
  | literal {visible : List String} (l : Literal) : Counterpart C visible (.literal l) (.literal l)
  | charClass {visible : List String} (cls : CharClass) :
    Counterpart C visible (.charClass cls) (.charClass cls)
  | anyChar {visible : List String} : Counterpart C visible .anyChar .anyChar
  -- The parts are related by their places: the names are an index of this relation, and
  -- it could not be an argument of `List.Forall₂`.
  | seq {visible : List String} {es es' : List Expr} (hlength : es.length = es'.length)
    (hparts : ∀ {e e'}, (e, e') ∈ es.zip es' → Counterpart C visible e e') :
    Counterpart C visible (.seq es) (.seq es')
  | choice {visible : List String} {es es' : List Expr}
    (hnode : C.node (.choice es) (.choice es')) (hlength : es.length = es'.length)
    (hparts : ∀ {e e'}, (e, e') ∈ es.zip es' → Counterpart C visible e e') :
    Counterpart C visible (.choice es) (.choice es')
  | star {visible : List String} {e e' : Expr} (hnode : C.node e e')
    (h : Counterpart C visible e e') : Counterpart C visible (.star e) (.star e')
  | plus {visible : List String} {e e' : Expr} (hnode : C.node e e')
    (h : Counterpart C visible e e') : Counterpart C visible (.plus e) (.plus e')
  | optional {visible : List String} {e e' : Expr} (h : Counterpart C visible e e') :
    Counterpart C visible (.optional e) (.optional e')
  | ahead {visible : List String} {e e' : Expr} (h : Counterpart C visible e e') :
    Counterpart C visible (.ahead e) (.ahead e')
  | notAhead {visible : List String} {e e' : Expr} (hnode : C.node (.notAhead e) (.notAhead e'))
    (h : Counterpart C visible e e') : Counterpart C visible (.notAhead e) (.notAhead e')
  | discard {visible : List String} {e e' : Expr} (h : Counterpart C visible e e') :
    Counterpart C visible (.discard e) (.discard e')
  | label {visible : List String} {name : String} (hname : C.confined → name ∈ visible)
    {e e' : Expr} (h : Counterpart C visible e e') :
    Counterpart C visible (.label name e) (.label name e')
  | action {visible inner : List String} (hsub : visible ⊆ inner) {a a' : Action}
    (hrun : ∀ context value, (C.confined → context.captures.Within inner) →
      C.Same (a.run context value) (a'.run context value)) {e e' : Expr}
    (h : Counterpart C inner e e') : Counterpart C visible (.action e a) (.action e' a')
  | slice {visible : List String} {e e' : Expr} (h : Counterpart C visible e e') :
    Counterpart C visible (.slice e) (.slice e')
  | concat {visible : List String} {e e' : Expr} (h : Counterpart C visible e e') :
    Counterpart C visible (.concat e) (.concat e')
  | rule {visible : List String} {ref ref' : RuleRef} (hname : ref.name = ref'.name)
    (h : Option.Rel C.handle ref.handle? ref'.handle?) :
    Counterpart C visible (.rule ref) (.rule ref')

namespace Expr

theorem Counterpart.isDiscard_eq {e e' : Expr} (h : Counterpart C visible e e') :
    e.isDiscard = e'.isDiscard := by
  cases h <;> rfl

/-- An expression stands for itself where every handle does, and where all names that it
binds are visible if that is asked for. -/
theorem Counterpart.refl (hhandle : ∀ handle, C.handle handle handle) {e : Expr}
    (hbound : C.confined → e.bound ⊆ visible) : Counterpart C visible e e := by
  induction e using parts_induction generalizing visible with
  | literal l => exact .literal l
  | charClass cls => exact .charClass cls
  | anyChar => exact .anyChar
  | seq es ih =>
    have hsub : ∀ e ∈ es, C.confined → e.bound ⊆ visible := fun e he hconfined =>
      List.Subset.trans (bound_subset_of_mem_scopeParts (e := .seq es) he) (hbound hconfined)
    have hparts := List.forall₂_iff_zip.mp
      (List.forall₂_same.mpr fun e he => ih e he (hsub e he))
    exact .seq hparts.1 hparts.2
  | choice es ih =>
    have hsub : ∀ e ∈ es, C.confined → e.bound ⊆ visible := fun e he hconfined =>
      List.Subset.trans (bound_subset_of_mem_scopeParts (e := .choice es) he) (hbound hconfined)
    have hparts := List.forall₂_iff_zip.mp
      (List.forall₂_same.mpr fun e he => ih e he (hsub e he))
    exact .choice (C.node_refl _) hparts.1 hparts.2
  | star e ih => exact .star (C.node_refl _) (ih hbound)
  | plus e ih => exact .plus (C.node_refl _) (ih hbound)
  | optional e ih => exact .optional (ih hbound)
  | ahead e ih => exact .ahead (ih hbound)
  | notAhead e ih => exact .notAhead (C.node_refl _) (ih hbound)
  | discard e ih => exact .discard (ih hbound)
  | label name e ih =>
    simp only [bound, List.cons_subset] at hbound
    exact .label (fun hconfined => (hbound hconfined).1)
      (ih fun hconfined => (hbound hconfined).2)
  | action e a ih =>
    refine .action (List.subset_append_left visible e.labels) (fun _ _ _ _ => rfl) (ih ?_)
    exact fun _ name hname => List.mem_append_right _ (mem_labels.mpr hname)
  | slice e ih => exact .slice (ih hbound)
  | concat e ih => exact .concat (ih hbound)
  | rule ref =>
    refine .rule rfl ?_
    cases ref.handle? with
    | none => exact .none
    | some handle => exact .some (hhandle handle)

section Evaluation

variable {call call' : Nat → Matcher Value}

theorem evalParts_coupled {es es' : List Expr}
    (hes : List.Forall₂ (fun e e' => e.isDiscard = e'.isDiscard ∧
      Coupled C visible C.Same (e.eval call) (e'.eval call')) es es') :
    Coupled C visible C.Same (evalParts call es) (evalParts call' es') := by
  induction hes with
  | nil => exact coupled_pure fun _ => rfl
  | @cons e e' es es' he _ ih =>
    apply coupled_bind he.2
    intro value value' hvalue
    apply coupled_bind ih
    intro values values' hvalues
    apply coupled_pure
    intro hexact
    rw [he.1, hvalue hexact, hvalues hexact]

/-- Expressions of which one stands for the other have coupled matchers, if calls of
handles that stand for one another are coupled. -/
theorem Counterpart.eval_coupled
    (hcall : ∀ h h', C.handle h h' → ∀ names, Coupled C names C.Same (call h) (call' h'))
    {e e' : Expr} (h : Counterpart C visible e e') :
    Coupled C visible C.Same (e.eval call) (e'.eval call') := by
  induction h with
  | literal l => exact coupled_terminal _ fun _ _ => Literal.width?_le
  | charClass cls => exact coupled_terminal _ fun _ _ => CharClass.width?_le
  | anyChar => exact coupled_terminal _ anyChar_size_le
  | seq hlength hparts ih =>
    refine coupled_map (evalParts_coupled ?_) fun values values' h => h.map Value.list
    exact List.forall₂_iff_zip.mpr
      ⟨hlength, fun hmem => ⟨(hparts hmem).isDiscard_eq, ih hmem⟩⟩
  | @choice visible es es' hnode hlength hparts ih =>
    apply coupled_bind coupled_position
    rintro start _ rfl
    rw [evalEach_eq_map, evalEach_eq_map]
    have hempty : C.Mismatches ⟨.choice es, start⟩ ⟨.choice es', start⟩ := ⟨hnode, rfl⟩
    apply coupled_firstOf hempty .none
    rw [List.forall₂_map_left_iff, List.forall₂_map_right_iff]
    exact List.forall₂_iff_zip.mpr ⟨hlength, ih⟩
  | star hnode _ ih =>
    refine coupled_map (coupled_many (coupled_noteIdle hnode) ih fun _ => rfl) ?_
    exact fun values values' h => h.map Value.list
  | plus hnode _ ih =>
    apply coupled_get
    intro s s' hs
    apply coupled_bind ih
    intro first first' hfirst
    apply coupled_get
    intro t t' ht
    rw [hs.remaining_eq, ht.remaining_eq, hs.pos_eq]
    split
    · refine coupled_map (coupled_many (coupled_noteIdle hnode) ih ?_) ?_
      · exact hfirst.map fun value => [value]
      · exact fun values values' h => h.map Value.list
    · apply coupled_bind (coupled_noteIdle hnode _)
      intro _ _ _
      exact coupled_pure (hfirst.map fun value => Value.list [value])
  | optional _ ih =>
    apply coupled_bind coupled_position
    rintro start _ rfl
    apply coupled_bind (coupled_probe ih)
    rintro _ _ (hvalue | hx)
    · exact coupled_pure hvalue
    · exact coupled_pure fun _ => rfl
  | ahead _ ih =>
    apply coupled_bind coupled_position
    rintro start _ rfl
    apply coupled_bind (coupled_survey ih)
    rintro _ _ (hvalue | hx)
    · exact coupled_pure fun _ => rfl
    · exact coupled_throw (.mismatch hx)
  | notAhead hnode _ ih =>
    apply coupled_bind coupled_position
    rintro start _ rfl
    apply coupled_bind (coupled_survey ih)
    rintro _ _ (hvalue | hx)
    · exact coupled_mismatch hnode start
    · exact coupled_pure fun _ => rfl
  | discard _ ih => exact ih
  | label hname _ ih =>
    apply coupled_bind ih
    intro value value' hvalue
    exact coupled_bind (coupled_bindName hname hvalue) fun _ _ _ => coupled_pure hvalue
  | action hsub hrun _ ih =>
    apply coupled_get
    intro s s' hs
    apply coupled_bind (coupled_withScope (hs.scopes.mono hsub) ih)
    rintro ⟨value, captures⟩ ⟨value', captures'⟩ ⟨hvalue, hcaptures⟩
    apply coupled_bind (coupled_context hcaptures)
    intro context context' hcontext
    apply coupled_ofFault
    intro hexact
    obtain rfl := hcontext.1 hexact
    obtain rfl := hvalue hexact
    exact hrun context value hcontext.2 hexact
  | slice _ ih =>
    apply coupled_bind coupled_position
    rintro start _ rfl
    apply coupled_bind ih
    intro value value' hvalue
    apply coupled_map (coupled_ofFault (hvalue.map (Value.extent start)))
    exact fun span span' h => h.map Value.token
  | concat _ ih =>
    apply coupled_bind coupled_position
    rintro start _ rfl
    apply coupled_bind ih
    intro value value' hvalue
    apply coupled_get
    intro s s' hs
    dsimp only
    rw [hs.input_eq, Cursor.spanSince, Cursor.spanSince, hs.pos_eq]
    apply coupled_bind (coupled_ofFault (hvalue.map (Value.bytes s'.cursor.input)))
    intro content content' hcontent
    apply coupled_bind (coupled_ofFault fun _ => rfl)
    intro span span' hspan
    exact coupled_pure (hspan.map₂ hcontent fun span content =>
      Value.composite ⟨span, content⟩)
  | @rule visible ref ref' hname h =>
    rw [eval, eval, hname]
    generalize ref.handle? = handle at h
    generalize ref'.handle? = handle' at h
    cases h with
    | none => exact coupled_throw (.fault _)
    | some h => exact hcall _ _ h visible

end Evaluation

end Expr

/-! ## Operator levels -/

/-- The operators stand for one another in order, with actions that do the same where
the values are the same. -/
def Correspondence.Operators {α β : Type} (C : Correspondence) (visible : List String)
    (run : α → β) : List (Expr × α) → List (Expr × α) → Prop :=
  List.Forall₂ fun op op' => op.1.Counterpart C visible op'.1 ∧ C.Same (run op.2) (run op'.2)

/-- The second level stands for the first; its operators bind no other names than the
visible ones. -/
inductive OperatorLevel.Counterpart (C : Correspondence) (visible : List String) :
    OperatorLevel → OperatorLevel → Prop
  | prefixOps {ops ops' : List (Expr × UnaryAction)}
    (h : C.Operators visible UnaryAction.run ops ops') :
    Counterpart C visible (.prefixOps ops) (.prefixOps ops')
  | postfixOps {ops ops' : List (Expr × UnaryAction)}
    (h : C.Operators visible UnaryAction.run ops ops') :
    Counterpart C visible (.postfixOps ops) (.postfixOps ops')
  | leftAssoc {ops ops' : List (Expr × BinaryAction)}
    (h : C.Operators visible BinaryAction.run ops ops') :
    Counterpart C visible (.leftAssoc ops) (.leftAssoc ops')
  | rightAssoc {ops ops' : List (Expr × BinaryAction)}
    (h : C.Operators visible BinaryAction.run ops ops') :
    Counterpart C visible (.rightAssoc ops) (.rightAssoc ops')

/-- A level stands for itself where every handle does, among all names that its operators
bind. -/
theorem OperatorLevel.Counterpart.refl (hhandle : ∀ handle, C.handle handle handle)
    (level : OperatorLevel) : level.Counterpart C (level.exprs.flatMap Expr.bound) level := by
  have hops {α β : Type} {run : α → β} {ops : List (Expr × α)} {names : List String}
      (hnames : (ops.map Prod.fst).flatMap Expr.bound = names) : C.Operators names run ops ops := by
    refine List.forall₂_same.mpr fun op hop => ⟨.refl hhandle fun _ name hname => ?_, fun _ => rfl⟩
    rw [← hnames]
    exact List.mem_flatMap.mpr ⟨op.1, List.mem_map_of_mem hop, hname⟩
  cases level with
  | prefixOps ops => exact .prefixOps (hops rfl)
  | postfixOps ops => exact .postfixOps (hops rfl)
  | leftAssoc ops => exact .leftAssoc (hops rfl)
  | rightAssoc ops => exact .rightAssoc (hops rfl)

namespace OperatorLevel

variable {call call' : Nat → Matcher Value} {self self' operand operand' : Matcher Value}
  {names : List String} {α β : Type} {run : α → β}

/-- The operators that two searches found stand for one another. -/
def Finds (C : Correspondence) (run : α → β) : Option (Value × α) → Option (Value × α) → Prop :=
  Option.Rel fun found found' => C.Same found.1 found'.1 ∧ C.Same (run found.2) (run found'.2)

theorem firstOperator_coupled
    (hcall : ∀ h h', C.handle h h' → ∀ names, Coupled C names C.Same (call h) (call' h'))
    {ops ops' : List (Expr × α)} (hops : C.Operators visible run ops ops') :
    Coupled C visible (Finds C run) (firstOperator call ops) (firstOperator call' ops') := by
  induction hops with
  | nil => exact coupled_pure .none
  | cons hop _ ih =>
    apply coupled_bind (coupled_probe (hop.1.eval_coupled hcall))
    rintro _ _ (hvalue | hx)
    · exact coupled_pure (.some ⟨hvalue, hop.2⟩)
    · exact ih

theorem operator_coupled
    (hcall : ∀ h h', C.handle h h' → ∀ names, Coupled C names C.Same (call h) (call' h'))
    {ops ops' : List (Expr × α)} (hops : C.Operators visible run ops ops') :
    Coupled C names (fun result result' => Finds C run result.1 result'.1 ∧
        C.Scopes visible result.2 result'.2)
      (operator call ops) (operator call' ops') :=
  coupled_withScope (.empty visible) (firstOperator_coupled hcall hops)

/-- Levels of which one stands for the other have coupled matchers, if calls, the levels
themselves and their operands are coupled. -/
theorem Counterpart.eval_coupled
    (hcall : ∀ h h', C.handle h h' → ∀ names, Coupled C names C.Same (call h) (call' h'))
    (hself : Coupled C names C.Same self self') (hoperand : Coupled C names C.Same operand operand')
    {level level' : OperatorLevel} (h : Counterpart C visible level level') :
    Coupled C names C.Same (level.eval call self operand) (level'.eval call' self' operand') := by
  cases h with
  | prefixOps h =>
    apply coupled_bind (operator_coupled hcall h)
    rintro ⟨_, captures⟩ ⟨_, captures'⟩ ⟨hfound | _, hcaptures⟩
    · apply coupled_bind hself
      intro x x' hx
      apply coupled_bind (coupled_context hcaptures)
      intro context context' hcontext
      apply coupled_ofFault
      intro hexact
      rw [hfound.2 hexact, hfound.1 hexact, hx hexact, hcontext.1 hexact]
    · exact hoperand
  | postfixOps h =>
    apply coupled_bind hoperand
    intro x x' hx
    refine coupled_iterate (fun _ => coupled_note _) (fun x x' hx => ?_) hx
    apply coupled_bind (operator_coupled hcall h)
    rintro ⟨_, captures⟩ ⟨_, captures'⟩ ⟨hfound | _, hcaptures⟩
    · apply coupled_bind (coupled_context hcaptures)
      intro context context' hcontext
      refine coupled_map (coupled_ofFault fun hexact => ?_) fun y y' hy => .some hy
      rw [hfound.2 hexact, hfound.1 hexact, hx hexact, hcontext.1 hexact]
    · exact coupled_pure .none
  | leftAssoc h =>
    apply coupled_bind hoperand
    intro left left' hleft
    refine coupled_iterate (fun _ => coupled_note _) (fun left left' hleft => ?_) hleft
    apply coupled_bind (operator_coupled hcall h)
    rintro ⟨_, captures⟩ ⟨_, captures'⟩ ⟨hfound | _, hcaptures⟩
    · apply coupled_bind hoperand
      intro right right' hright
      apply coupled_bind (coupled_context hcaptures)
      intro context context' hcontext
      refine coupled_map (coupled_ofFault fun hexact => ?_) fun y y' hy => .some hy
      rw [hfound.2 hexact, hfound.1 hexact, hleft hexact, hright hexact, hcontext.1 hexact]
    · exact coupled_pure .none
  | rightAssoc h =>
    apply coupled_bind hoperand
    intro left left' hleft
    apply coupled_bind (operator_coupled hcall h)
    rintro ⟨_, captures⟩ ⟨_, captures'⟩ ⟨hfound | _, hcaptures⟩
    · apply coupled_bind hself
      intro right right' hright
      apply coupled_bind (coupled_context hcaptures)
      intro context context' hcontext
      apply coupled_ofFault
      intro hexact
      rw [hfound.2 hexact, hfound.1 hexact, hleft hexact, hright hexact, hcontext.1 hexact]
    · exact coupled_pure hleft

end OperatorLevel

/-! ## Rules -/

/-- The second body stands for the first. The names that expressions and operators can
bind are whatever the two bodies take them to be. -/
inductive RuleBody.Counterpart (C : Correspondence) : RuleBody → RuleBody → Prop
  | expr {visible : List String} {e e' : Expr} (h : e.Counterpart C visible e') :
    Counterpart C (.expr e) (.expr e')
  | precedence {levels levels' : List Nat} (h : List.Forall₂ C.handle levels levels') :
    Counterpart C (.precedence levels) (.precedence levels')
  | level {visible : List String} {ops ops' : OperatorLevel} (h : ops.Counterpart C visible ops')
    {operand operand' : Nat} (hoperand : C.handle operand operand') :
    Counterpart C (.level ops operand) (.level ops' operand')

structure Rule.Counterpart (C : Correspondence) (rule rule' : Rule) : Prop where
  name_eq : rule.name = rule'.name
  body : rule.body.Counterpart C rule'.body

theorem Rule.Counterpart.refl (hhandle : ∀ handle, C.handle handle handle) (rule : Rule) :
    rule.Counterpart C rule := by
  obtain ⟨name, kind, body⟩ := rule
  refine ⟨rfl, ?_⟩
  cases body with
  | expr e => exact .expr (.refl hhandle fun _ => List.Subset.refl e.bound)
  | precedence levels => exact .precedence (List.forall₂_same.mpr fun handle _ => hhandle handle)
  | level operators operand => exact .level (.refl hhandle operators) (hhandle operand)

/-- Handles that stand for one another lead to rules that do, or both are the same handle
and lead to none. -/
def Correspondence.Rules (C : Correspondence) (rules rules' : List Rule) : Prop :=
  ∀ handle handle', C.handle handle handle' →
    (handle = handle' ∧ rules[handle]? = none ∧ rules'[handle']? = none) ∨
      ∃ rule rule', rules[handle]? = some rule ∧ rules'[handle']? = some rule' ∧
        rule.Counterpart C rule'

/-- Rules that correspond place by place, where every handle stands for itself only. -/
theorem Correspondence.Rules.of_map (hhandle : ∀ {handle handle'}, C.handle handle handle' →
      handle = handle') {f f' : Rule → Rule} {rules rules' : List Rule}
    (h : rules.map f = rules'.map f')
    (hcounterpart : ∀ rule rule', f rule = f' rule' → rule.Counterpart C rule') :
    C.Rules rules rules' := by
  intro handle handle' hsame
  obtain rfl := hhandle hsame
  have hplace : rules[handle]?.map f = rules'[handle]?.map f' := by
    rw [← List.getElem?_map, h, List.getElem?_map]
  cases hrule : rules[handle]? with
  | none =>
    rw [hrule, Option.map_none] at hplace
    exact Or.inl ⟨rfl, rfl, Option.map_eq_none_iff.mp hplace.symm⟩
  | some rule =>
    rw [hrule, Option.map_some] at hplace
    obtain ⟨rule', hrule', heq⟩ := Option.map_eq_some_iff.mp hplace.symm
    exact Or.inr ⟨rule, rule', rfl, hrule', hcounterpart rule rule' heq.symm⟩

theorem Rule.Counterpart.evalBody_coupled {call call' : Nat → Matcher Value}
    (hcall : ∀ h h', C.handle h h' → ∀ names, Coupled C names C.Same (call h) (call' h'))
    {rule rule' : Rule} (h : rule.Counterpart C rule') {handle handle' : Nat}
    (hhandle : C.handle handle handle') :
    ∃ names, Coupled C names C.Same (rule.evalBody call handle)
      (rule'.evalBody call' handle') := by
  obtain ⟨name, kind, body⟩ := rule
  obtain ⟨name', kind', body'⟩ := rule'
  obtain ⟨rfl, hbody⟩ := h
  cases hbody with
  | @expr names e e' h => exact ⟨names, h.eval_coupled hcall⟩
  | precedence h =>
    cases h with
    | nil => exact ⟨[], coupled_throw (.fault _)⟩
    | cons hfirst _ => exact ⟨[], hcall _ _ hfirst []⟩
  | level h hoperand =>
    exact ⟨[], h.eval_coupled hcall (hcall _ _ hhandle []) (hcall _ _ hoperand [])⟩

/-- How deep the calls of the two runs may nest. Where the calls of one may nest deeper,
nothing is asked of it when the other has run out of depth. -/
structure Correspondence.Depths (C : Correspondence) (depth depth' : Nat) : Prop where
  cutsFirst : depth < depth' → C.cutsFirst .exhausted
  cutsSecond : depth' < depth → C.cutsSecond .exhausted

theorem Correspondence.Depths.refl (depth : Nat) : C.Depths depth depth :=
  ⟨fun h => absurd h (Nat.lt_irrefl depth), fun h => absurd h (Nat.lt_irrefl depth)⟩

theorem Correspondence.Depths.of_succ {depth depth' : Nat} (h : C.Depths (depth + 1) (depth' + 1)) :
    C.Depths depth depth' :=
  ⟨fun hlt => h.cutsFirst (Nat.succ_lt_succ hlt), fun hlt => h.cutsSecond (Nat.succ_lt_succ hlt)⟩

/-- A call is coupled with the call of a rule that stands for the rule, if the calls that
the two bodies make are. -/
theorem callRule_succ_coupled {rules rules' : List Rule} (hrules : C.Rules rules rules')
    {depth depth' : Nat}
    (hcall : ∀ h h', C.handle h h' → ∀ names, Coupled C names C.Same
      (callRule rules depth h) (callRule rules' depth' h'))
    {handle handle' : Nat} (hhandle : C.handle handle handle') :
    Coupled C visible C.Same (callRule rules (depth + 1) handle)
      (callRule rules' (depth' + 1) handle') := by
  rw [callRule, callRule]
  rcases hrules handle handle' hhandle with
    ⟨rfl, hnone, hnone'⟩ | ⟨rule, rule', hrule, hrule', h⟩
  · rw [hnone, hnone']
    exact coupled_throw (.fault _)
  · obtain ⟨names, hbody⟩ := h.evalBody_coupled hcall hhandle
    rw [hrule, hrule']
    dsimp only
    rw [h.name_eq]
    apply coupled_traced
    apply coupled_bind (coupled_withScope (.empty names) hbody)
    exact fun _ _ hresult => coupled_pure hresult.1

/-- Calls of rules that stand for one another are coupled, whatever the scopes that they
are made from bind. -/
theorem callRule_coupled {rules rules' : List Rule} (hrules : C.Rules rules rules')
    {depth depth' : Nat} (hdepth : C.Depths depth depth') {handle handle' : Nat}
    (hhandle : C.handle handle handle') :
    Coupled C visible C.Same (callRule rules depth handle) (callRule rules' depth' handle') := by
  -- A body starts with an empty scope, so it is free to say which names it may bind.
  induction depth generalizing depth' handle handle' visible with
  | zero =>
    cases depth' with
    | zero => exact coupled_throw .exhausted
    | succ deeper => exact fun s _ _ => .cutFirst (hdepth.cutsFirst (Nat.zero_lt_succ _)) s _
  | succ depth ih =>
    cases depth' with
    | zero => exact fun _ s' _ => .cutSecond (hdepth.cutsSecond (Nat.zero_lt_succ _)) s' _
    | succ depth' =>
      exact callRule_succ_coupled hrules (fun _ _ hh _ => ih hdepth.of_succ hh) hhandle

end Peg
