import Peg.Proofs.Outline

/-!
Recognition and semantic actions. Two grammars that differ in nothing but the functions
of their actions recognise the same: where neither run is cut short, both match or both
fail, at the same place and by the same expression, whatever names were bound before and
whatever values come about on the way.
-/

namespace Peg

open Matcher

namespace Expr

variable {visible : List String}

theorem map_outline_eq_iff {es es' : List Expr} :
    es.map outline = es'.map outline ↔
      es.length = es'.length ∧ ∀ {e e'}, (e, e') ∈ es.zip es' → e.outline = e'.outline := by
  rw [← List.forall₂_iff_zip, ← List.forall₂_eq_eq_eq, List.forall₂_map_left_iff,
    List.forall₂_map_right_iff]

/-- Expressions with the same outline stand for one another where values may differ. -/
theorem counterpart_of_outline {e e' : Expr} (h : e.outline = e'.outline) :
    e.Counterpart (.ofOutlines False) visible e' := by
  induction e using parts_induction generalizing e' visible with
  | literal l =>
    cases e' <;> cases h
    exact .literal l
  | charClass cls =>
    cases e' <;> cases h
    exact .charClass cls
  | anyChar =>
    cases e' <;> cases h
    exact .anyChar
  | seq es ih =>
    rw [outline_seq] at h
    cases e' with
    | seq es' =>
      rw [outline_seq] at h
      obtain ⟨hlength, hparts⟩ := map_outline_eq_iff.mp (seq.inj h)
      exact .seq hlength fun hmem => ih _ (List.of_mem_zip hmem).1 (hparts hmem)
    | _ => cases h
  | choice es ih =>
    cases e' with
    | choice es' =>
      -- A choice of nothing fails by itself, so the mismatch names the choice.
      have hnode := h
      rw [outline_choice, outline_choice] at h
      obtain ⟨hlength, hparts⟩ := map_outline_eq_iff.mp (choice.inj h)
      exact .choice hnode hlength fun hmem => ih _ (List.of_mem_zip hmem).1 (hparts hmem)
    | _ => cases h
  | star e ih =>
    cases e' with
    | star e' =>
      have hbody : e.outline = e'.outline := star.inj h
      exact .star hbody (ih hbody)
    | _ => cases h
  | plus e ih =>
    cases e' with
    | plus e' =>
      have hbody : e.outline = e'.outline := plus.inj h
      exact .plus hbody (ih hbody)
    | _ => cases h
  | optional e ih =>
    cases e' with
    | optional e' =>
      have hbody : e.outline = e'.outline := optional.inj h
      exact .optional (ih hbody)
    | _ => cases h
  | ahead e ih =>
    cases e' with
    | ahead e' =>
      have hbody : e.outline = e'.outline := ahead.inj h
      exact .ahead (ih hbody)
    | _ => cases h
  | notAhead e ih =>
    cases e' with
    | notAhead e' =>
      have hbody : e.outline = e'.outline := notAhead.inj h
      exact .notAhead h (ih hbody)
    | _ => cases h
  | discard e ih =>
    cases e' with
    | discard e' =>
      have hbody : e.outline = e'.outline := discard.inj h
      exact .discard (ih hbody)
    | _ => cases h
  | label name e ih =>
    cases e' with
    | label name' e' =>
      obtain ⟨rfl, hbody⟩ := label.inj h
      exact .label False.elim (ih hbody)
    | _ => cases h
  | action e a ih =>
    cases e' with
    | action e' a' =>
      have hbody : e.outline = e'.outline := (action.inj h).1
      exact .action (List.Subset.refl visible) (fun _ _ _ h => False.elim h) (ih hbody)
    | _ => cases h
  | slice e ih =>
    cases e' with
    | slice e' =>
      have hbody : e.outline = e'.outline := slice.inj h
      exact .slice (ih hbody)
    | _ => cases h
  | concat e ih =>
    cases e' with
    | concat e' =>
      have hbody : e.outline = e'.outline := concat.inj h
      exact .concat (ih hbody)
    | _ => cases h
  | rule ref =>
    cases e' <;> cases h
    exact .refl (fun _ => rfl) False.elim

end Expr

/-! ## Grammars with the same outline -/

theorem operators_of_outline {α β : Type} {outline : α → α} {run : α → β} {visible : List String}
    {ops ops' : List (Expr × α)}
    (h : ops.map (fun op => (op.1.outline, outline op.2)) =
      ops'.map fun op => (op.1.outline, outline op.2)) :
    (Correspondence.ofOutlines False).Operators visible run ops ops' := by
  rw [← List.forall₂_eq_eq_eq, List.forall₂_map_left_iff, List.forall₂_map_right_iff] at h
  exact h.imp fun op op' hop =>
    ⟨Expr.counterpart_of_outline (Prod.ext_iff.mp hop).1, False.elim⟩

theorem OperatorLevel.counterpart_of_outline {level level' : OperatorLevel}
    {visible : List String} (h : level.outline = level'.outline) :
    level.Counterpart (.ofOutlines False) visible level' := by
  cases level with
  | prefixOps ops =>
    cases level' with
    | prefixOps ops' => exact .prefixOps (operators_of_outline (prefixOps.inj h))
    | _ => cases h
  | postfixOps ops =>
    cases level' with
    | postfixOps ops' => exact .postfixOps (operators_of_outline (postfixOps.inj h))
    | _ => cases h
  | leftAssoc ops =>
    cases level' with
    | leftAssoc ops' => exact .leftAssoc (operators_of_outline (leftAssoc.inj h))
    | _ => cases h
  | rightAssoc ops =>
    cases level' with
    | rightAssoc ops' => exact .rightAssoc (operators_of_outline (rightAssoc.inj h))
    | _ => cases h

theorem RuleBody.counterpart_of_outline {body body' : RuleBody} (h : body.outline = body'.outline) :
    body.Counterpart (.ofOutlines False) body' := by
  cases body with
  | expr e =>
    cases body' with
    | expr e' =>
      have he : e.Counterpart (.ofOutlines False) [] e' :=
        e.counterpart_of_outline (expr.inj h)
      exact .expr he
    | _ => cases h
  | precedence levels =>
    cases body' with
    | precedence levels' =>
      obtain rfl := precedence.inj h
      exact .precedence (List.forall₂_same.mpr fun _ _ => rfl)
    | _ => cases h
  | level operators operand =>
    cases body' with
    | level operators' operand' =>
      have hlevel : operators.Counterpart (.ofOutlines False) [] operators' :=
        OperatorLevel.counterpart_of_outline (level.inj h).1
      exact .level hlevel (level.inj h).2
    | _ => cases h

theorem Rule.counterpart_of_outline {rule rule' : Rule} (h : rule.outline = rule'.outline) :
    rule.Counterpart (.ofOutlines False) rule' :=
  ⟨(Rule.mk.inj h).1, RuleBody.counterpart_of_outline (Rule.mk.inj h).2.2⟩

/-! ## Verdicts -/

/-- What recognition comes to. -/
structure Verdict where
  /-- The expression that failed, in outline, and where it did, unless all matched. -/
  mismatch? : Option Mismatch
  cursor : Cursor
  record : Array String

/-- The verdict of a run that was not cut short by a fault or by calls nested too deep. -/
def verdict? {α : Type} : EStateM.Result Interrupt MatchState α → Option Verdict
  | .ok _ s => some ⟨none, s.cursor, s.record⟩
  | .error (.mismatch x) s => some ⟨some x.outline, s.cursor, s.record⟩
  | .error _ _ => none

theorem verdict?_eq_none {α : Type} {interrupt : Interrupt}
    (hcut : ∀ x, interrupt ≠ .mismatch x) (s : MatchState) :
    verdict? (.error interrupt s : EStateM.Result Interrupt MatchState α) = none := by
  cases interrupt with
  | mismatch x => exact absurd rfl (hcut x)
  | fault fault => rfl
  | exhausted => rfl

/-- Results that correspond have the same verdict, if both have one. -/
theorem Correspondence.Results.verdict_eq {α : Type} {exact : Prop} {visible : List String}
    {V : α → α → Prop} {result result' : EStateM.Result Interrupt MatchState α}
    (h : (Correspondence.ofOutlines exact).Results visible V result result') :
    ∀ v ∈ verdict? result, ∀ v' ∈ verdict? result', v = v' := by
  cases h with
  | @ok a a' t t' _ ht =>
    rintro v ⟨⟩ v' ⟨⟩
    rw [ht.view.1, ht.view.2]
  | @error interrupt interrupt' t t' h ht =>
    cases h with
    | @mismatch x x' h =>
      have hexpr : x.expr.outline = x'.expr.outline := h.node
      rintro v ⟨⟩ v' ⟨⟩
      rw [Mismatch.outline, Mismatch.outline, hexpr, h.pos_eq, ht.view.1, ht.view.2]
    | fault fault => rintro v ⟨⟩
    | exhausted => rintro v ⟨⟩
  | cutFirst h t _ =>
    rw [verdict?_eq_none h.2]
    rintro v ⟨⟩
  | cutSecond h t _ =>
    rw [verdict?_eq_none h.2]
    rintro v _ v' ⟨⟩

/-- Two lists of rules that are the same but for the functions of their actions give the
same verdict on every rule and, with expressions that are the same but for those functions,
on every expression: wherever the match begins, whatever either scope binds, and however
deep calls may nest, if neither run is cut short. Whether they match, how far the cursors
get and once got, the expression that fails, where it does, and the record of the match
do not depend on actions or on what is bound. -/
theorem recognition_ignores_actions {rules rules' : List Rule}
    (hrules : rules.map Rule.outline = rules'.map Rule.outline) (depth depth' : Nat)
    (cursor : Cursor) (scope scope' : Captures) (events : Array Event) :
    (∀ handle,
      ∀ v ∈ verdict? ((callRule rules depth handle).run ⟨cursor, scope, events⟩),
      ∀ v' ∈ verdict? ((callRule rules' depth' handle).run ⟨cursor, scope', events⟩), v = v') ∧
    ∀ e e' : Expr, e.outline = e'.outline →
      ∀ v ∈ verdict? ((e.eval (callRule rules depth)).run ⟨cursor, scope, events⟩),
      ∀ v' ∈ verdict? ((e'.eval (callRule rules' depth')).run ⟨cursor, scope', events⟩),
        v = v' := by
  have hstates : (Correspondence.ofOutlines False).States [] ⟨cursor, scope, events⟩
      ⟨cursor, scope', events⟩ := ⟨⟨rfl, rfl⟩, False.elim, False.elim⟩
  have hdepth : (Correspondence.ofOutlines False).Depths depth depth' :=
    ⟨fun _ => ⟨id, by rintro x ⟨⟩⟩, fun _ => ⟨id, by rintro x ⟨⟩⟩⟩
  have hcall : ∀ h h', h = h' → ∀ names, Coupled (.ofOutlines False) names
      (Correspondence.ofOutlines False).Same (callRule rules depth h)
      (callRule rules' depth' h') :=
    fun h h' hh names => callRule_coupled
      (.of_map id hrules fun _ _ => Rule.counterpart_of_outline) hdepth hh
  constructor
  · intro handle
    exact (hcall handle handle rfl [] _ _ hstates).verdict_eq
  · intro e e' houtline
    exact ((Expr.counterpart_of_outline houtline).eval_coupled hcall _ _ hstates).verdict_eq

/-- An action that gives back what it saw bound, and one that gives a number: on `ac` the
pair of an `a` and a `b` fails at the same byte with either. -/
theorem recognition_ignores_actions_of_pair :
    let pair (a : Action) : List Rule := [⟨"Pair", .plain, .expr (.seq
      [.action (.label "x" (.literal (.exact [0x61]))) a, .literal (.exact [0x62])])⟩]
    let bound : Action :=
      ⟨"x", ["x"], fun context value => .ok ((context.capture? "x").getD value)⟩
    let one : Action := ⟨"x", ["x"], fun _ _ => .ok (.int 1)⟩
    let scope := Captures.empty.insert "y" .nil
    let cursor := Cursor.start [0x61, 0x63]
    (pair bound).map Rule.outline = (pair one).map Rule.outline ∧
    ∃ v, verdict? ((callRule (pair bound) 1 0).run ⟨cursor, .empty, #[]⟩) = some v ∧
      verdict? ((callRule (pair one) 2 0).run ⟨cursor, scope, #[]⟩) = some v ∧
      v.mismatch?.map Mismatch.pos = some 1 := by
  intro pair bound one scope cursor
  have hrules : (pair bound).map Rule.outline = (pair one).map Rule.outline := rfl
  obtain ⟨v, hv, hpos⟩ :
      ∃ v, verdict? ((callRule (pair bound) 1 0).run ⟨cursor, .empty, #[]⟩) = some v ∧
        v.mismatch?.map Mismatch.pos = some 1 := ⟨_, rfl, rfl⟩
  obtain ⟨v', hv'⟩ :
      ∃ v', verdict? ((callRule (pair one) 2 0).run ⟨cursor, scope, #[]⟩) = some v' := ⟨_, rfl⟩
  obtain rfl := (recognition_ignores_actions hrules 1 2 cursor .empty scope #[]).1 0 v hv v' hv'
  exact ⟨hrules, v, hv, hv', hpos⟩

end Peg
