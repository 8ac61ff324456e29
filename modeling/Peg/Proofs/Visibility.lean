import Peg.Parse
import Peg.Proofs.Outline

/-!
What an action can see. The check of a rule counts as visible to an action the names
bound in the whole expression, in the expressions that the actions around it are on, and
in the one it is on itself. No match ever gives an action any other name: were each action
to do something else when it is given one, nothing that can be seen of a match would
change. So labels of callers and callees, of actions beside it and of actions inside it
are out of its sight, and a name that the check misses is not there when the action runs.
-/

namespace Peg

open Matcher

/-! ## Confined actions -/

/-- The action, but doing something else when it is given a name not among these. -/
def Action.confined (a : Action) (names : List String)
    (other : ActionContext → Value → Except Fault Value) : Action :=
  { a with run := fun context value =>
      if context.captures.Within names then a.run context value else other context value }

variable {other : ActionContext → Value → Except Fault Value}

namespace Expr

mutual
/-- The expression with each action confined to the names that are visible from outside
or bound around it. -/
def confine (other : ActionContext → Value → Except Fault Value) (visible : List String) :
    Expr → Expr
  | action e a =>
    let names := visible ++ e.labels
    action (e.confine other names) (a.confined names other)
  | seq es => seq (confineAll other visible es)
  | choice es => choice (confineAll other visible es)
  | star e => star (e.confine other visible)
  | plus e => plus (e.confine other visible)
  | optional e => optional (e.confine other visible)
  | ahead e => ahead (e.confine other visible)
  | notAhead e => notAhead (e.confine other visible)
  | discard e => discard (e.confine other visible)
  | label name e => label name (e.confine other visible)
  | slice e => slice (e.confine other visible)
  | concat e => concat (e.confine other visible)
  | literal l => literal l
  | charClass cls => charClass cls
  | anyChar => anyChar
  | rule ref => rule ref

/-- Each expression with its actions confined. -/
def confineAll (other : ActionContext → Value → Except Fault Value) (visible : List String) :
    List Expr → List Expr
  | [] => []
  | e :: es => e.confine other visible :: confineAll other visible es
end

theorem confineAll_eq_map (visible : List String) (es : List Expr) :
    confineAll other visible es = es.map (confine other visible) := by
  induction es with
  | nil => rfl
  | cons e es ih => simp [confineAll, ih]

theorem outline_confine (e : Expr) (visible : List String) :
    (e.confine other visible).outline = e.outline := by
  induction e using parts_induction generalizing visible with
  | literal | charClass | anyChar | rule => rfl
  | seq es ih =>
    rw [confine, confineAll_eq_map, outline_seq, outline_seq, List.map_map]
    exact congrArg seq (List.map_congr_left fun e he => ih e he visible)
  | choice es ih =>
    rw [confine, confineAll_eq_map, outline_choice, outline_choice, List.map_map]
    exact congrArg choice (List.map_congr_left fun e he => ih e he visible)
  | star e ih => exact congrArg star (ih visible)
  | plus e ih => exact congrArg plus (ih visible)
  | optional e ih => exact congrArg optional (ih visible)
  | ahead e ih => exact congrArg ahead (ih visible)
  | notAhead e ih => exact congrArg notAhead (ih visible)
  | discard e ih => exact congrArg discard (ih visible)
  | label name e ih => exact congrArg (label name) (ih visible)
  | action e a ih => exact congrArg (action · a.outline) (ih _)
  | slice e ih => exact congrArg slice (ih visible)
  | concat e ih => exact congrArg concat (ih visible)

theorem scopeParts_confine (e : Expr) (visible : List String) :
    (e.confine other visible).scopeParts = e.scopeParts.map (confine other visible) := by
  cases e with
  | seq es | choice es => exact confineAll_eq_map visible es
  | _ => rfl

/-- The names that the check counts as visible to an action: those bound in the whole
expression, in those that the actions around it are on, and in the one it is on. -/
def visibleTo (visible : List String) (around : List Expr) (body : Expr) : List String :=
  visible ++ around.flatMap labels ++ body.labels

theorem visibleTo_nil (visible : List String) (body : Expr) :
    visibleTo visible [] body = visible ++ body.labels := by
  rw [visibleTo, List.flatMap_nil, List.append_nil]

theorem visibleTo_cons (visible : List String) (outer : Expr) (around : List Expr) (body : Expr) :
    visibleTo visible (outer :: around) body =
      visibleTo (visible ++ outer.labels) around body := by
  simp only [visibleTo, List.flatMap_cons, List.append_assoc]

/-- The actions of a confined expression are those of the expression, each confined to the
names that the check counts as visible to it. -/
theorem hasAction_confine_iff {visible : List String} {e : Expr} {b : Action} :
    (∃ body around, HasAction body b around (e.confine other visible)) ↔
      ∃ body a around, HasAction body a around e ∧
        b = a.confined (visibleTo visible around body) other := by
  induction e using children_induction generalizing visible with
  | step e ih =>
    by_cases he : ∃ outer a, e = .action outer a
    · obtain ⟨outer, a, rfl⟩ := he
      -- What the action encloses sees the labels of the enclosed expression too.
      have houter := @ih outer List.mem_cons_self (visible ++ outer.labels)
      simp only [confine, hasAction_action_iff]
      constructor
      · rintro ⟨body, around, ⟨-, rfl, -⟩ | ⟨rest, -, h⟩⟩
        · exact ⟨outer, a, [], Or.inl ⟨rfl, rfl, rfl⟩, by rw [visibleTo_nil]⟩
        · obtain ⟨body, a, around, haction, rfl⟩ := houter.mp ⟨body, rest, h⟩
          exact ⟨body, a, outer :: around, Or.inr ⟨around, rfl, haction⟩, by rw [visibleTo_cons]⟩
      · rintro ⟨body, b, around, ⟨rfl, rfl, rfl⟩ | ⟨rest, rfl, haction⟩, rfl⟩
        · exact ⟨_, [], Or.inl ⟨rfl, by rw [visibleTo_nil], rfl⟩⟩
        · obtain ⟨body', around', h⟩ :=
            houter.mpr ⟨body, b, rest, haction, by rw [visibleTo_cons]⟩
          exact ⟨body', _ :: around', Or.inr ⟨around', rfl, h⟩⟩
    · have hplain : ∀ outer a, e ≠ .action outer a := fun outer a heq => he ⟨outer, a, heq⟩
      have hconfined : ∀ outer a, e.confine other visible ≠ .action outer a := by
        cases e with
        | action outer a => exact absurd rfl (hplain outer a)
        | _ => exact fun _ _ h => nomatch h
      simp only [hasAction_iff_of_parts hplain, hasAction_iff_of_parts hconfined,
        scopeParts_confine, List.mem_map]
      constructor
      · rintro ⟨body, around, _, ⟨part, hpart, rfl⟩, h⟩
        obtain ⟨body, a, around, haction, rfl⟩ :=
          (ih part (mem_children_of_mem_scopeParts hpart)).mp ⟨body, around, h⟩
        exact ⟨body, a, around, ⟨part, hpart, haction⟩, rfl⟩
      · rintro ⟨body, a, around, ⟨part, hpart, haction⟩, rfl⟩
        obtain ⟨body', around', h⟩ :=
          (ih part (mem_children_of_mem_scopeParts hpart)).mpr ⟨body, a, around, haction, rfl⟩
        exact ⟨body', around', _, ⟨part, hpart, rfl⟩, h⟩

/-- Confining its actions gives an expression that stands for the whole. -/
theorem counterpart_confine {e : Expr} {visible : List String} (hbound : e.bound ⊆ visible) :
    e.Counterpart (.ofOutlines True) visible (e.confine other visible) := by
  induction e using parts_induction generalizing visible with
  | literal l => exact .literal l
  | charClass cls => exact .charClass cls
  | anyChar => exact .anyChar
  | seq es ih =>
    have hsub : ∀ e ∈ es, e.bound ⊆ visible := fun e he =>
      List.Subset.trans (bound_subset_of_mem_scopeParts (e := .seq es) he) hbound
    have hparts := List.forall₂_iff_zip.mp (List.forall₂_map_right_iff.mpr
      (List.forall₂_same.mpr fun e he => ih e he (hsub e he)))
    rw [confine, confineAll_eq_map]
    exact .seq hparts.1 hparts.2
  | choice es ih =>
    have hnode : (choice es).outline = ((choice es).confine other visible).outline :=
      (outline_confine _ visible).symm
    have hsub : ∀ e ∈ es, e.bound ⊆ visible := fun e he =>
      List.Subset.trans (bound_subset_of_mem_scopeParts (e := .choice es) he) hbound
    have hparts := List.forall₂_iff_zip.mp (List.forall₂_map_right_iff.mpr
      (List.forall₂_same.mpr fun e he => ih e he (hsub e he)))
    rw [confine, confineAll_eq_map] at hnode ⊢
    exact .choice hnode hparts.1 hparts.2
  | star e ih => exact .star (outline_confine e visible).symm (ih hbound)
  | plus e ih => exact .plus (outline_confine e visible).symm (ih hbound)
  | optional e ih => exact .optional (ih hbound)
  | ahead e ih => exact .ahead (ih hbound)
  | notAhead e ih => exact .notAhead (outline_confine (notAhead e) visible).symm (ih hbound)
  | discard e ih => exact .discard (ih hbound)
  | label name e ih =>
    rw [bound, List.cons_subset] at hbound
    exact .label (fun _ => hbound.1) (ih hbound.2)
  | action e a ih =>
    refine .action (List.subset_append_left visible e.labels) ?_ (ih ?_)
    · intro context value hwithin _
      exact (if_pos (hwithin trivial)).symm
    · exact fun name hname => List.mem_append_right _ (mem_labels.mpr hname)
  | slice e ih => exact .slice (ih hbound)
  | concat e ih => exact .concat (ih hbound)
  | rule ref => exact .refl (fun _ => rfl) fun _ => hbound

theorem mem_visibleTo_iff {visible : List String} {around : List Expr} {body : Expr}
    {name : String} :
    name ∈ visibleTo visible around body ↔
      name ∈ visible ∨ Binds name body ∨ ∃ outer ∈ around, Binds name outer := by
  simp only [visibleTo, List.mem_append, List.mem_flatMap, mem_labels, mem_bound_iff_binds,
    or_assoc]
  exact or_congr_right or_comm

/-- The names that the check reports are those that an action expects and that it does not
count as visible to that action. -/
theorem mem_missingCaptures_iff_visibleTo {root : Expr} {source name : String} :
    (source, name) ∈ root.missingCaptures root.labels ↔
      ∃ body a around, HasAction body a around root ∧ a.source = source ∧ name ∈ a.captures ∧
        name ∉ visibleTo root.labels around body := by
  simp only [mem_missingCaptures_iff, mem_visibleTo_iff, not_or, not_exists, not_and]

end Expr

/-- The rule with the actions of its expression confined to the names that the check counts
as visible to them. The operators of a level stay as they are. -/
def Rule.confine (other : ActionContext → Value → Except Fault Value) (rule : Rule) : Rule :=
  match rule.body with
  | .expr root => { rule with body := .expr (root.confine other root.labels) }
  | _ => rule

theorem Rule.counterpart_confine (rule : Rule) :
    rule.Counterpart (.ofOutlines True) (rule.confine other) := by
  obtain ⟨name, kind, body⟩ := rule
  cases body with
  | expr root =>
    exact ⟨rfl, .expr (root.counterpart_confine fun _ hname => Expr.mem_labels.mpr hname)⟩
  | precedence levels => exact .refl (fun _ => rfl) _
  | level operators operand => exact .refl (fun _ => rfl) _

theorem rules_confine (rules : List Rule) :
    (Correspondence.ofOutlines True).Rules rules (rules.map (Rule.confine other)) := by
  have hmap : rules.map (Rule.confine other) = (rules.map (Rule.confine other)).map id :=
    (List.map_id _).symm
  apply Correspondence.Rules.of_map id hmap
  rintro rule _ rfl
  exact rule.counterpart_confine

/-! ## What can be seen of a match -/

/-- The run as it can be told without the functions of actions: its value, mismatch or
fault, the cursor, and the record of the match. -/
def Run.outline (run : Run) : Except Interrupt Value × Cursor × Array String :=
  (run.outcome.mapError Interrupt.outline, run.cursor, run.events.map Event.line)

theorem Matcher.Coupled.outline_runOn {m m' : Matcher Value}
    (h : Coupled (.ofOutlines True) [] (Correspondence.ofOutlines True).Same m m')
    (cursor : Cursor) : (m.runOn cursor).outline = (m'.runOn cursor).outline := by
  have hresults := h ⟨cursor, .empty, #[]⟩ ⟨cursor, .empty, #[]⟩ ⟨⟨rfl, rfl⟩, .empty []⟩
  unfold EStateM.run at hresults
  unfold runOn
  generalize m _ = result at hresults ⊢
  generalize m' _ = result' at hresults ⊢
  cases hresults with
  | @ok value value' t t' hvalue ht =>
    have hrecord : t.events.map Event.line = t'.events.map Event.line := ht.view.2
    obtain rfl := hvalue trivial
    simp only [Run.outline, Except.mapError, ht.view.1, hrecord]
  | @error interrupt interrupt' t t' hinterrupt ht =>
    have hrecord : t.events.map Event.line = t'.events.map Event.line := ht.view.2
    simp only [Run.outline, Except.mapError, hinterrupt.outline_eq, ht.view.1, hrecord]
  | cutFirst h => exact absurd trivial h.1
  | cutSecond h => exact absurd trivial h.1

/-- No action is ever given another name than those that the check counts as visible to it.
The actions of the confined rules are the actions of the rules, each confined to just these
names; what the check reports is missing from just these names; and a rule matches the same
when all actions are confined, whatever an action would do instead if it were given another
name. To end in a fault is one thing it could do, and nothing in a match handles a fault:
so not even in an attempt that is given up is an action run with another name. -/
theorem actions_see_only_visible_names (rules : List Rule)
    (other : ActionContext → Value → Except Fault Value) :
    (∀ root b, (∃ body around, Expr.HasAction body b around (root.confine other root.labels)) ↔
      ∃ body a around, Expr.HasAction body a around root ∧
        b = a.confined (Expr.visibleTo root.labels around body) other) ∧
    (∀ root source name, (source, name) ∈ Expr.missingCaptures root.labels root ↔
      ∃ body a around, Expr.HasAction body a around root ∧ a.source = source ∧
        name ∈ a.captures ∧ name ∉ Expr.visibleTo root.labels around body) ∧
    ∀ depth handle cursor,
      ((callRule (rules.map (Rule.confine other)) depth handle).runOn cursor).outline =
        ((callRule rules depth handle).runOn cursor).outline := by
  have hcoupled : ∀ depth handle, Coupled (.ofOutlines True) []
      (Correspondence.ofOutlines True).Same (callRule rules depth handle)
      (callRule (rules.map (Rule.confine other)) depth handle) :=
    fun depth _ => callRule_coupled (rules_confine rules) (.refl depth) rfl
  refine ⟨fun _ _ => Expr.hasAction_confine_iff,
    fun _ _ _ => Expr.mem_missingCaptures_iff_visibleTo, ?_⟩
  intro depth handle cursor
  exact ((hcoupled depth handle).outline_runOn cursor).symm

end Peg
