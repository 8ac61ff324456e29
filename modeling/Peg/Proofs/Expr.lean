import Peg.Grammar.Resolution
import Peg.Matcher.Expr

/-!
What stands in an expression. A rule reference may occur at any depth; a label
binds its name for the expression around it, up to the nearest action; an action
sees the labels of its own expression and of all that encloses it. These notions
are said here of the tree alone, and the functions that collect references and
names and check what actions expect are shown to agree with them. An expression
without references is the same in every grammar, and so is what it matches.
-/

namespace Peg

namespace Expr

/-- Induction on an expression, with the hypothesis for each member of a list
of parts. -/
@[elab_as_elim]
theorem parts_induction {motive : Expr → Prop}
    (literal : ∀ l, motive (.literal l)) (charClass : ∀ c, motive (.charClass c))
    (anyChar : motive .anyChar)
    (seq : ∀ es, (∀ e ∈ es, motive e) → motive (.seq es))
    (choice : ∀ es, (∀ e ∈ es, motive e) → motive (.choice es))
    (star : ∀ e, motive e → motive (.star e)) (plus : ∀ e, motive e → motive (.plus e))
    (optional : ∀ e, motive e → motive (.optional e))
    (ahead : ∀ e, motive e → motive (.ahead e))
    (notAhead : ∀ e, motive e → motive (.notAhead e))
    (discard : ∀ e, motive e → motive (.discard e))
    (label : ∀ name e, motive e → motive (.label name e))
    (action : ∀ e a, motive e → motive (.action e a))
    (slice : ∀ e, motive e → motive (.slice e)) (concat : ∀ e, motive e → motive (.concat e))
    (rule : ∀ ref, motive (.rule ref)) (e : Expr) : motive e := by
  refine @Expr.rec motive (fun es => ∀ e ∈ es, motive e) literal charClass anyChar seq choice
    star plus optional ahead notAhead discard label action slice concat rule ?_ ?_ e
  · intro e he
    cases he
  · intro head tail hhead htail e he
    rcases List.mem_cons.mp he with rfl | he
    · exact hhead
    · exact htail e he

/-- Induction on an expression for statements in which all kinds of expressions
are alike. -/
theorem children_induction {motive : Expr → Prop}
    (step : ∀ e, (∀ part ∈ e.children, motive part) → motive e) (e : Expr) : motive e := by
  induction e using parts_induction with
  | literal | charClass | anyChar | rule => exact step _ (by simp [children])
  | seq es ih | choice es ih => exact step _ ih
  | star e ih | plus e ih | optional e ih | ahead e ih | notAhead e ih | discard e ih
  | label _ e ih | action e _ ih | slice e ih | concat e ih =>
    exact step _ (by simpa [children] using ih)

/-- Changing nodes in ways that do not show in their own text leaves the whole text as
it is. -/
theorem render_mapNodes {f : Expr → Expr}
    (hf : ∀ e atomic, (f e).render atomic = e.render atomic) (e : Expr) (atomic : Bool) :
    (e.mapNodes f).render atomic = e.render atomic := by
  have htexts {es : List Expr} (ih : ∀ e ∈ es, ∀ atomic,
      (e.mapNodes f).render atomic = e.render atomic) :
      (es.map (mapNodes f)).map (render true) = es.map (render true) := by
    rw [List.map_map]
    exact List.map_congr_left fun e he => ih e he true
  induction e using parts_induction generalizing atomic with
  | literal | charClass | anyChar | rule => exact hf _ _
  | seq es ih | choice es ih =>
    rw [mapNodes, hf, render, render, mapAllNodes_eq_map, renderAll_eq_map, renderAll_eq_map,
      htexts ih, List.length_map]
  | star e ih | plus e ih | optional e ih | ahead e ih | notAhead e ih | discard e ih
  | label _ e ih | action e _ ih | slice e ih | concat e ih =>
    rw [mapNodes, hf, render, render, ih]

/-- Binding references does not show. -/
theorem render_bind (handle? : String → Option Nat) (e : Expr) (atomic : Bool) :
    (e.bind handle?).render atomic = e.render atomic := by
  refine render_mapNodes (fun node atomic => ?_) e atomic
  cases node with
  | rule ref =>
    simp only [bindNode, RuleRef.bind, render]
    split <;> rfl
  | _ => rfl

/-! ## Rule references -/

/-- The expression `d` stands in another, at any depth, or is the other itself. -/
inductive Occurs (d : Expr) : Expr → Prop
  | self : Occurs d d
  | inside {e part : Expr} (hpart : part ∈ e.children) (h : Occurs d part) : Occurs d e

theorem mem_postorder_iff {d e : Expr} :
    d ∈ e.postorder ↔ d = e ∨ ∃ part ∈ e.children, d ∈ part.postorder := by
  cases e <;>
    simp only [postorder, inner, children, postorderAll_eq_flatMap, List.mem_append,
      List.mem_flatMap, List.mem_singleton, List.not_mem_nil, exists_eq_left, false_and,
      exists_false, or_comm]

theorem mem_postorder_iff_occurs {d e : Expr} : d ∈ e.postorder ↔ Occurs d e := by
  constructor
  · induction e using children_induction with
    | step e ih =>
      rw [mem_postorder_iff]
      rintro (rfl | ⟨part, hpart, hd⟩)
      · exact .self
      · exact .inside hpart (ih part hpart hd)
  · intro h
    induction h with
    | self => exact mem_postorder_iff.mpr (Or.inl rfl)
    | inside hpart _ ih => exact mem_postorder_iff.mpr (Or.inr ⟨_, hpart, ih⟩)

theorem mem_references_iff {ref : RuleRef} {e : Expr} :
    ref ∈ e.references ↔ Occurs (.rule ref) e := by
  rw [← mem_postorder_iff_occurs, references, List.mem_filterMap]
  constructor
  · rintro ⟨d, hd, href⟩
    cases d <;> simp_all [ref?]
  · intro hd
    exact ⟨_, hd, rfl⟩

/-- No rule reference stands in the expression. -/
def Closed (e : Expr) : Prop :=
  ∀ ref, ¬ (rule ref).Occurs e

theorem Closed.part {e part : Expr} (h : e.Closed) (hpart : part ∈ e.children) : part.Closed :=
  fun ref hoccurs => h ref (.inside hpart hoccurs)

theorem not_closed_rule (ref : RuleRef) : ¬ (rule ref).Closed :=
  fun h => h ref .self

/-- An expression that takes bytes itself. -/
inductive Leaf : Expr → Prop
  | literal (l : Literal) : Leaf (.literal l)
  | charClass (c : CharClass) : Leaf (.charClass c)
  | anyChar : Leaf .anyChar

theorem anyChar_size_le (rest : Bytes) (size : Nat)
    (h : (Utf8.first? rest).map Utf8.Segment.size = some size) : size ≤ rest.length := by
  obtain ⟨segment, hsegment, rfl⟩ := Option.map_eq_some_iff.mp h
  exact Utf8.first?_size_le hsegment

theorem Leaf.children_eq_nil {e : Expr} (h : e.Leaf) : e.children = [] := by
  cases h <;> rfl

theorem Leaf.closed {e : Expr} (h : e.Leaf) : e.Closed := by
  intro ref hoccurs
  cases hoccurs with
  | self => cases h
  | inside hpart _ =>
    rw [h.children_eq_nil] at hpart
    cases hpart

/-- Binding references leaves an expression without any as it is. -/
theorem Closed.bind_eq {e : Expr} (h : e.Closed) (handle? : String → Option Nat) :
    e.bind handle? = e := by
  unfold bind
  induction e using parts_induction with
  | literal | charClass | anyChar => rfl
  | rule ref => exact absurd h (not_closed_rule ref)
  | seq es ih | choice es ih =>
    have hparts : es.map (mapNodes (bindNode handle?)) = es := by
      refine Eq.trans (List.map_congr_left fun e he => ?_) (List.map_id es)
      exact ih e he (h.part he)
    simp only [mapNodes, bindNode, mapAllNodes_eq_map, hparts]
  | star e ih | plus e ih | optional e ih | ahead e ih | notAhead e ih | discard e ih
  | label _ e ih | action e _ ih | slice e ih | concat e ih =>
    simp only [mapNodes, bindNode, ih (h.part List.mem_cons_self)]

theorem evalParts_eq {call call' : Nat → Matcher Value} {es : List Expr}
    (hes : ∀ e ∈ es, e.eval call = e.eval call') : evalParts call es = evalParts call' es := by
  induction es with
  | nil => rfl
  | cons e es ih =>
    rw [evalParts, evalParts, hes e List.mem_cons_self,
      ih fun e he => hes e (List.mem_cons_of_mem _ he)]

/-- An expression without references matches the same whatever rules there are. -/
theorem Closed.eval_eq {e : Expr} (h : e.Closed) (call call' : Nat → Matcher Value) :
    e.eval call = e.eval call' := by
  induction e using parts_induction with
  | literal | charClass | anyChar => rfl
  | rule ref => exact absurd h (not_closed_rule ref)
  | seq es ih =>
    rw [eval, eval, evalParts_eq fun e he => ih e he (h.part he)]
  | choice es ih =>
    have hparts : es.map (eval call) = es.map (eval call') :=
      List.map_congr_left fun e he => ih e he (h.part he)
    rw [eval, eval, evalEach_eq_map, evalEach_eq_map, hparts]
  | star e ih | plus e ih | optional e ih | ahead e ih | notAhead e ih | discard e ih
  | label _ e ih | action e _ ih | slice e ih | concat e ih =>
    rw [eval, eval, ih (h.part List.mem_cons_self)]

/-! ## Labels and actions -/

/-- The parts that bind names in the scope of the expression. What an action
encloses has a scope of its own. -/
def scopeParts : Expr → List Expr
  | action _ _ => []
  | e => e.children

theorem scopeParts_eq_children {e : Expr} (he : ∀ body a, e ≠ .action body a) :
    e.scopeParts = e.children := by
  cases e with
  | action body a => exact absurd rfl (he body a)
  | _ => rfl

theorem mem_children_of_mem_scopeParts {e part : Expr} (h : part ∈ e.scopeParts) :
    part ∈ e.children := by
  cases e with
  | action body a => cases h
  | _ => exact h

/-- A label with the name stands in the scope of the expression. -/
inductive Binds (name : String) : Expr → Prop
  | here (body : Expr) : Binds name (.label name body)
  | inside {e part : Expr} (hpart : part ∈ e.scopeParts) (h : Binds name part) : Binds name e

theorem boundByAll_eq_flatMap (es : List Expr) : boundByAll es = es.flatMap bound := by
  induction es with
  | nil => rfl
  | cons e es ih => simp [boundByAll, ih]

theorem mem_bound_iff {name : String} {e : Expr} :
    name ∈ e.bound ↔
      (∃ body, e = .label name body) ∨ ∃ part ∈ e.scopeParts, name ∈ part.bound := by
  cases e <;> simp [bound, scopeParts, children, boundByAll_eq_flatMap, eq_comm]

theorem bound_subset_of_mem_scopeParts {e part : Expr} (hpart : part ∈ e.scopeParts) :
    part.bound ⊆ e.bound :=
  fun _ hname => mem_bound_iff.mpr (Or.inr ⟨part, hpart, hname⟩)

theorem mem_bound_iff_binds {name : String} {e : Expr} : name ∈ e.bound ↔ Binds name e := by
  constructor
  · induction e using children_induction with
    | step e ih =>
      rw [mem_bound_iff]
      rintro (⟨body, rfl⟩ | ⟨part, hpart, hname⟩)
      · exact .here body
      · exact .inside hpart (ih part (mem_children_of_mem_scopeParts hpart) hname)
  · intro h
    induction h with
    | here body => exact mem_bound_iff.mpr (Or.inl ⟨body, rfl⟩)
    | inside hpart _ ih => exact mem_bound_iff.mpr (Or.inr ⟨_, hpart, ih⟩)

private theorem nodup_eraseDups (names : List String) : names.eraseDups.Nodup := by
  cases names with
  | nil => simp
  | cons name rest =>
    rw [List.eraseDups_cons, List.nodup_cons]
    refine ⟨?_, nodup_eraseDups (rest.filter fun other => !other == name)⟩
    simp
termination_by names.length
decreasing_by exact Nat.lt_succ_of_le (List.length_filter_le ..)

theorem labels_nodup (e : Expr) : e.labels.Nodup :=
  nodup_eraseDups e.bound

/-- The action `a` on `body` stands in the expression, enclosed there by actions
on the expressions `around`, outermost first. -/
inductive HasAction (body : Expr) (a : Action) : List Expr → Expr → Prop
  | here : HasAction body a [] (.action body a)
  | enclosed {around : List Expr} {outer : Expr} {b : Action}
      (h : HasAction body a around outer) : HasAction body a (outer :: around) (.action outer b)
  | inside {around : List Expr} {e part : Expr} (hpart : part ∈ e.scopeParts)
      (h : HasAction body a around part) : HasAction body a around e

theorem hasAction_action_iff {body outer : Expr} {a b : Action} {around : List Expr} :
    HasAction body a around (.action outer b) ↔
      (outer = body ∧ b = a ∧ around = []) ∨
        ∃ rest, around = outer :: rest ∧ HasAction body a rest outer := by
  constructor
  · intro h
    cases h with
    | here => exact Or.inl ⟨rfl, rfl, rfl⟩
    | enclosed h => exact Or.inr ⟨_, rfl, h⟩
    | inside hpart _ => cases hpart
  · rintro (⟨rfl, rfl, rfl⟩ | ⟨rest, rfl, h⟩)
    · exact .here
    · exact .enclosed h

theorem hasAction_iff_of_parts {body e : Expr} {a : Action} {around : List Expr}
    (he : ∀ inner b, e ≠ .action inner b) :
    HasAction body a around e ↔ ∃ part ∈ e.scopeParts, HasAction body a around part := by
  constructor
  · intro h
    cases h with
    | here => exact absurd rfl (he _ _)
    | enclosed _ => exact absurd rfl (he _ _)
    | inside hpart h => exact ⟨_, hpart, h⟩
  · rintro ⟨part, hpart, h⟩
    exact .inside hpart h

/-- All that the actions in the expression expect is bound: for each name there
is a label in the scope of the whole, of the expression that the action is on, or
of one that an enclosing action is on. -/
def CapturesProvided (root : Expr) : Prop :=
  ∀ body a around, HasAction body a around root → ∀ name ∈ a.captures,
    Binds name root ∨ Binds name body ∨ ∃ outer ∈ around, Binds name outer

theorem Leaf.capturesProvided {e : Expr} (h : e.Leaf) : e.CapturesProvided := by
  intro body a around haction
  cases h <;>
    cases haction with
    | inside hpart _ => cases hpart

theorem missingCapturesInAll_eq_flatMap (visible : List String) (es : List Expr) :
    missingCapturesInAll visible es = es.flatMap (missingCaptures visible) := by
  induction es with
  | nil => rfl
  | cons e es ih => simp [missingCapturesInAll, ih]

theorem mem_missingCaptures_of_parts {visible : List String} {e : Expr}
    (he : ∀ body a, e ≠ .action body a) {missing : String × String} :
    missing ∈ e.missingCaptures visible ↔
      ∃ part ∈ e.children, missing ∈ part.missingCaptures visible := by
  cases e with
  | action body a => exact absurd rfl (he body a)
  | _ => simp [missingCaptures, children, missingCapturesInAll_eq_flatMap]

theorem mem_missingCaptures_action_iff {visible : List String} {e : Expr} {a : Action}
    {source name : String} :
    (source, name) ∈ (action e a).missingCaptures visible ↔
      (a.source = source ∧ name ∈ a.captures ∧ name ∉ visible ∧ ¬ Binds name e) ∨
        (source, name) ∈ e.missingCaptures (visible ++ e.labels) := by
  simp only [missingCaptures, List.mem_append, List.mem_map, List.mem_filter, Bool.not_eq_true',
    ← Bool.not_eq_true, List.contains_iff_mem, mem_labels, mem_bound_iff_binds, not_or,
    Prod.mk.injEq]
  constructor
  · rintro (⟨_, ⟨hname, hunseen⟩, rfl, rfl⟩ | hinner)
    · exact Or.inl ⟨rfl, hname, hunseen⟩
    · exact Or.inr hinner
  · rintro (⟨rfl, hname, hunseen⟩ | hinner)
    · exact Or.inl ⟨name, ⟨hname, hunseen⟩, rfl, rfl⟩
    · exact Or.inr hinner

/-- A name is missing just if some action expects it and does not see it, neither
among what is visible from outside nor among what is bound around it. -/
theorem mem_missingCaptures_iff {visible : List String} {e : Expr} {source name : String} :
    (source, name) ∈ e.missingCaptures visible ↔
      ∃ body a around, HasAction body a around e ∧ a.source = source ∧ name ∈ a.captures ∧
        name ∉ visible ∧ ¬ Binds name body ∧ ∀ outer ∈ around, ¬ Binds name outer := by
  induction e using children_induction generalizing visible with
  | step e ih =>
    by_cases he : ∃ outer b, e = .action outer b
    · obtain ⟨outer, b, rfl⟩ := he
      rw [mem_missingCaptures_action_iff, ih outer (by simp [children])]
      simp only [List.mem_append, mem_labels, mem_bound_iff_binds, not_or]
      constructor
      · rintro (⟨hsource, hname, hvisible, hbody⟩ |
          ⟨body, a, around, haction, hsource, hname, ⟨hvisible, houter⟩, hbody, haround⟩)
        · exact ⟨outer, b, [], .here, hsource, hname, hvisible, hbody, by simp⟩
        · exact ⟨body, a, outer :: around, .enclosed haction, hsource, hname, hvisible, hbody,
            List.forall_mem_cons.mpr ⟨houter, haround⟩⟩
      · rintro ⟨body, a, around, haction, hsource, hname, hvisible, hbody, haround⟩
        rcases hasAction_action_iff.mp haction with ⟨rfl, rfl, -⟩ | ⟨rest, rfl, h⟩
        · exact Or.inl ⟨hsource, hname, hvisible, hbody⟩
        · obtain ⟨houter, haround⟩ := List.forall_mem_cons.mp haround
          exact Or.inr ⟨body, a, _, h, hsource, hname, ⟨hvisible, houter⟩, hbody, haround⟩
    · have hplain : ∀ outer b, e ≠ .action outer b :=
        fun outer b heq => he ⟨outer, b, heq⟩
      simp only [mem_missingCaptures_of_parts hplain, hasAction_iff_of_parts hplain,
        scopeParts_eq_children hplain]
      constructor
      · rintro ⟨part, hpart, hmissing⟩
        obtain ⟨body, a, around, haction, hrest⟩ := (ih part hpart).mp hmissing
        exact ⟨body, a, around, ⟨part, hpart, haction⟩, hrest⟩
      · rintro ⟨body, a, around, ⟨part, hpart, haction⟩, hrest⟩
        exact ⟨part, hpart, (ih part hpart).mpr ⟨body, a, around, haction, hrest⟩⟩

/-- An action with the source expects the name, and none of the labels that it sees
provides it. -/
def Unprovided (root : Expr) (source name : String) : Prop :=
  ∃ body a around, HasAction body a around root ∧ a.source = source ∧ name ∈ a.captures ∧
    ¬ Binds name root ∧ ¬ Binds name body ∧ ∀ outer ∈ around, ¬ Binds name outer

theorem mem_missingCaptures_labels_iff {root : Expr} {source name : String} :
    (source, name) ∈ root.missingCaptures root.labels ↔ root.Unprovided source name := by
  simp only [mem_missingCaptures_iff, mem_labels, mem_bound_iff_binds, Unprovided]

theorem missingCaptures_labels_eq_nil_iff {root : Expr} :
    root.missingCaptures root.labels = [] ↔ root.CapturesProvided := by
  rw [List.eq_nil_iff_forall_not_mem]
  constructor
  · intro hnone body a around haction name hname
    refine Classical.byContradiction fun hunseen => ?_
    simp only [not_or, not_exists, not_and] at hunseen
    exact hnone (a.source, name) (mem_missingCaptures_labels_iff.mpr
      ⟨body, a, around, haction, rfl, hname, hunseen⟩)
  · rintro hprovided ⟨source, name⟩ hmissing
    obtain ⟨body, a, around, haction, -, hname, hroot, hbody, haround⟩ :=
      mem_missingCaptures_labels_iff.mp hmissing
    rcases hprovided body a around haction name hname with h | h | ⟨outer, houter, h⟩
    · exact hroot h
    · exact hbody h
    · exact haround outer houter h

end Expr

end Peg
