import Peg.Proofs.Matcher.Agreement
import Peg.Proofs.Matcher.Bounds

/-!
What a failed attempt leaves behind. Whoever handles a mismatch puts the cursor
back, and nothing else: a name that the attempt bound before it failed stays
bound, and is seen by whatever is tried next and by an action around it. Only
labels of the attempt can leave a trace in this way, those inside an action
excepted, and where they bind what was bound before there is none.
-/

namespace Peg

/-- Nothing but these names may be bound anew, and what was bound stays bound. -/
structure Captures.Extends (names : List String) (before after : Captures) : Prop where
  same_outside : ∀ name, name ∉ names → after.get? name = before.get? name
  kept : ∀ name, before.get? name ≠ none → after.get? name ≠ none

namespace Captures.Extends

variable {names names' : List String} {a b c : Captures}

theorem refl (names : List String) (a : Captures) : Extends names a a :=
  ⟨fun _ _ => rfl, fun _ h => h⟩

theorem trans (hab : Extends names a b) (hbc : Extends names b c) :
    Extends names a c := by
  constructor
  · intro name hname
    exact (hbc.same_outside name hname).trans (hab.same_outside name hname)
  · intro name hbound
    exact hbc.kept name (hab.kept name hbound)

theorem mono (h : Extends names a b) (hsub : ∀ name ∈ names, name ∈ names') :
    Extends names' a b := by
  refine ⟨?_, h.kept⟩
  intro name hname
  exact h.same_outside name fun hmem => hname (hsub name hmem)

theorem insert (h : Extends names a b) {name : String} (hmem : name ∈ names)
    (value : Value) : Extends names a (b.insert name value) := by
  constructor
  · intro other hother
    have hne : other ≠ name := by
      rintro rfl
      exact hother hmem
    rw [get?_insert_of_ne b value hne]
    exact h.same_outside other hother
  · intro other hbound
    rw [get?_insert]
    split
    · exact Option.some_ne_none value
    · exact h.kept other hbound

/-- To compare the scopes it is enough to look at the names that may be bound anew. -/
theorem eq_iff (h : Extends names a b) :
    b = a ↔ ∀ name ∈ names, b.get? name = a.get? name := by
  constructor
  · rintro rfl name _
    rfl
  · intro hnames
    apply eq_of_get?
    intro name
    by_cases hmem : name ∈ names
    · exact hnames name hmem
    · exact h.same_outside name hmem

/-- A scope that ends empty was empty. -/
theorem eq_empty (h : Extends names a empty) : a = empty := by
  apply eq_of_get?
  intro name
  rw [get?_empty]
  exact Classical.byContradiction fun hbound => h.kept name hbound (get?_empty name)

end Captures.Extends

namespace Matcher

/-- Whether it matches or not, the matcher binds none but these names. -/
def BindsOnly {α : Type} (names : List String) (m : Matcher α) : Prop :=
  ∀ s : MatchState, Ensures m s (fun _ t => s.scope.Extends names t.scope)
    (fun _ t => s.scope.Extends names t.scope) (fun _ => True)

theorem BindsOnly.after {α : Type} {names names' : List String} {m : Matcher α}
    (h : BindsOnly names m) (hsub : ∀ name ∈ names, name ∈ names') {before : Captures}
    {s : MatchState} (hs : before.Extends names' s.scope) :
    Ensures m s (fun _ t => before.Extends names' t.scope)
      (fun _ t => before.Extends names' t.scope) (fun _ => True) :=
  (h s).mono (fun _ _ ht => hs.trans (ht.mono hsub)) (fun _ _ ht => hs.trans (ht.mono hsub))

/-- What binds nothing leaves the names as they are. -/
theorem BindsOnly.keeps {α : Type} {m : Matcher α} (h : BindsOnly [] m) (s : MatchState) :
    Ensures m s (fun _ t => t.scope = s.scope) (fun _ t => t.scope = s.scope)
      (fun _ => True) := by
  have hsame : ∀ scope : Captures, s.scope.Extends [] scope → scope = s.scope := by
    intro scope hscope
    exact hscope.eq_iff.mpr fun name hname => by cases hname
  exact (h s).mono (fun _ t => hsame t.scope) (fun _ t => hsame t.scope)

theorem terminal_bindsOnly (e : Expr) (width? : Bytes → Option Nat) (names : List String) :
    BindsOnly names (terminal e width?) := by
  intro s
  rw [ensures_terminal]
  split
  · exact .refl names s.scope
  · exact .refl names s.scope

theorem BindsOnly.many {names : List String} {m : Matcher Value} (h : BindsOnly names m)
    (idle : Nat → Event) (values : List Value) : BindsOnly names (many idle m values) := by
  intro s
  refine Ensures.many (fun _ t => s.scope.Extends names t.scope) ?_ (.refl names s.scope)
  intro values t ht
  apply (h.after (fun _ hmem => hmem) ht).imp_ok
  intro value u hu
  split
  · exact hu
  · exact hu

end Matcher

section Frame

open Matcher

variable {call : Nat → Matcher Value}

theorem evalParts_bindsOnly {es : List Expr} (hes : ∀ e ∈ es, BindsOnly e.bound (e.eval call)) :
    BindsOnly (Expr.boundByAll es) (Expr.evalParts call es) := by
  induction es with
  | nil => exact fun s => .refl _ s.scope
  | cons e es ih =>
    intro s
    have hhead : ∀ name ∈ e.bound, name ∈ Expr.boundByAll (e :: es) :=
      fun name hmem => List.mem_append_left _ hmem
    have htail : ∀ name ∈ Expr.boundByAll es, name ∈ Expr.boundByAll (e :: es) :=
      fun name hmem => List.mem_append_right _ hmem
    rw [Expr.ensures_evalParts_cons]
    apply ((hes e List.mem_cons_self).after hhead (.refl _ s.scope)).imp_ok
    intro value t ht
    exact (ih fun e he => hes e (List.mem_cons_of_mem _ he)).after htail ht

theorem firstOf_bindsOnly {es : List Expr} (hes : ∀ e ∈ es, BindsOnly e.bound (e.eval call))
    (empty : Mismatch) (best : Option Mismatch) :
    BindsOnly (Expr.boundByAll es) (firstOf empty best (Expr.evalEach call es)) := by
  induction es generalizing best with
  | nil => exact fun s => .refl _ s.scope
  | cons e es ih =>
    intro s
    have hhead : ∀ name ∈ e.bound, name ∈ Expr.boundByAll (e :: es) :=
      fun name hmem => List.mem_append_left _ hmem
    have htail : ∀ name ∈ Expr.boundByAll es, name ∈ Expr.boundByAll (e :: es) :=
      fun name hmem => List.mem_append_right _ hmem
    rw [Expr.evalEach, ensures_firstOf_cons]
    apply ((hes e List.mem_cons_self).after hhead (.refl _ s.scope)).mono
      (fun value t ht => ht)
    intro x t ht
    exact (ih (fun e he => hes e (List.mem_cons_of_mem _ he)) _).after
      (s := t.backAt s.cursor.pos) htail ht

/-- An expression binds none but its own labels, if the rules it calls bind
nothing. Labels inside an action are bound in a scope of the action's own. -/
theorem Expr.eval_bindsOnly (hcall : ∀ handle, BindsOnly [] (call handle)) (e : Expr) :
    BindsOnly e.bound (e.eval call) := by
  induction e using Expr.parts_induction with
  | literal l => exact terminal_bindsOnly _ _ _
  | charClass c => exact terminal_bindsOnly _ _ _
  | anyChar => exact terminal_bindsOnly _ _ _
  | seq es ih =>
    intro s
    rw [ensures_seq]
    exact evalParts_bindsOnly ih s
  | choice es ih =>
    intro s
    rw [ensures_choice]
    exact firstOf_bindsOnly ih _ _ s
  | star e ih =>
    intro s
    rw [ensures_star]
    exact ih.many _ _ s
  | plus e ih =>
    intro s
    rw [ensures_plus]
    apply (ih s).imp_ok
    intro first t ht
    split
    · exact (ih.many _ _).after (fun _ hmem => hmem) ht
    · exact ht
  | optional e ih =>
    intro s
    rw [ensures_optional]
    exact ih s
  | ahead e ih =>
    intro s
    rw [ensures_ahead]
    exact ih s
  | notAhead e ih =>
    intro s
    rw [ensures_notAhead]
    exact ih s
  | discard e ih => exact ih
  | label name e ih =>
    intro s
    rw [ensures_label]
    have hbody := ih.after (fun other hmem => List.mem_cons_of_mem name hmem)
      (Captures.Extends.refl _ s.scope)
    apply hbody.imp_ok
    intro value t ht
    exact ht.insert List.mem_cons_self value
  | action e a ih =>
    intro s
    rw [ensures_action]
    refine (ih s).mono ?_ (fun x t _ => .refl _ s.scope)
    intro value t _
    exact Settled.intro (fun _ _ => .refl _ s.scope) (fun _ => trivial)
  | slice e ih =>
    intro s
    rw [ensures_slice]
    apply (ih s).imp_ok
    intro value t ht
    exact Settled.intro (fun _ _ => ht) (fun _ => trivial)
  | concat e ih =>
    intro s
    rw [ensures_concat]
    apply (ih s).imp_ok
    intro value t ht
    exact Settled.intro (fun _ _ => Settled.intro (fun _ _ => ht) (fun _ => trivial))
      (fun _ => trivial)
  | rule ref =>
    intro s
    rw [ensures_rule]
    cases ref.handle? with
    | none => trivial
    | some handle => exact hcall handle s

/-- A rule has a scope of its own. -/
theorem callRule_bindsOnly (rules : List Rule) (depth handle : Nat) :
    BindsOnly [] (callRule rules depth handle) := by
  intro s
  cases depth with
  | zero =>
    rw [ensures_callRule_zero]
    trivial
  | succ depth =>
    rw [ensures_callRule_succ]
    split
    · trivial
    · exact (Ensures.trivial _ _).mono (fun _ _ _ => .refl _ s.scope)
        (fun _ _ _ => .refl _ s.scope)

/-- Nothing but the labels of an expression may be bound anew, and what was bound
stays bound, whether the expression matches or not. An action around it, a
reference to a rule and the call of a rule leave the names as they are. -/
theorem evaluation_binds_only_labels (e : Expr) :
    e.labels.Nodup ∧
    ∀ call : Nat → Matcher Value,
      (∃ rules depth, call = callRule rules depth) ∨
        (call = fun handle => throw (.fault (.noGrammar handle))) →
      ∀ s : MatchState,
        Ensures (e.eval call) s
          (fun _ t => (∀ name, s.scope.get? name ≠ none → t.scope.get? name ≠ none) ∧
            ∀ name, name ∉ e.labels → t.scope.get? name = s.scope.get? name)
          (fun _ t => (∀ name, s.scope.get? name ≠ none → t.scope.get? name ≠ none) ∧
            ∀ name, name ∉ e.labels → t.scope.get? name = s.scope.get? name)
          (fun _ => True) ∧
        (∀ m : Matcher Value, (∃ a, m = (e.action a).eval call) ∨
            (∃ ref, m = (Expr.rule ref).eval call) ∨ (∃ handle, m = call handle) →
          Ensures m s (fun _ t => t.scope = s.scope) (fun _ t => t.scope = s.scope)
            (fun _ => True)) := by
  refine ⟨e.labels_nodup, ?_⟩
  intro call hcalls s
  have hcall : ∀ handle, BindsOnly [] (call handle) := by
    rcases hcalls with ⟨rules, depth, rfl⟩ | rfl
    · exact callRule_bindsOnly rules depth
    · intro handle s
      rw [ensures_throw]
      trivial
  constructor
  · have hlabels : ∀ name, name ∉ e.labels → name ∉ e.bound :=
      fun name hname hbound => hname (Expr.mem_labels.mpr hbound)
    apply (Expr.eval_bindsOnly hcall e s).mono
    · intro _ t ht
      exact ⟨ht.kept, fun name hname => ht.same_outside name (hlabels name hname)⟩
    · intro _ t ht
      exact ⟨ht.kept, fun name hname => ht.same_outside name (hlabels name hname)⟩
  · intro m hm
    have hbinds : BindsOnly [] m := by
      rcases hm with ⟨a, rfl⟩ | ⟨ref, rfl⟩ | ⟨handle, rfl⟩
      · exact Expr.eval_bindsOnly hcall (e.action a)
      · exact Expr.eval_bindsOnly hcall (.rule ref)
      · exact hcall handle
    exact hbinds.keeps s

/-- In `x:"a" ( y:"b" ) { y } "c"` on `abd` a name is bound before the sequence
fails, and the label inside the action is none of its labels. -/
theorem evaluation_binds_only_labels_of_failed_sequence :
    let a : Expr := .label "x" (.literal (.exact [0x61]))
    let b : Expr := .action (.label "y" (.literal (.exact [0x62])))
      ⟨"y", ["y"], fun _ value => .ok value⟩
    let e : Expr := .seq [a, b, .literal (.exact [0x63])]
    let s : MatchState := ⟨.start [0x61, 0x62, 0x64], .empty, #[]⟩
    e.labels = ["x"] ∧ ∃ x t, EStateM.run (e.eval (callRule [] 0)) s = .error (.mismatch x) t ∧
      t.scope.contains "x" = true ∧ t.scope.get? "y" = none := by
  intro a b e s
  have hlabels : e.labels = ["x"] := rfl
  have hframe := (((evaluation_binds_only_labels e).2 _ (Or.inl ⟨[], 0, rfl⟩) s).1).of_mismatch rfl
  refine ⟨hlabels, _, _, rfl, rfl, ?_⟩
  exact hframe.2 "y" (by rw [hlabels]; decide)

end Frame

section CaughtFailure

open Matcher

variable {call : Nat → Matcher Value} {e : Expr} {s t : MatchState} {x : Mismatch}

theorem run_optional_of_mismatch
    (hrun : EStateM.run (e.eval call) s = .error (.mismatch x) t) :
    EStateM.run (e.optional.eval call) s =
      .ok (.token (Span.empty s.cursor.pos)) (t.backAt s.cursor.pos) := by
  rw [Expr.eval, EStateM.run_bind, run_position]
  dsimp only
  rw [EStateM.run_bind, run_probe, hrun]
  rfl

theorem run_notAhead_of_mismatch
    (hrun : EStateM.run (e.eval call) s = .error (.mismatch x) t) :
    EStateM.run (e.notAhead.eval call) s =
      .ok (.token (Span.empty s.cursor.pos)) (t.backAt s.cursor.pos) := by
  rw [Expr.eval, EStateM.run_bind, run_position]
  dsimp only
  rw [EStateM.run_bind, run_survey, hrun]
  rfl

theorem run_many_of_mismatch (hrun : EStateM.run (e.eval call) s = .error (.mismatch x) t)
    (idle : Nat → Event) (values : List Value) :
    EStateM.run (many idle (e.eval call) values) s = .ok values (t.backAt s.cursor.pos) := by
  rw [run_many, hrun]

theorem run_firstOf_of_mismatch (hrun : EStateM.run (e.eval call) s = .error (.mismatch x) t)
    (empty : Mismatch) (best : Option Mismatch) (ms : List (Matcher Value)) :
    EStateM.run (firstOf empty best (e.eval call :: ms)) s =
      EStateM.run (firstOf empty (some (x.mergeInto best)) ms) (t.backAt s.cursor.pos) := by
  rw [run_firstOf_cons, hrun]

theorem run_firstOf_of_ok {v : Value} (hrun : EStateM.run (e.eval call) s = .ok v t)
    (empty : Mismatch) (best : Option Mismatch) (ms : List (Matcher Value)) :
    EStateM.run (firstOf empty best (e.eval call :: ms)) s = .ok v t := by
  rw [run_firstOf_cons, hrun]

/-- An action sees the names that are bound when its body has matched. -/
theorem run_action_of_ok {v : Value} (hrun : EStateM.run (e.eval call) s = .ok v t)
    (a : Action) :
    EStateM.run ((e.action a).eval call) s =
      match a.run ⟨t.cursor.input, t.scope⟩ v with
      | .ok result => .ok result { t with scope := s.scope }
      | .error fault => .error (.fault fault) { t with scope := s.scope } := by
  rw [Expr.eval, EStateM.run_bind, EStateM.run_get]
  dsimp only
  rw [EStateM.run_bind, run_withScope, hrun]
  dsimp only
  rw [EStateM.run_bind, run_context]
  dsimp only
  cases a.run ⟨t.cursor.input, t.scope⟩ v with
  | ok result => rfl
  | error fault => rfl

/-- Alternatives that leave no name behind make no difference to the one after
them, which matches as it would on its own. -/
theorem run_firstOf_of_abandoned (hcall : ∀ handle, Refines SameView (call handle) (call handle))
    {before after : List Expr}
    (hbefore : ∀ d ∈ before, ∃ x u, EStateM.run (d.eval call) s = .error (.mismatch x) u ∧
      u.cursor.input = s.cursor.input ∧ u.scope = s.scope)
    {v : Value} (hrun : EStateM.run (e.eval call) s = .ok v t) {s' : MatchState}
    (hview : SameView s s') (empty : Mismatch) (best : Option Mismatch) :
    ∃ t', EStateM.run (firstOf empty best (Expr.evalEach call (before ++ e :: after))) s' =
      .ok v t' ∧ SameView t t' := by
  induction before generalizing s' best with
  | nil =>
    have hrefines := e.eval_refines SameView.congruence hcall
    obtain ⟨t', hrun', ht⟩ := hrefines.run_ok hview hrun
    exact ⟨t', run_firstOf_of_ok hrun' empty best _, ht⟩
  | cons d before ih =>
    obtain ⟨x, u, hfails, hinput, hscope⟩ := hbefore d List.mem_cons_self
    have hrefines := d.eval_refines SameView.congruence hcall
    obtain ⟨u', hfails', hu⟩ := hrefines.run_mismatch hview hfails
    -- what the alternative leaves differs from the start only in what nobody sees
    have hback : SameView s (u'.backAt s'.cursor.pos) :=
      ⟨hinput.symm.trans hu.input_eq, hview.pos_eq, hscope.symm.trans hu.scope_eq⟩
    obtain ⟨t', hrun', ht⟩ := ih (fun d hd => hbefore d (List.mem_cons_of_mem _ hd)) hback
      (some (x.mergeInto best))
    refine ⟨t', ?_, ht⟩
    rw [List.cons_append, Expr.evalEach, run_firstOf_of_mismatch hfails']
    exact hrun'

/-- Whoever catches the failure of an expression goes on where the expression was
tried, with the names as the expression left them. These are the names of
before just if no label of the expression changed what it is bound to. Where
that holds for all alternatives of a choice before the first that matches, the
choice comes to what that alternative comes to on its own, and an action around
it sees what that alternative bound. -/
theorem caught_failure_restores_iff (rules : List Rule) (depth : Nat) {s : MatchState}
    (hs : s.cursor.pos ≤ s.cursor.input.length) :
    (∀ (e : Expr) (x : Mismatch) (t : MatchState),
      EStateM.run (e.eval (callRule rules depth)) s = .error (.mismatch x) t →
      EStateM.run (e.optional.eval (callRule rules depth)) s =
        .ok (.token (Span.empty s.cursor.pos)) (t.backAt s.cursor.pos) ∧
      EStateM.run (e.notAhead.eval (callRule rules depth)) s =
        .ok (.token (Span.empty s.cursor.pos)) (t.backAt s.cursor.pos) ∧
      (∀ idle values, EStateM.run (many idle (e.eval (callRule rules depth)) values) s =
        .ok values (t.backAt s.cursor.pos)) ∧
      (∀ empty best ms,
        EStateM.run (firstOf empty best (e.eval (callRule rules depth) :: ms)) s =
          EStateM.run (firstOf empty (some (x.mergeInto best)) ms)
            (t.backAt s.cursor.pos)) ∧
      (t.backAt s.cursor.pos).cursor.input = s.cursor.input ∧
      (t.backAt s.cursor.pos).cursor.pos = s.cursor.pos ∧
      ((t.backAt s.cursor.pos).scope = s.scope ↔
        ∀ name ∈ e.labels, t.scope.get? name = s.scope.get? name)) ∧
    (∀ (before after : List Expr) (e : Expr) (v : Value) (t : MatchState),
      (∀ d ∈ before, ∃ x u,
        EStateM.run (d.eval (callRule rules depth)) s = .error (.mismatch x) u ∧
        ∀ name ∈ d.labels, u.scope.get? name = s.scope.get? name) →
      EStateM.run (e.eval (callRule rules depth)) s = .ok v t →
      ∃ t', EStateM.run ((Expr.choice (before ++ e :: after)).eval (callRule rules depth)) s =
          .ok v t' ∧
        t'.cursor.pos = t.cursor.pos ∧ t'.scope = t.scope ∧
        ∀ a : Action,
          EStateM.run (((Expr.choice (before ++ e :: after)).action a).eval
              (callRule rules depth)) s =
            match a.run ⟨s.cursor.input, t.scope⟩ v with
            | .ok result => .ok result { t' with scope := s.scope }
            | .error fault => .error (.fault fault) { t' with scope := s.scope }) := by
  have hbounds := fun e : Expr => Expr.eval_inBounds (callRule_inBounds rules depth) e
  have hbinds := fun e : Expr => Expr.eval_bindsOnly (callRule_bindsOnly rules depth) e
  have hscope : ∀ (e : Expr) (x : Mismatch) (t : MatchState),
      EStateM.run (e.eval (callRule rules depth)) s = .error (.mismatch x) t →
      (t.scope = s.scope ↔ ∀ name ∈ e.labels, t.scope.get? name = s.scope.get? name) := by
    intro e x t hrun
    simp only [Expr.mem_labels]
    exact ((hbinds e s).of_mismatch hrun).eq_iff
  constructor
  · intro e x t hrun
    refine ⟨run_optional_of_mismatch hrun, run_notAhead_of_mismatch hrun,
      run_many_of_mismatch hrun, run_firstOf_of_mismatch hrun, ?_, rfl, hscope e x t hrun⟩
    exact ((hbounds e s hs).of_mismatch hrun).1.input_eq
  · intro before after e v t hbefore hrun
    have habandoned : ∀ d ∈ before, ∃ x u,
        EStateM.run (d.eval (callRule rules depth)) s = .error (.mismatch x) u ∧
        u.cursor.input = s.cursor.input ∧ u.scope = s.scope := by
      intro d hd
      obtain ⟨x, u, hfails, hnames⟩ := hbefore d hd
      exact ⟨x, u, hfails, ((hbounds d s hs).of_mismatch hfails).1.input_eq,
        (hscope d x u hfails).mpr hnames⟩
    obtain ⟨t', hfirst, hview⟩ := run_firstOf_of_abandoned
      (fun handle => callRule_refines SameView.congruence rules (Nat.le_refl depth) handle)
      habandoned hrun ⟨rfl, rfl, rfl⟩ ⟨.choice (before ++ e :: after), s.cursor.pos⟩ none
    have hchoice : EStateM.run ((Expr.choice (before ++ e :: after)).eval
        (callRule rules depth)) s = .ok v t' := hfirst
    have hinput := ((hbounds e s hs).of_ok hrun).input_eq
    refine ⟨t', hchoice, hview.pos_eq.symm, hview.scope_eq.symm, ?_⟩
    intro a
    rw [run_action_of_ok hchoice, ← hview.input_eq, hinput, ← hview.scope_eq]

/-- Without labels in the alternative that fails, an action sees what the next one
bound. -/
theorem caught_failure_restores_unlabelled :
    let ab : Expr := .seq [.literal (.exact [0x61]), .literal (.exact [0x62])]
    let ac : Expr := .label "y" (.literal (.exact [0x61, 0x63]))
    let seesY : Action :=
      ⟨"y", ["y"], fun context value => .ok ((context.capture? "y").getD value)⟩
    let s : MatchState := ⟨.start [0x61, 0x63], .empty, #[]⟩
    s.cursor.pos ≤ s.cursor.input.length ∧
    ∃ t', EStateM.run (((Expr.choice [ab, ac]).action seesY).eval (callRule [] 0)) s =
      .ok (.token ⟨0, 2, by decide⟩) t' := by
  intro ab ac seesY s
  have hs : s.cursor.pos ≤ s.cursor.input.length := by decide
  have hfails : ∀ d ∈ [ab], ∃ x u, EStateM.run (d.eval (callRule [] 0)) s =
      .error (.mismatch x) u ∧ ∀ name ∈ d.labels, u.scope.get? name = s.scope.get? name := by
    intro d hd
    obtain rfl := List.mem_singleton.mp hd
    exact ⟨_, _, rfl, fun name hname => by cases hname⟩
  obtain ⟨t', -, -, -, haction⟩ :=
    (caught_failure_restores_iff [] 0 hs).2 [ab] [] ac _ _ hfails rfl
  exact ⟨hs, _, haction seesY⟩

/-- `x:"a" "b"` fails on `ac` after it has bound `x`, and in a choice `x` is still
bound when the next alternative has matched. -/
theorem caught_failure_leaves_name :
    let abandoned : Expr :=
      .seq [.label "x" (.literal (.exact [0x61])), .literal (.exact [0x62])]
    let ac : Expr := .literal (.exact [0x61, 0x63])
    let s : MatchState := ⟨.start [0x61, 0x63], .empty, #[]⟩
    (∃ x t, EStateM.run (abandoned.eval (callRule [] 0)) s = .error (.mismatch x) t ∧
      (t.backAt s.cursor.pos).scope ≠ s.scope) ∧
    ∃ v t t', EStateM.run ((Expr.choice [abandoned, ac]).eval (callRule [] 0)) s = .ok v t ∧
      EStateM.run (ac.eval (callRule [] 0)) s = .ok v t' ∧
      t.scope.get? "x" = some (.token ⟨0, 1, by decide⟩) ∧ t'.scope.get? "x" = none := by
  intro abandoned ac s
  refine ⟨⟨_, _, rfl, ?_⟩, ⟨_, _, _, rfl, rfl, rfl, rfl⟩⟩
  intro heq
  have hx := congrArg (fun scope => scope.contains "x") heq
  cases hx

end CaughtFailure

end Peg
