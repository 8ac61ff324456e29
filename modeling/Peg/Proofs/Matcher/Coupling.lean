import Mathlib.Data.List.Forall2
import Peg.Proofs.Matcher.Ensures

/-!
Two runs in lockstep, of two matchers that need not be the same. What ties them is
a correspondence: which expression of the one stands for which of the other, which
rule for which, how their states compare, and whether the two come to the same values
at all. From states that correspond, coupled matchers come to results that correspond:
both match or neither does, at the same place. Every way of putting matchers together
keeps them coupled.
-/

namespace Peg

/-! ## Names in a scope -/

/-- The scope binds no other names than these. -/
def Captures.Within (scope : Captures) (names : List String) : Prop :=
  ∀ binding ∈ scope.toList, binding.1 ∈ names

namespace Captures

instance (scope : Captures) (names : List String) : Decidable (scope.Within names) :=
  inferInstanceAs (Decidable (∀ binding ∈ scope.toList, binding.1 ∈ names))

variable {scope : Captures} {names names' : List String}

theorem within_empty (names : List String) : empty.Within names := by
  intro binding h
  cases h

theorem Within.insert (h : scope.Within names) {name : String} (hname : name ∈ names)
    (value : Value) : (scope.insert name value).Within names := by
  intro binding hmem
  rcases mem_place hmem with rfl | hmem
  · exact hname
  · exact h binding hmem

theorem Within.mono (h : scope.Within names) (hsub : names ⊆ names') : scope.Within names' :=
  fun binding hmem => hsub (h binding hmem)

end Captures

/-! ## Correspondence -/

/-- A relation between the states of two runs, their scopes apart, that the steps of the runs
keep: a run goes back only to where it has been, and takes no more than there is. An event
that names an expression may name another in the other run. -/
structure Lockstep (node : Expr → Expr → Prop) (view : MatchState → MatchState → Prop) :
    Prop where
  input_eq : ∀ {s s'}, view s s' → s.cursor.input = s'.cursor.input
  pos_eq : ∀ {s s'}, view s s' → s.cursor.pos = s'.cursor.pos
  setScope : ∀ {s s'}, view s s' → ∀ scope scope',
    view { s with scope } { s' with scope := scope' }
  jump : ∀ {s s'}, view s s' → ∀ {u u'}, view u u' →
    view (s.backAt u.cursor.pos) (s'.backAt u.cursor.pos)
  advance : ∀ {s s'}, view s s' → ∀ size ≤ s.cursor.remaining.length,
    view { s with cursor := s.cursor.advance size } { s' with cursor := s'.cursor.advance size }
  push : ∀ {s s'}, view s s' → ∀ event,
    view { s with events := s.events.push event } { s' with events := s'.events.push event }
  pushIdle : ∀ {s s'}, view s s' → ∀ {e e'}, node e e' → ∀ pos,
    view { s with events := s.events.push (.idleBody e pos) }
      { s' with events := s'.events.push (.idleBody e' pos) }

/-- What ties two runs together. -/
structure Correspondence where
  /-- The second expression stands for the first where a mismatch or an event names one. -/
  node : Expr → Expr → Prop
  /-- The second handle stands for the first. -/
  handle : Nat → Nat → Prop
  /-- The states correspond, their scopes apart. -/
  view : MatchState → MatchState → Prop
  /-- The runs come to the same values and bind the same names. -/
  exact : Prop
  /-- The first run binds no other names than those that are said to be visible. -/
  confined : Prop
  /-- Nothing is asked of the second run where the first ends so. -/
  cutsFirst : Interrupt → Prop
  /-- Nothing is asked of the first run where the second ends so. -/
  cutsSecond : Interrupt → Prop
  node_refl : ∀ e, node e e
  lockstep : Lockstep node view
  mismatch_not_cut : ∀ x, ¬ cutsFirst (.mismatch x) ∧ ¬ cutsSecond (.mismatch x)
  fault_cut : ¬ exact → ∀ fault, cutsFirst (.fault fault) ∧ cutsSecond (.fault fault)

namespace Correspondence

variable (C : Correspondence)

/-- The same, where the two runs come to the same values. -/
def Same {α : Type} (a a' : α) : Prop :=
  C.exact → a = a'

/-- The scopes are the same and bind visible names only, as far as that is asked for. -/
structure Scopes (visible : List String) (scope scope' : Captures) : Prop where
  same : C.Same scope scope'
  within : C.confined → scope.Within visible

/-- Both runs have been at the position. -/
def Visited (pos : Nat) : Prop :=
  ∃ u u', C.view u u' ∧ u.cursor.pos = pos

structure Mismatches (x x' : Mismatch) : Prop where
  node : C.node x.expr x'.expr
  pos_eq : x.pos = x'.pos

inductive Interrupts : Interrupt → Interrupt → Prop
  | mismatch {x x' : Mismatch} (h : C.Mismatches x x') : Interrupts (.mismatch x) (.mismatch x')
  | fault (fault : Fault) : Interrupts (.fault fault) (.fault fault)
  | exhausted : Interrupts .exhausted .exhausted

structure States (visible : List String) (s s' : MatchState) : Prop where
  view : C.view s s'
  scopes : C.Scopes visible s.scope s'.scope

/-- Results that correspond, unless one of the runs was cut short. -/
inductive Results {α : Type} (visible : List String) (V : α → α → Prop) :
    EStateM.Result Interrupt MatchState α → EStateM.Result Interrupt MatchState α → Prop
  | ok {a a' : α} {t t' : MatchState} (ha : V a a') (ht : C.States visible t t') :
    Results visible V (.ok a t) (.ok a' t')
  | error {interrupt interrupt' : Interrupt} {t t' : MatchState}
    (h : C.Interrupts interrupt interrupt') (ht : C.States visible t t') :
    Results visible V (.error interrupt t) (.error interrupt' t')
  | cutFirst {interrupt : Interrupt} (h : C.cutsFirst interrupt) (t : MatchState)
    (result : EStateM.Result Interrupt MatchState α) :
    Results visible V (.error interrupt t) result
  | cutSecond {interrupt : Interrupt} (h : C.cutsSecond interrupt) (t : MatchState)
    (result : EStateM.Result Interrupt MatchState α) :
    Results visible V result (.error interrupt t)

variable {C}

theorem Mismatches.refl (x : Mismatch) : C.Mismatches x x :=
  ⟨C.node_refl _, rfl⟩

/-- Which of two mismatches got further does not depend on the expressions. -/
theorem Mismatches.furthest {x x' y y' : Mismatch} (hx : C.Mismatches x x')
    (hy : C.Mismatches y y') : C.Mismatches (x.furthest y) (x'.furthest y') := by
  rw [Mismatch.furthest, Mismatch.furthest, hx.pos_eq, hy.pos_eq]
  split
  · exact hy
  · exact hx

theorem Mismatches.mergeInto {x x' : Mismatch} (hx : C.Mismatches x x')
    {best best' : Option Mismatch} (hbest : Option.Rel C.Mismatches best best') :
    C.Mismatches (x.mergeInto best) (x'.mergeInto best') := by
  cases hbest with
  | none => exact hx
  | some h => exact h.furthest hx

theorem Same.map {α β : Type} {a a' : α} (h : C.Same a a') (f : α → β) : C.Same (f a) (f a') :=
  fun hexact => congrArg f (h hexact)

theorem Same.map₂ {α β γ : Type} {a a' : α} {b b' : β} (ha : C.Same a a') (hb : C.Same b b')
    (f : α → β → γ) : C.Same (f a b) (f a' b') :=
  fun hexact => congrArg₂ f (ha hexact) (hb hexact)

theorem Scopes.empty (visible : List String) : C.Scopes visible .empty .empty :=
  ⟨fun _ => rfl, fun _ => Captures.within_empty visible⟩

theorem Scopes.mono {visible inner : List String} {scope scope' : Captures}
    (h : C.Scopes visible scope scope') (hsub : visible ⊆ inner) : C.Scopes inner scope scope' :=
  ⟨h.same, fun hconfined => (h.within hconfined).mono hsub⟩

theorem Scopes.insert {visible : List String} {scope scope' : Captures}
    (h : C.Scopes visible scope scope') {name : String} (hname : C.confined → name ∈ visible)
    {value value' : Value} (hvalue : C.Same value value') :
    C.Scopes visible (scope.insert name value) (scope'.insert name value') :=
  ⟨h.same.map₂ hvalue fun scope value => scope.insert name value,
    fun hconfined => (h.within hconfined).insert (hname hconfined) value⟩

namespace States

variable {visible inner : List String} {s s' : MatchState}

theorem input_eq (h : C.States visible s s') : s.cursor.input = s'.cursor.input :=
  C.lockstep.input_eq h.view

theorem pos_eq (h : C.States visible s s') : s.cursor.pos = s'.cursor.pos :=
  C.lockstep.pos_eq h.view

theorem remaining_eq (h : C.States visible s s') : s.cursor.remaining = s'.cursor.remaining := by
  rw [Cursor.remaining, Cursor.remaining, h.input_eq, h.pos_eq]

theorem withScopes (h : C.States visible s s') {scope scope' : Captures}
    (hscope : C.Scopes inner scope scope') :
    C.States inner { s with scope } { s' with scope := scope' } :=
  ⟨C.lockstep.setScope h.view scope scope', hscope⟩

end States

end Correspondence

/-! ## Coupled matchers -/

namespace Matcher

variable {C : Correspondence} {visible inner : List String} {α β : Type} {V : α → α → Prop}
  {W : β → β → Prop} {m m' : Matcher α}

/-- From states that correspond, the two runs come to results that correspond. -/
def Coupled (C : Correspondence) (visible : List String) (V : α → α → Prop) (m m' : Matcher α) :
    Prop :=
  ∀ s s' : MatchState, C.States visible s s' →
    C.Results visible V (EStateM.run m s) (EStateM.run m' s')

/-- The results of attempts that correspond. -/
inductive Tried (C : Correspondence) (V : α → α → Prop) :
    Except Mismatch α → Except Mismatch α → Prop
  | ok {a a' : α} (h : V a a') : Tried C V (.ok a) (.ok a')
  | error {x x' : Mismatch} (h : C.Mismatches x x') : Tried C V (.error x) (.error x')

theorem coupled_pure {a a' : α} (h : V a a') : Coupled C visible V (pure a) (pure a') :=
  fun _ _ hs => .ok h hs

theorem coupled_throw {interrupt interrupt' : Interrupt} (h : C.Interrupts interrupt interrupt') :
    Coupled C visible V (throw interrupt) (throw interrupt') :=
  fun _ _ hs => .error h hs

theorem coupled_bind {f f' : α → Matcher β} (hm : Coupled C visible V m m')
    (hf : ∀ a a', V a a' → Coupled C visible W (f a) (f' a')) :
    Coupled C visible W (m >>= f) (m' >>= f') := by
  intro s s' hs
  rw [EStateM.run_bind, EStateM.run_bind]
  have hresults := hm s s' hs
  generalize EStateM.run m s = result at hresults ⊢
  generalize EStateM.run m' s' = result' at hresults ⊢
  cases hresults with
  | ok ha ht => exact hf _ _ ha _ _ ht
  | error h ht => exact .error h ht
  | cutFirst h t _ => exact .cutFirst h t _
  | cutSecond h t _ => exact .cutSecond h t _

theorem coupled_map {f f' : α → β} (hm : Coupled C visible V m m')
    (hf : ∀ a a', V a a' → W (f a) (f' a')) : Coupled C visible W (f <$> m) (f' <$> m') := by
  rw [map_eq_pure_bind, map_eq_pure_bind]
  exact coupled_bind hm fun a a' ha => coupled_pure (hf a a' ha)

theorem Coupled.imp (hm : Coupled C visible V m m') {V' : α → α → Prop}
    (hV : ∀ a a', V a a' → V' a a') : Coupled C visible V' m m' := by
  rw [← id_map m, ← id_map m']
  exact coupled_map hm hV

/-- Reading the state: the two continuations get states that correspond. -/
theorem coupled_get {f f' : MatchState → Matcher β}
    (hf : ∀ s s', C.States visible s s' → Coupled C visible W (f s) (f' s')) :
    Coupled C visible W (get >>= f) (get >>= f') :=
  fun s s' hs => hf s s' hs s s' hs

theorem coupled_visited :
    Coupled C visible (fun pos pos' => pos = pos' ∧ C.Visited pos) position position := by
  intro s s' hs
  rw [run_position, run_position]
  exact .ok ⟨hs.pos_eq, s, s', hs.view, rfl⟩ hs

theorem coupled_position : Coupled C visible Eq position position :=
  coupled_visited.imp fun _ _ h => h.1

theorem coupled_rewind {pos : Nat} (hpos : C.Visited pos) :
    Coupled C visible Eq (rewind pos) (rewind pos) := by
  obtain ⟨u, u', hu, rfl⟩ := hpos
  exact fun _ _ hs => .ok rfl ⟨C.lockstep.jump hs.view hu, hs.scopes⟩

theorem coupled_note (event : Event) : Coupled C visible Eq (note event) (note event) :=
  fun _ _ hs => .ok rfl ⟨C.lockstep.push hs.view event, hs.scopes⟩

theorem coupled_noteIdle {e e' : Expr} (hnode : C.node e e') (pos : Nat) :
    Coupled C visible Eq (note (.idleBody e pos)) (note (.idleBody e' pos)) :=
  fun _ _ hs => .ok rfl ⟨C.lockstep.pushIdle hs.view hnode pos, hs.scopes⟩

theorem coupled_bindName {name : String} (hname : C.confined → name ∈ visible)
    {value value' : Value} (h : C.Same value value') :
    Coupled C visible Eq (bindName name value) (bindName name value') :=
  fun _ _ hs => .ok rfl (hs.withScopes (hs.scopes.insert hname h))

theorem coupled_mismatch {e e' : Expr} (h : C.node e e') (pos : Nat) :
    Coupled C visible V (mismatch e pos) (mismatch e' pos) :=
  coupled_throw (.mismatch ⟨h, rfl⟩)

theorem coupled_ofFault {result result' : Except Fault α} (h : C.Same result result') :
    Coupled C visible C.Same (ofFault result) (ofFault result') := by
  intro s s' hs
  -- Where values may differ, one result may be a fault and the other not.
  by_cases hexact : C.exact
  · rw [h hexact]
    cases result' with
    | ok a => exact .ok (fun _ => rfl) hs
    | error fault => exact .error (.fault fault) hs
  · cases result with
    | error fault => exact .cutFirst (C.fault_cut hexact fault).1 s _
    | ok a =>
      cases result' with
      | error fault => exact .cutSecond (C.fault_cut hexact fault).2 s' _
      | ok a' => exact .ok (fun h => absurd h hexact) hs

theorem coupled_terminal (e : Expr) {width? : Bytes → Option Nat}
    (hwidth : ∀ rest size, width? rest = some size → size ≤ rest.length) :
    Coupled C visible C.Same (terminal e width?) (terminal e width?) := by
  intro s s' hs
  rw [run_terminal, run_terminal, Cursor.take?, Cursor.take?, hs.remaining_eq]
  cases hsize : width? s'.cursor.remaining with
  | none =>
    simp only [Option.map_none, hs.pos_eq]
    exact .error (.mismatch (.refl _)) hs
  | some size =>
    simp only [Option.map_some, hs.pos_eq]
    have hle : size ≤ s.cursor.remaining.length := hs.remaining_eq ▸ hwidth _ _ hsize
    exact .ok (fun _ => rfl) ⟨C.lockstep.advance hs.view size hle, hs.scopes⟩

/-- What the actions of two runs are given. -/
def Contexts (C : Correspondence) (visible : List String) (context context' : ActionContext) :
    Prop :=
  C.Same context context' ∧ (C.confined → context.captures.Within visible)

theorem coupled_context {captures captures' : Captures} (h : C.Scopes inner captures captures') :
    Coupled C visible (Contexts C inner) (context captures) (context captures') := by
  intro s s' hs
  rw [run_context, run_context, hs.input_eq]
  exact .ok ⟨h.same.map (ActionContext.mk s'.cursor.input), h.within⟩ hs

theorem coupled_withScope {scope scope' : Captures} (hscope : C.Scopes inner scope scope')
    (hm : Coupled C inner V m m') :
    Coupled C visible (fun result result' => V result.1 result'.1 ∧
        C.Scopes inner result.2 result'.2)
      (withScope scope m) (withScope scope' m') := by
  intro s s' hs
  rw [run_withScope, run_withScope]
  have hresults := hm _ _ (hs.withScopes hscope)
  generalize EStateM.run m _ = result at hresults ⊢
  generalize EStateM.run m' _ = result' at hresults ⊢
  cases hresults with
  | ok ha ht => exact .ok ⟨ha, ht.scopes⟩ (ht.withScopes hs.scopes)
  | error h ht => exact .error h (ht.withScopes hs.scopes)
  | cutFirst h t _ => exact .cutFirst h _ _
  | cutSecond h t _ => exact .cutSecond h _ _

/-! ## Handling mismatches -/

theorem coupled_attempt (hm : Coupled C visible V m m') :
    Coupled C visible (Tried C V) (attempt m) (attempt m') := by
  intro s s' hs
  rw [run_attempt, run_attempt]
  have hresults := hm s s' hs
  generalize EStateM.run m s = result at hresults ⊢
  generalize EStateM.run m' s' = result' at hresults ⊢
  cases hresults with
  | ok ha ht => exact .ok (.ok ha) ht
  | error h ht =>
    cases h with
    | mismatch h => exact .ok (.error h) ht
    | fault fault => exact .error (.fault fault) ht
    | exhausted => exact .error .exhausted ht
  | @cutFirst interrupt h t _ =>
    cases interrupt with
    | mismatch x => exact absurd h (C.mismatch_not_cut x).1
    | fault fault => exact .cutFirst h t _
    | exhausted => exact .cutFirst h t _
  | @cutSecond interrupt h t _ =>
    cases interrupt with
    | mismatch x => exact absurd h (C.mismatch_not_cut x).2
    | fault fault => exact .cutSecond h t _
    | exhausted => exact .cutSecond h t _

theorem coupled_probe (hm : Coupled C visible V m m') :
    Coupled C visible (Tried C V) (probe m) (probe m') := by
  apply coupled_bind coupled_visited
  rintro start _ ⟨rfl, hstart⟩
  apply coupled_bind (coupled_attempt hm)
  rintro _ _ (ha | hx)
  · exact coupled_pure (.ok ha)
  · exact coupled_bind (coupled_rewind hstart) fun _ _ _ => coupled_pure (.error hx)

theorem coupled_survey (hm : Coupled C visible V m m') :
    Coupled C visible (Tried C V) (survey m) (survey m') := by
  apply coupled_bind coupled_visited
  rintro start _ ⟨rfl, hstart⟩
  apply coupled_bind (coupled_attempt hm)
  intro result result' hresult
  exact coupled_bind (coupled_rewind hstart) fun _ _ _ => coupled_pure hresult

theorem coupled_firstOf {empty empty' : Mismatch} (hempty : C.Mismatches empty empty')
    {best best' : Option Mismatch} (hbest : Option.Rel C.Mismatches best best')
    {ms ms' : List (Matcher α)} (hms : List.Forall₂ (Coupled C visible V) ms ms') :
    Coupled C visible V (firstOf empty best ms) (firstOf empty' best' ms') := by
  induction hms generalizing best best' with
  | nil =>
    refine coupled_throw (.mismatch ?_)
    cases hbest with
    | none => exact hempty
    | some h => exact h
  | cons hm _ ih =>
    apply coupled_bind (coupled_probe hm)
    rintro _ _ (ha | hx)
    · exact coupled_pure ha
    · exact ih (.some (hx.mergeInto hbest))

theorem coupled_traced (rule : String) {m m' : Matcher Value} (hm : Coupled C visible C.Same m m') :
    Coupled C visible C.Same (traced rule m) (traced rule m') := by
  apply coupled_bind coupled_position
  rintro start _ rfl
  apply coupled_bind (coupled_note _)
  intro _ _ _
  apply coupled_bind (coupled_attempt hm)
  rintro _ _ (hvalue | hx)
  · apply coupled_bind coupled_position
    rintro stop _ rfl
    exact coupled_bind (coupled_note _) fun _ _ _ => coupled_pure hvalue
  · dsimp only
    rw [hx.pos_eq]
    exact coupled_bind (coupled_note _) fun _ _ _ => coupled_throw (.mismatch hx)

/-! ## Repetition -/

theorem coupled_iterateWithin {idle idle' : Nat → Event}
    (hidle : ∀ pos, Coupled C visible Eq (note (idle pos)) (note (idle' pos)))
    {step step' : α → Matcher (Option α)}
    (hstep : ∀ a a', V a a' → Coupled C visible (Option.Rel V) (step a) (step' a')) (bound : Nat)
    {a a' : α} (ha : V a a') :
    Coupled C visible V (iterateWithin idle step bound a)
      (iterateWithin idle' step' bound a') := by
  induction bound generalizing a a' with
  | zero => exact coupled_throw .exhausted
  | succ bound ih =>
    apply coupled_get
    intro s s' hs
    apply coupled_bind (hstep a a' ha)
    intro next next' hnext
    cases hnext with
    | none => exact coupled_pure ha
    | some hb =>
      apply coupled_get
      intro t t' ht
      rw [hs.remaining_eq, ht.remaining_eq, hs.pos_eq]
      split
      · exact ih hb
      · exact coupled_bind (hidle _) fun _ _ _ => coupled_pure hb

theorem coupled_iterate {idle idle' : Nat → Event}
    (hidle : ∀ pos, Coupled C visible Eq (note (idle pos)) (note (idle' pos)))
    {step step' : α → Matcher (Option α)}
    (hstep : ∀ a a', V a a' → Coupled C visible (Option.Rel V) (step a) (step' a')) {a a' : α}
    (ha : V a a') :
    Coupled C visible V (iterate idle step a) (iterate idle' step' a') := by
  apply coupled_get
  intro s s' hs
  dsimp only
  rw [hs.remaining_eq]
  exact coupled_iterateWithin hidle hstep _ ha

theorem coupled_many {idle idle' : Nat → Event}
    (hidle : ∀ pos, Coupled C visible Eq (note (idle pos)) (note (idle' pos)))
    {m m' : Matcher Value} (hm : Coupled C visible C.Same m m') {values values' : List Value}
    (hvalues : C.Same values values') :
    Coupled C visible C.Same (many idle m values) (many idle' m' values') := by
  refine coupled_iterate hidle (fun values values' hvalues => ?_) hvalues
  apply coupled_bind (coupled_probe hm)
  rintro _ _ (hvalue | hx)
  · exact coupled_pure (.some (hvalues.map₂ hvalue fun values value => values ++ [value]))
  · exact coupled_pure .none

end Matcher

end Peg
