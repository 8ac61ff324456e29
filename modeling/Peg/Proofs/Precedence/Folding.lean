import Peg.Proofs.Matcher.Agreement
import Peg.Proofs.Matcher.Bounds
import Peg.Proofs.Precedence.InfixTable

/-!
The two ways to group. A level that groups to the left is a loop, one that groups to the
right calls itself; yet both read operands and operators in turn, in the same places, for as
long as an operator is found. What they read is one chain, and they differ in the end from
which they fold it.
-/

namespace Peg

open Matcher OperatorLevel

/-! ## What depends on the cursor alone -/

/-- The states have the same cursor and scope; what happened before may differ. -/
structure SameCursor (s s' : MatchState) : Prop where
  cursor_eq : s.cursor = s'.cursor
  scope_eq : s.scope = s'.scope

theorem SameCursor.congruence : Congruence SameCursor where
  input_eq h := congrArg Cursor.input h.cursor_eq
  pos_eq h := congrArg Cursor.pos h.cursor_eq
  scope_eq h := h.scope_eq
  jump h _ _ hu := by
    refine ⟨?_, h.scope_eq⟩
    dsimp only [MatchState.backAt]
    rw [h.cursor_eq, hu.cursor_eq]
  advance h size _ := ⟨congrArg (Cursor.advance · size) h.cursor_eq, h.scope_eq⟩
  setScope h _ := ⟨h.cursor_eq, rfl⟩
  push h _ := ⟨h.cursor_eq, h.scope_eq⟩

namespace Matcher

variable {α : Type} {m m' : Matcher α} {R : MatchState → MatchState → Prop} {s t : MatchState}

theorem Refines.attempt (h : Refines R m m') : Refines R (attempt m) (attempt m') := by
  intro s s' hs
  rw [run_attempt, run_attempt]
  rcases h.cases hs with ⟨a, t, t', hrun, hrun', ht⟩ | ⟨interrupt, t, t', hrun, hrun', ht⟩ |
    ⟨t, hrun⟩
  · rw [hrun, hrun']
    exact .ok _ ht
  · rw [hrun, hrun']
    cases interrupt with
    | mismatch x => exact .ok _ ht
    | fault fault => exact .error _ ht
    | exhausted => exact .error _ ht
  · rw [hrun]
    exact .exhausted t _

/-- An attempt comes to a result where the run ends with a value or a mismatch. -/
theorem run_attempt_eq_ok_iff {result : Except Mismatch α} :
    EStateM.run (Matcher.attempt m) s = .ok result t ↔
      Ensures m s (fun a u => result = .ok a ∧ u = t) (fun x u => result = .error x ∧ u = t)
        (fun _ => False) := by
  unfold Ensures
  rw [run_attempt]
  cases EStateM.run m s with
  | ok a u => simp [eq_comm]
  | error interrupt u => cases interrupt <;> simp [eq_comm]

/-- Two runs that are refined by one come to the same. -/
theorem Refines.eq_of_run_ok {deep : Matcher α} (h : Refines R m deep) (h' : Refines R m' deep)
    {s' t' : MatchState} {a a' : α} (hrun : EStateM.run m s = .ok a t)
    (hrun' : EStateM.run m' s' = .ok a' t') (hs : R s s') (hs' : R s' s') :
    a = a' ∧ ∃ u, R t u ∧ R t' u := by
  obtain ⟨u, hu, htu⟩ := h.run_ok hs hrun
  obtain ⟨u', hu', htu'⟩ := h'.run_ok hs' hrun'
  rw [hu] at hu'
  obtain ⟨rfl, rfl⟩ := EStateM.Result.ok.inj hu'
  exact ⟨rfl, u, htu, htu'⟩

end Matcher

/-- From the cursor, calls of the rule come to the result, and take the cursor there. -/
def Calls (rules : List Rule) (handle : Nat) (start : Cursor) (result : Except Mismatch Value)
    (stop : Cursor) : Prop :=
  ∃ depth s t, s.cursor = start ∧ t.cursor = stop ∧
    EStateM.run (attempt (callRule rules depth handle)) s = .ok result t

/-- From the cursor, this is the first of the operators that matches, with the names that it
has bound, or none of them matches; and it takes the cursor there. -/
def Finds {α : Type} (rules : List Rule) (operators : List (Expr × α)) (start : Cursor)
    (found : Option (Value × α)) (captures : Captures) (stop : Cursor) : Prop :=
  ∃ depth s t, s.cursor = start ∧ s.scope = .empty ∧ t.cursor = stop ∧ t.scope = captures ∧
    EStateM.run (firstOperator (callRule rules depth) operators) s = .ok found t

section Unique

variable {rules : List Rule} {handle depth depth' : Nat} {start stop stop' : Cursor}

theorem run_attempt_callRule_inScope {result : Except Mismatch Value} {s t : MatchState}
    (h : EStateM.run (attempt (callRule rules depth handle)) s = .ok result t)
    (scope : Captures) :
    EStateM.run (attempt (callRule rules depth handle)) { s with scope } =
      .ok result { t with scope } := by
  rw [run_attempt_eq_ok_iff] at h ⊢
  cases depth with
  | zero => exact h
  | succ depth =>
    rw [ensures_callRule_succ] at h ⊢
    split
    · next hrule => rwa [hrule] at h
    · next rule hrule =>
      rw [hrule] at h
      apply h.mono
      · rintro v u ⟨hresult, rfl⟩
        exact ⟨hresult, rfl⟩
      · rintro x u ⟨hresult, rfl⟩
        exact ⟨hresult, rfl⟩

/-- Calls come to the same from wherever the cursor is the same. -/
theorem Calls.unique {result result' : Except Mismatch Value}
    (h : Calls rules handle start result stop) (h' : Calls rules handle start result' stop') :
    result = result' ∧ stop = stop' := by
  obtain ⟨depth, s, t, rfl, rfl, hrun⟩ := h
  obtain ⟨depth', s', t', hcursor, rfl, hrun'⟩ := h'
  have hdeep := callRule_refines SameCursor.congruence rules (Nat.le_max_left depth depth') handle
  have hdeep' :=
    callRule_refines SameCursor.congruence rules (Nat.le_max_right depth depth') handle
  obtain ⟨hresult, u, htu, htu'⟩ := hdeep.attempt.eq_of_run_ok hdeep'.attempt
    (run_attempt_callRule_inScope hrun .empty) (run_attempt_callRule_inScope hrun' .empty)
    ⟨hcursor.symm, rfl⟩ ⟨rfl, rfl⟩
  exact ⟨hresult, htu.cursor_eq.trans htu'.cursor_eq.symm⟩

/-- So do searches for an operator. -/
theorem Finds.unique {α : Type} {operators : List (Expr × α)} {found found' : Option (Value × α)}
    {captures captures' : Captures} (h : Finds rules operators start found captures stop)
    (h' : Finds rules operators start found' captures' stop') :
    found = found' ∧ captures = captures' ∧ stop = stop' := by
  obtain ⟨depth, s, t, rfl, hscope, rfl, rfl, hrun⟩ := h
  obtain ⟨depth', s', t', hcursor, hscope', rfl, rfl, hrun'⟩ := h'
  have hdeep := firstOperator_refines SameCursor.congruence
    (callRule_refines SameCursor.congruence rules (Nat.le_max_left depth depth')) operators
  have hdeep' := firstOperator_refines SameCursor.congruence
    (callRule_refines SameCursor.congruence rules (Nat.le_max_right depth depth')) operators
  obtain ⟨hfound, u, htu, htu'⟩ := hdeep.eq_of_run_ok hdeep' hrun hrun'
    ⟨hcursor.symm, hscope.trans hscope'.symm⟩ ⟨rfl, rfl⟩
  exact ⟨hfound, htu.scope_eq.trans htu'.scope_eq.symm,
    htu.cursor_eq.trans htu'.cursor_eq.symm⟩

end Unique

/-! ## Chains -/

/-- An operator of a chain, with its action, the names that it has bound, and the operand
behind it. -/
structure Link where
  operator : Value
  action : BinaryAction
  captures : Captures
  operand : Value

/-- What the action of the link makes of two operands. -/
def Link.apply (input : Bytes) (link : Link) (left right : Value) : Except Fault Value :=
  link.action.run ⟨input, link.captures⟩ (.list [left, link.operator, right]) left right

/-- The chain after a first operand, folded from the left. -/
def foldLeft (input : Bytes) (first : Value) (links : List Link) : Except Fault Value :=
  links.foldlM (fun left link => link.apply input left link.operand) first

/-- The same chain, folded from the right. -/
def foldRight (input : Bytes) : Value → List Link → Except Fault Value
  | first, [] => .ok first
  | first, link :: links => do
    let right ← foldRight input link.operand links
    link.apply input first right

/-- A fold from the left goes on with one more from what it has come to. -/
theorem foldlM_snoc {β γ : Type} {f : γ → β → Except Fault γ} {first last : γ} {before : List β}
    (h : before.foldlM f first = .ok last) (b : β) :
    (before ++ [b]).foldlM f first = f last b := by
  rw [List.foldlM_append, h]
  exact bind_pure (f last b)

/-- One more link is applied to the fold of those before it. -/
theorem foldLeft_snoc {input : Bytes} {first left : Value} {links : List Link}
    (h : foldLeft input first links = .ok left) (link : Link) :
    foldLeft input first (links ++ [link]) = link.apply input left link.operand :=
  foldlM_snoc h link

/-- The chain behind an operand: operators, each with an operand behind it, up to where none
of the operators matches, or up to an operator with no operand behind it. -/
inductive Chain (rules : List Rule) (operators : List (Expr × BinaryAction)) (operand : Nat) :
    Cursor → List Link → Option Mismatch → Cursor → Prop where
  | stops {start stop : Cursor} {captures : Captures}
    (hfinds : Finds rules operators start none captures stop) :
    Chain rules operators operand start [] none stop
  | breaks {start mid stop : Cursor} {operator : Value} {action : BinaryAction}
    {captures : Captures} {x : Mismatch}
    (hfinds : Finds rules operators start (some (operator, action)) captures mid)
    (hcalls : Calls rules operand mid (.error x) stop) :
    Chain rules operators operand start [] (some x) stop
  | link {start mid next stop : Cursor} {operator right : Value} {action : BinaryAction}
    {captures : Captures} {links : List Link} {failure : Option Mismatch}
    (hfinds : Finds rules operators start (some (operator, action)) captures mid)
    (hcalls : Calls rules operand mid (.ok right) next)
    (hrest : Chain rules operators operand next links failure stop) :
    Chain rules operators operand start (⟨operator, action, captures, right⟩ :: links) failure stop

variable {rules : List Rule} {operators : List (Expr × BinaryAction)} {operand : Nat}

/-- There is one chain from each place. -/
theorem Chain.unique {start stop stop' : Cursor} {links links' : List Link}
    {failure failure' : Option Mismatch}
    (h : Chain rules operators operand start links failure stop)
    (h' : Chain rules operators operand start links' failure' stop') :
    links = links' ∧ failure = failure' ∧ stop = stop' := by
  induction h generalizing links' failure' stop' with
  | stops hfinds =>
    cases h' with
    | stops hfinds' => exact ⟨rfl, rfl, (hfinds.unique hfinds').2.2⟩
    | breaks hfinds' => cases (hfinds.unique hfinds').1
    | link hfinds' => cases (hfinds.unique hfinds').1
  | breaks hfinds hcalls =>
    cases h' with
    | stops hfinds' => cases (hfinds.unique hfinds').1
    | breaks hfinds' hcalls' =>
      obtain ⟨-, -, rfl⟩ := hfinds.unique hfinds'
      obtain ⟨hx, hstop⟩ := hcalls.unique hcalls'
      exact ⟨rfl, congrArg some (Except.error.inj hx), hstop⟩
    | link hfinds' hcalls' =>
      obtain ⟨-, -, rfl⟩ := hfinds.unique hfinds'
      cases (hcalls.unique hcalls').1
  | link hfinds hcalls _ ih =>
    cases h' with
    | stops hfinds' => cases (hfinds.unique hfinds').1
    | breaks hfinds' hcalls' =>
      obtain ⟨-, -, rfl⟩ := hfinds.unique hfinds'
      cases (hcalls.unique hcalls').1
    | link hfinds' hcalls' hrest' =>
      obtain ⟨hfound, rfl, rfl⟩ := hfinds.unique hfinds'
      obtain ⟨hright, rfl⟩ := hcalls.unique hcalls'
      cases hfound
      cases hright
      obtain ⟨rfl, hfailure, hstop⟩ := ih hrest'
      exact ⟨rfl, hfailure, hstop⟩

/-- What a level reads from the cursor on: a first operand and the chain behind it, or no
operand where it needs one. -/
inductive Course (rules : List Rule) (operators : List (Expr × BinaryAction)) (operand : Nat)
    (start : Cursor) : Except Mismatch (Value × List Link) → Cursor → Prop where
  | fails {x : Mismatch} {stop : Cursor} (hcalls : Calls rules operand start (.error x) stop) :
    Course rules operators operand start (.error x) stop
  | breaks {first : Value} {mid stop : Cursor} {links : List Link} {x : Mismatch}
    (hcalls : Calls rules operand start (.ok first) mid)
    (hchain : Chain rules operators operand mid links (some x) stop) :
    Course rules operators operand start (.error x) stop
  | ends {first : Value} {mid stop : Cursor} {links : List Link}
    (hcalls : Calls rules operand start (.ok first) mid)
    (hchain : Chain rules operators operand mid links none stop) :
    Course rules operators operand start (.ok (first, links)) stop

theorem Course.unique {start stop stop' : Cursor}
    {outcome outcome' : Except Mismatch (Value × List Link)}
    (h : Course rules operators operand start outcome stop)
    (h' : Course rules operators operand start outcome' stop') :
    outcome = outcome' ∧ stop = stop' := by
  cases h with
  | fails hcalls =>
    cases h' with
    | fails hcalls' =>
      obtain ⟨hx, hstop⟩ := hcalls.unique hcalls'
      exact ⟨congrArg Except.error (Except.error.inj hx), hstop⟩
    | breaks hcalls' | ends hcalls' => cases (hcalls.unique hcalls').1
  | breaks hcalls hchain =>
    cases h' with
    | fails hcalls' => cases (hcalls.unique hcalls').1
    | breaks hcalls' hchain' =>
      obtain ⟨-, rfl⟩ := hcalls.unique hcalls'
      obtain ⟨-, hx, hstop⟩ := hchain.unique hchain'
      exact ⟨congrArg Except.error (Option.some.inj hx), hstop⟩
    | ends hcalls' hchain' =>
      obtain ⟨-, rfl⟩ := hcalls.unique hcalls'
      cases (hchain.unique hchain').2.1
  | ends hcalls hchain =>
    cases h' with
    | fails hcalls' => cases (hcalls.unique hcalls').1
    | breaks hcalls' hchain' =>
      obtain ⟨-, rfl⟩ := hcalls.unique hcalls'
      cases (hchain.unique hchain').2.1
    | ends hcalls' hchain' =>
      obtain ⟨hfirst, rfl⟩ := hcalls.unique hcalls'
      obtain ⟨rfl, -, hstop⟩ := hchain.unique hchain'
      cases hfirst
      exact ⟨rfl, hstop⟩

/-! ## Levels -/

/-- The run reads a first operand with the chain behind it, and comes to what the fold makes
of it; or it fails for want of an operand. -/
def Matcher.Folds (fold : Bytes → Value → List Link → Except Fault Value) (rules : List Rule)
    (operators : List (Expr × BinaryAction)) (operand : Nat) (m : Matcher Value)
    (s : MatchState) : Prop :=
  Ensures m s
    (fun v t => ∃ first links,
      Course rules operators operand s.cursor (.ok (first, links)) t.cursor ∧
        fold s.cursor.input first links = .ok v)
    (fun x t => Course rules operators operand s.cursor (.error x) t.cursor) (fun _ => True)

/-- Every operator that is found from the cursor on takes some of the input. -/
def OperatorsTake (rules : List Rule) (operators : List (Expr × BinaryAction)) (cursor : Cursor) :
    Prop :=
  ∀ start found captures stop, start.input = cursor.input → cursor.pos ≤ start.pos →
    Finds rules operators start (some found) captures stop → start.pos < stop.pos

/-- So it is with literals, unless they are empty. -/
theorem operatorsTake_of_literals
    (h : ∀ e ∈ operators.map Prod.fst, ∃ l : Literal, e = .literal l ∧ 0 < l.bytes.length)
    (cursor : Cursor) : OperatorsTake rules operators cursor := by
  rintro start found captures stop - - ⟨depth, s, t, rfl, -, rfl, -, hrun⟩
  have hfound : Ensures (firstOperator (callRule rules depth) operators) s
      (fun found t => Found found (fun _ _ => s.cursor.pos < t.cursor.pos) True)
      (fun _ _ => True) (fun _ => True) := by
    refine ensures_firstOperator (fun t => t.cursor.pos = s.cursor.pos) ?_ (fun _ _ => trivial) rfl
    intro e a hmem t ht
    obtain ⟨l, rfl, hpos⟩ := h e (List.mem_map_of_mem hmem)
    rw [Expr.eval, ensures_terminal]
    split
    · next span after htake =>
      obtain ⟨size, hsize, heq⟩ := Option.map_eq_some_iff.mp htake
      obtain ⟨-, rfl⟩ := Prod.mk.inj heq
      have hlength := (Literal.accepts_of_width? hsize).1
      dsimp only [Cursor.advance_pos]
      omega
    · exact ht
  exact hfound.of_ok hrun

section Levels

variable {depth : Nat} {s : MatchState}

theorem ensures_calls (rules : List Rule) (depth handle : Nat)
    (hs : s.cursor.pos ≤ s.cursor.input.length) :
    Ensures (callRule rules depth handle) s
      (fun v t => Calls rules handle s.cursor (.ok v) t.cursor ∧ s.cursor.Advances t.cursor)
      (fun x t => Calls rules handle s.cursor (.error x) t.cursor) (fun _ => True) := by
  have hbounds := callRule_inBounds rules depth handle s hs
  apply (hbounds.also (Ensures.run_eq _ s)).mono
  · rintro v t ⟨hadvances, hrun⟩
    refine ⟨⟨depth, s, t, rfl, rfl, ?_⟩, hadvances⟩
    rw [run_attempt, hrun]
  · rintro x t ⟨-, hrun⟩
    refine ⟨depth, s, t, rfl, rfl, ?_⟩
    rw [run_attempt, hrun]

theorem ensures_finds {α : Type} (rules : List Rule) (depth : Nat) (operators : List (Expr × α))
    (hs : s.cursor.pos ≤ s.cursor.input.length) :
    Ensures (firstOperator (callRule rules depth) operators) { s with scope := .empty }
      (fun found t => Finds rules operators s.cursor found t.scope t.cursor ∧
        s.cursor.Advances t.cursor)
      (fun _ _ => False) (fun _ => True) := by
  have hcall := callRule_inBounds rules depth
  apply ((ensures_firstOperator_advances hcall (.refl hs)).also (Ensures.run_eq _ _)).mono
  · rintro found t ⟨hadvances, hrun⟩
    refine ⟨⟨depth, { s with scope := .empty }, t, rfl, rfl, rfl, rfl, hrun⟩, ?_⟩
    match found with
    | some _ => exact hadvances
    | none => exact hadvances
  · exact fun _ _ h => h.1

/-- The loop has read the chain up to where it is, and holds its fold. -/
theorem leftAssoc_folds (self : Matcher Value) (hs : s.cursor.pos ≤ s.cursor.input.length)
    (htake : OperatorsTake rules operators s.cursor) :
    Folds foldLeft rules operators operand ((leftAssoc operators).eval (callRule rules depth) self
      (callRule rules depth operand)) s := by
  apply ensures_leftAssoc fun left t => s.cursor.Advances t.cursor ∧
    ∃ first mid before, Calls rules operand s.cursor (.ok first) mid ∧
      foldLeft s.cursor.input first before = .ok left ∧
      ∀ links failure stop, Chain rules operators operand t.cursor links failure stop →
        Chain rules operators operand mid (before ++ links) failure stop
  · apply (ensures_calls rules depth operand hs).mono
    · rintro first t ⟨hcalls, ht⟩
      exact ⟨ht, first, t.cursor, [], hcalls, rfl, fun _ _ _ h => h⟩
    · exact fun x t hcalls => .fails hcalls
  rintro left t ⟨ht, first, mid, before, hfirst, hleft, hbefore⟩
  apply (ensures_finds rules depth operators ht.pos_le_input).imp_total
  rintro found u ⟨hfinds, hu⟩
  match found with
  | none =>
    have hchain := hbefore _ _ _ (.stops hfinds)
    rw [List.append_nil] at hchain
    exact ⟨first, before, .ends hfirst hchain, hleft⟩
  | some (op, a) =>
    have hmoves := htake _ _ _ _ ht.input_eq ht.pos_le hfinds
    have hright := ensures_calls rules depth operand (s := { u with scope := t.scope })
      hu.pos_le_input
    apply hright.mono
    · rintro right w ⟨hcalls, hw⟩
      have hinput : w.cursor.input = s.cursor.input :=
        hw.input_eq.trans (hu.input_eq.trans ht.input_eq)
      refine Settled.intro (fun y hy => ?_) fun _ => trivial
      have hless : w.cursor.remaining.length < t.cursor.remaining.length := by
        refine (hu.trans hw).remaining_lt ?_
        have hle := hw.pos_le
        dsimp only at hle
        omega
      rw [if_pos hless]
      refine ⟨ht.trans (hu.trans hw), first, mid, before ++ [⟨op, a, u.scope, right⟩], hfirst,
        ?_, ?_⟩
      · rw [foldLeft_snoc hleft, Link.apply, ← hinput]
        exact hy
      · intro links failure stop hlinks
        rw [List.append_assoc]
        exact hbefore _ _ _ (.link hfinds hcalls hlinks)
    · exact fun x w hcalls => .breaks hfirst (hbefore _ _ _ (.breaks hfinds hcalls))

/-- What the level makes of the rest is the right operand of the first operator. -/
theorem rightAssoc_folds {self : Matcher Value} (hs : s.cursor.pos ≤ s.cursor.input.length)
    (hbounds : InBounds self) (hself : ∀ t : MatchState, s.cursor.Advances t.cursor →
      Folds foldRight rules operators operand self t) :
    Folds foldRight rules operators operand ((rightAssoc operators).eval (callRule rules depth) self
      (callRule rules depth operand)) s := by
  apply ensures_rightAssoc
  apply (ensures_calls rules depth operand hs).mono
  · rintro first t ⟨hfirst, ht⟩
    apply (ensures_finds rules depth operators ht.pos_le_input).imp_total
    rintro found u ⟨hfinds, hu⟩
    match found with
    | none => exact ⟨first, [], .ends hfirst (.stops hfinds), rfl⟩
    | some (op, a) =>
      have hrest := hself { u with scope := t.scope } (ht.trans hu)
      apply (hrest.also (hbounds { u with scope := t.scope } hu.pos_le_input)).mono
      · rintro right w ⟨⟨second, links, hcourse, hright⟩, hw⟩
        have hinput := hw.input_eq.trans (hu.input_eq.trans ht.input_eq)
        refine Settled.intro (fun y hy => ?_) fun _ => trivial
        cases hcourse with
        | ends hcalls hchain =>
          refine ⟨first, ⟨op, a, u.scope, second⟩ :: links,
            .ends hfirst (.link hfinds hcalls hchain), ?_⟩
          have hright' : foldRight s.cursor.input second links = .ok right := by
            rw [← hu.input_eq.trans ht.input_eq]
            exact hright
          rw [foldRight, hright', ← hinput]
          exact hy
      · rintro x w ⟨hcourse, -⟩
        cases hcourse with
        | fails hcalls => exact .breaks hfirst (.breaks hfinds hcalls)
        | breaks hcalls hchain => exact .breaks hfirst (.link hfinds hcalls hchain)
  · exact fun x t hcalls => .fails hcalls

/-- A call of a level that groups to the left. -/
theorem callRule_leftAssoc_folds {left : Nat} {name : String} {kind : RuleKind}
    (hleft : rules[left]? = some ⟨name, kind, .level (.leftAssoc operators) operand⟩)
    (hs : s.cursor.pos ≤ s.cursor.input.length) (htake : OperatorsTake rules operators s.cursor) :
    Folds foldLeft rules operators operand (callRule rules depth left) s := by
  cases depth with
  | zero => trivial
  | succ depth =>
    rw [Folds, ensures_callRule_succ, hleft]
    exact leftAssoc_folds (callRule rules depth left) (s := ⟨s.cursor, .empty, _⟩) hs htake

/-- A call of a level that groups to the right. -/
theorem callRule_rightAssoc_folds {right : Nat} {name : String} {kind : RuleKind}
    (hright : rules[right]? = some ⟨name, kind, .level (.rightAssoc operators) operand⟩)
    (hs : s.cursor.pos ≤ s.cursor.input.length) :
    Folds foldRight rules operators operand (callRule rules depth right) s := by
  induction depth generalizing s with
  | zero => trivial
  | succ depth ih =>
    rw [Folds, ensures_callRule_succ, hright]
    exact rightAssoc_folds (s := ⟨s.cursor, .empty, _⟩) hs (callRule_inBounds rules depth right)
      fun t ht => ih ht.pos_le_input

/-- What an attempt comes to is what its course makes of it. -/
theorem Matcher.Folds.of_attempt {fold : Bytes → Value → List Link → Except Fault Value}
    {m : Matcher Value} (h : Folds fold rules operators operand m s)
    {result : Except Mismatch Value} {t : MatchState}
    (hrun : EStateM.run (attempt m) s = .ok result t) :
    ∃ outcome, Course rules operators operand s.cursor outcome t.cursor ∧
      match outcome with
      | .error x => result = .error x
      | .ok (first, links) => ∃ v, result = .ok v ∧ fold s.cursor.input first links = .ok v := by
  rw [run_attempt] at hrun
  split at hrun
  · next v u hm =>
    obtain ⟨rfl, rfl⟩ := EStateM.Result.ok.inj hrun
    obtain ⟨first, links, hcourse, hfold⟩ := h.of_ok hm
    exact ⟨.ok (first, links), hcourse, v, rfl, hfold⟩
  · next x u hm =>
    obtain ⟨rfl, rfl⟩ := EStateM.Result.ok.inj hrun
    exact ⟨.error x, h.of_mismatch hm, rfl⟩
  · cases hrun

end Levels

/-! ## Two levels with the same operators -/

/-- The operators and the operand of two levels, which may be of two grammars, come to the same
from everywhere. -/
structure SameParts (rules : List Rule) (operators : List (Expr × BinaryAction)) (operand : Nat)
    (rules' : List Rule) (operators' : List (Expr × BinaryAction)) (operand' : Nat) : Prop where
  finds : ∀ start found captures stop, Finds rules operators start found captures stop ↔
    Finds rules' operators' start found captures stop
  calls : ∀ start result stop, Calls rules operand start result stop ↔
    Calls rules' operand' start result stop

namespace SameParts

variable {rules' : List Rule} {operators' : List (Expr × BinaryAction)} {operand' : Nat}

theorem chain (h : SameParts rules operators operand rules' operators' operand')
    {start stop : Cursor} {links : List Link} {failure : Option Mismatch}
    (hchain : Chain rules' operators' operand' start links failure stop) :
    Chain rules operators operand start links failure stop := by
  induction hchain with
  | stops hfinds => exact .stops ((h.finds ..).mpr hfinds)
  | breaks hfinds hcalls => exact .breaks ((h.finds ..).mpr hfinds) ((h.calls ..).mpr hcalls)
  | link hfinds hcalls _ ih => exact .link ((h.finds ..).mpr hfinds) ((h.calls ..).mpr hcalls) ih

theorem course (h : SameParts rules operators operand rules' operators' operand')
    {start stop : Cursor} {outcome : Except Mismatch (Value × List Link)}
    (hcourse : Course rules' operators' operand' start outcome stop) :
    Course rules operators operand start outcome stop := by
  cases hcourse with
  | fails hcalls => exact .fails ((h.calls ..).mpr hcalls)
  | breaks hcalls hchain => exact .breaks ((h.calls ..).mpr hcalls) (h.chain hchain)
  | ends hcalls hchain => exact .ends ((h.calls ..).mpr hcalls) (h.chain hchain)

end SameParts

/-- A level that groups to the left and one that groups to the right, with the same operators,
all of which take something, and the same operand: wherever both come to an end, they have read
the same and are at the same place. Either both have failed with the same mismatch, for want of
the first operand or of one behind an operator; or they have read one chain, which ends where no
operator matches, and one has folded it from the left and the other from the right. -/
theorem left_right_fold_one_chain {rules' : List Rule} {operators' : List (Expr × BinaryAction)}
    {operand' left right : Nat} {name name' : String} {kind kind' : RuleKind}
    (hleft : rules[left]? = some ⟨name, kind, .level (.leftAssoc operators) operand⟩)
    (hright : rules'[right]? = some ⟨name', kind', .level (.rightAssoc operators') operand'⟩)
    (hparts : SameParts rules operators operand rules' operators' operand')
    {s s' t t' : MatchState} (hcursor : s'.cursor = s.cursor)
    (hs : s.cursor.pos ≤ s.cursor.input.length)
    (htake : OperatorsTake rules operators s.cursor) {depth depth' : Nat}
    {result result' : Except Mismatch Value}
    (hrun : EStateM.run (attempt (callRule rules depth left)) s = .ok result t)
    (hrun' : EStateM.run (attempt (callRule rules' depth' right)) s' = .ok result' t') :
    t'.cursor = t.cursor ∧
      ((∃ x, Course rules operators operand s.cursor (.error x) t.cursor ∧
        result = .error x ∧ result' = .error x) ∨
      ∃ first links v v', Course rules operators operand s.cursor (.ok (first, links)) t.cursor ∧
        result = .ok v ∧ foldLeft s.cursor.input first links = .ok v ∧
        result' = .ok v' ∧ foldRight s.cursor.input first links = .ok v') := by
  have hs' : s'.cursor.pos ≤ s'.cursor.input.length := hcursor ▸ hs
  obtain ⟨outcome, hcourse, hresult⟩ :=
    (callRule_leftAssoc_folds hleft hs htake).of_attempt hrun
  obtain ⟨outcome', hcourse', hresult'⟩ :=
    (callRule_rightAssoc_folds hright hs').of_attempt hrun'
  rw [hcursor] at hcourse' hresult'
  obtain ⟨rfl, hstop⟩ := hcourse.unique (hparts.course hcourse')
  refine ⟨hstop.symm, ?_⟩
  match outcome with
  | .error x => exact .inl ⟨x, hcourse, hresult, hresult'⟩
  | .ok (first, links) =>
    obtain ⟨v, hv, hfold⟩ := hresult
    obtain ⟨v', hv', hfold'⟩ := hresult'
    exact .inr ⟨first, links, v, v', hcourse, hv, hfold, hv', hfold'⟩

/-- Two grammars for chains of letters with bars between them, one for each way to group. -/
theorem left_right_fold_one_chain_of_letters :
    let keep : BinaryAction := ⟨"keep", fun _ matched _ _ => .ok matched⟩
    let bar : List (Expr × BinaryAction) := [(.literal (.exact [0x7C]), keep)]
    let letter : Rule := ⟨"E_1", .precedenceLevel, .expr (.literal (.exact [0x61]))⟩
    let rules : List Rule := [letter, ⟨"E_0", .precedenceLevel, .level (.leftAssoc bar) 0⟩]
    let rules' : List Rule := [letter, ⟨"E_0", .precedenceLevel, .level (.rightAssoc bar) 0⟩]
    let s : MatchState := ⟨.start [0x61, 0x7C, 0x61, 0x7C, 0x61], .empty, #[]⟩
    SameParts rules bar 0 rules' bar 0 ∧ OperatorsTake rules bar s.cursor ∧
      s.cursor.pos ≤ s.cursor.input.length ∧
      ∃ first links v v' t t',
        EStateM.run (attempt (callRule rules 2 1)) s = .ok (.ok v) t ∧
        EStateM.run (attempt (callRule rules' 4 1)) s = .ok (.ok v') t' ∧
        t'.cursor = t.cursor ∧ t.cursor.pos = 5 ∧ v.beq v' = false ∧
        Course rules bar 0 s.cursor (.ok (first, links)) t.cursor ∧
        foldLeft s.cursor.input first links = .ok v ∧
        foldRight s.cursor.input first links = .ok v' := by
  intro keep bar letter rules rules' s
  have hletter : ∀ depth, callRule rules depth 0 = callRule rules' depth 0 := by
    intro depth
    cases depth <;> rfl
  have hbar : ∀ depth, firstOperator (callRule rules depth) bar =
      firstOperator (callRule rules' depth) bar := fun _ => rfl
  have hparts : SameParts rules bar 0 rules' bar 0 := by
    constructor
    · simp only [Finds, hbar, implies_true]
    · simp only [Calls, hletter, implies_true]
  have htake : OperatorsTake rules bar s.cursor := by
    apply operatorsTake_of_literals
    simp [bar, Literal.exact]
  have hs : s.cursor.pos ≤ s.cursor.input.length := by decide
  have hends : (match EStateM.run (attempt (callRule rules 2 1)) s,
        EStateM.run (attempt (callRule rules' 4 1)) s with
      | .ok (.ok v) t, .ok (.ok v') _ => t.cursor.pos == 5 && !v.beq v'
      | _, _ => false) = true := by
    decide +kernel
  split at hends
  · next v t v' t' hrun hrun' =>
    obtain ⟨hpos, hbeq⟩ : t.cursor.pos = 5 ∧ v.beq v' = false := by simpa using hends
    obtain ⟨hcursor, ⟨x, -, hx, -⟩ | ⟨first, links, w, w', hcourse, hw, hfold, hw', hfold'⟩⟩ :=
      left_right_fold_one_chain rfl rfl hparts rfl hs htake hrun hrun'
    · cases hx
    · cases hw
      cases hw'
      exact ⟨hparts, htake, hs, first, links, v, v', t, t', hrun, hrun', hcursor, hpos, hbeq,
        hcourse, hfold, hfold'⟩
  · cases hends

end Peg
