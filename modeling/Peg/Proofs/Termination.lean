import Mathlib.Data.List.Count
import Peg.Parse
import Peg.Proofs.LeftCalls
import Peg.Proofs.Matcher.Agreement

/-!
Matching ends for grammars without left recursion. A call is made either with
fewer bytes left than its caller had, or with as many by a left call, and then
the ranking falls. Both together bound how deep calls can nest, whatever the
input; the repetitions in between end on their own, since each round takes a
byte or is the last.
-/

namespace Peg

namespace Matcher

/-- The run is not cut short: it needs no calls nested deeper than allowed, and no loop in it
goes on for longer. -/
def Halts {α : Type} (m : Matcher α) (s : MatchState) : Prop :=
  Ensures m s (fun _ _ => True) (fun _ _ => True) (fun interrupt => interrupt ≠ .exhausted)

theorem Halts.ensures {α : Type} {m : Matcher α} {s : MatchState} (h : Halts m s)
    {ok : α → MatchState → Prop} {failed : Mismatch → MatchState → Prop}
    (h' : Ensures m s ok failed (fun _ => True)) :
    Ensures m s ok failed (fun interrupt => interrupt ≠ .exhausted) :=
  (h.also h').mono (fun _ _ ht => ht.2) (fun _ _ ht => ht.2)

/-- The rule for what comes after a run that halts: a mismatch ends the whole. -/
theorem Halts.ensures_ok {α : Type} {m : Matcher α} {s : MatchState} (h : Halts m s)
    {ok ok' : α → MatchState → Prop} {failed : Mismatch → MatchState → Prop}
    (h' : Ensures m s ok failed (fun _ => True)) (hok : ∀ a t, ok a t → ok' a t) :
    Ensures m s ok' (fun _ _ => True) (fun interrupt => interrupt ≠ .exhausted) :=
  (h.ensures h').mono hok fun _ _ _ => trivial

theorem fault_ne_exhausted (fault : Fault) : Interrupt.fault fault ≠ .exhausted :=
  fun h => by cases h

end Matcher

open Matcher

/-- With at most `size` bytes left, calls of the handles halt, and all calls do
with fewer. -/
structure CallsHalt (call : Nat → Matcher Value) (handles : List Nat) (size : Nat) : Prop where
  now : ∀ handle ∈ handles, ∀ t : MatchState, t.cursor.pos ≤ t.cursor.input.length →
    t.cursor.remaining.length ≤ size → Halts (call handle) t
  later : ∀ (handle : Nat) (t : MatchState), t.cursor.pos ≤ t.cursor.input.length →
    t.cursor.remaining.length < size → Halts (call handle) t

namespace CallsHalt

variable {call : Nat → Matcher Value} {handles handles' : List Nat} {size : Nat}

theorem mono (h : CallsHalt call handles size) (hsub : ∀ handle ∈ handles', handle ∈ handles)
    {size' : Nat} (hle : size' ≤ size) : CallsHalt call handles' size' := by
  constructor
  · intro handle hmem t ht hsize
    exact h.now handle (hsub handle hmem) t ht (by omega)
  · intro handle t ht hsize
    exact h.later handle t ht (by omega)

theorem of_lt (h : CallsHalt call handles size) {size' : Nat} (hlt : size' < size) :
    CallsHalt call handles' size' := by
  constructor
  · intro handle _ t ht hsize
    exact h.later handle t ht (by omega)
  · intro handle t ht hsize
    exact h.later handle t ht (by omega)

/-- After a match that took something, all calls halt; after one that took
nothing, those do that were allowed for then. -/
theorem after {a b : Cursor} (h : CallsHalt call handles a.remaining.length) {nullable : Bool}
    (hab : a.MovesOn nullable b)
    (hsub : nullable = true → ∀ handle ∈ handles', handle ∈ handles) :
    CallsHalt call handles' b.remaining.length := by
  by_cases hpos : b.pos = a.pos
  · exact h.mono (hsub (hab.foreseen hpos)) hab.advances.remaining_le
  · exact h.of_lt (hab.advances.remaining_lt hpos)

/-- The calls of a level after its operand. -/
theorem after_operand {marked : Nat → Bool} {operand : Nat} {a b : Cursor}
    (h : CallsHalt call (operand :: if marked operand then handles else [])
      a.remaining.length) (hab : a.MovesOn (marked operand) b) :
    CallsHalt call handles b.remaining.length := by
  apply h.after hab
  intro hidle handle hmem
  rw [if_pos hidle]
  exact List.mem_cons_of_mem _ hmem

end CallsHalt

/-- The matcher halts wherever the calls do that it may begin with. -/
def HaltsWith {α : Type} (call : Nat → Matcher Value) (handles : List Nat) (m : Matcher α) :
    Prop :=
  ∀ s : MatchState, s.cursor.pos ≤ s.cursor.input.length →
    CallsHalt call handles s.cursor.remaining.length → Halts m s

section Halting

variable {call : Nat → Matcher Value} {marked : Nat → Bool}

theorem terminal_halts {e : Expr} {width? : Bytes → Option Nat} (s : MatchState) :
    Halts (terminal e width?) s := by
  unfold Halts
  rw [ensures_terminal]
  split
  · trivial
  · trivial

theorem evalParts_halts {es : List Expr}
    (hes : ∀ e ∈ es, HaltsWith call (e.leftCalls marked) (e.eval call))
    (hforeseen : ∀ e : Expr, Foreseen (e.eval call) (e.nullable marked)) :
    HaltsWith call (Expr.partsLeftCalls marked es) (Expr.evalParts call es) := by
  induction es with
  | nil =>
    intro s hs hcalls
    trivial
  | cons e es ih =>
    intro s hs hcalls
    unfold Halts
    rw [Expr.ensures_evalParts_cons]
    have hhead : ∀ handle ∈ e.leftCalls marked,
        handle ∈ Expr.partsLeftCalls marked (e :: es) :=
      fun handle hmem => List.mem_append_left _ hmem
    have hhalts := hes e List.mem_cons_self s hs (hcalls.mono hhead (Nat.le_refl _))
    apply hhalts.ensures_ok (hforeseen e s hs)
    intro value t ht
    have htail : e.nullable marked = true → ∀ handle ∈ Expr.partsLeftCalls marked es,
        handle ∈ Expr.partsLeftCalls marked (e :: es) := by
      intro he handle hmem
      rw [Expr.partsLeftCalls, if_pos he]
      exact List.mem_append_right _ hmem
    exact ih (fun e he => hes e (List.mem_cons_of_mem _ he)) t ht.advances.pos_le_input
      (hcalls.after ht htail)

/-- Back where the attempt started there is as much left as before. -/
theorem CallsHalt.backAt {handles : List Nat} {s t : MatchState}
    (hcalls : CallsHalt call handles s.cursor.remaining.length)
    (ht : s.cursor.Advances t.cursor) :
    CallsHalt call handles (t.backAt s.cursor.pos).cursor.remaining.length :=
  hcalls.mono (fun _ hmem => hmem) ht.jump.remaining_le

theorem firstOf_halts {es : List Expr}
    (hes : ∀ e ∈ es, HaltsWith call (e.leftCalls marked) (e.eval call))
    (hbounds : ∀ e : Expr, InBounds (e.eval call)) {empty : Mismatch} {best : Option Mismatch} :
    HaltsWith call (Expr.eachLeftCalls marked es)
      (firstOf empty best (Expr.evalEach call es)) := by
  induction es generalizing best with
  | nil =>
    intro s hs hcalls
    trivial
  | cons e es ih =>
    intro s hs hcalls
    unfold Halts
    rw [Expr.evalEach, ensures_firstOf_cons]
    have hhead : ∀ handle ∈ e.leftCalls marked, handle ∈ Expr.eachLeftCalls marked (e :: es) :=
      fun handle hmem => List.mem_append_left _ hmem
    have htail : ∀ handle ∈ Expr.eachLeftCalls marked es,
        handle ∈ Expr.eachLeftCalls marked (e :: es) :=
      fun handle hmem => List.mem_append_right _ hmem
    have hhalts := hes e List.mem_cons_self s hs (hcalls.mono hhead (Nat.le_refl _))
    apply (hhalts.ensures (hbounds e s hs)).mono (fun _ _ _ => trivial)
    intro x t ht
    exact ih (fun e he => hes e (List.mem_cons_of_mem _ he)) (t.backAt s.cursor.pos)
      ht.1.jump.pos_le_input ((hcalls.backAt ht.1).mono htail (Nat.le_refl _))

/-- A repetition ends by itself; all it needs is that its body halts each time. -/
theorem many_halts {m : Matcher Value} {handles : List Nat} (hm : HaltsWith call handles m)
    (hbounds : InBounds m) (idle : Nat → Event) (values : List Value) :
    HaltsWith call handles (many idle m values) := by
  intro s hs hcalls
  refine Ensures.many (fun _ t => s.cursor.Advances t.cursor) ?_ (Cursor.Advances.refl hs)
  intro values t ht
  have hhalts := hm t ht.pos_le_input (hcalls.mono (fun _ hmem => hmem) ht.remaining_le)
  apply hhalts.ensures_ok (hbounds t ht.pos_le_input)
  intro value u hu
  split
  · exact ht.trans hu
  · trivial

theorem Expr.eval_halts (hcall : ∀ handle, Foreseen (call handle) (marked handle))
    (hbounds : ∀ handle, InBounds (call handle)) (e : Expr) :
    HaltsWith call (e.leftCalls marked) (e.eval call) := by
  have hforeseen := fun e : Expr => Expr.eval_foreseen hcall hbounds e
  have hbounds := fun e : Expr => Expr.eval_inBounds hbounds e
  induction e using Expr.parts_induction with
  | literal l => exact fun s _ _ => terminal_halts s
  | charClass c => exact fun s _ _ => terminal_halts s
  | anyChar => exact fun s _ _ => terminal_halts s
  | seq es ih =>
    intro s hs hcalls
    unfold Halts
    rw [Expr.ensures_seq]
    exact evalParts_halts ih hforeseen s hs hcalls
  | choice es ih =>
    intro s hs hcalls
    unfold Halts
    rw [Expr.ensures_choice]
    exact firstOf_halts ih hbounds s hs hcalls
  | star e ih =>
    intro s hs hcalls
    unfold Halts
    rw [Expr.ensures_star]
    exact many_halts ih (hbounds e) _ _ s hs hcalls
  | plus e ih =>
    intro s hs hcalls
    unfold Halts
    rw [Expr.ensures_plus]
    apply (ih s hs hcalls).ensures_ok (hbounds e s hs)
    intro first t ht
    split
    · exact many_halts ih (hbounds e) _ _ t ht.pos_le_input
        (hcalls.mono (fun _ hmem => hmem) ht.remaining_le)
    · trivial
  | optional e ih =>
    intro s hs hcalls
    unfold Halts
    rw [Expr.ensures_optional]
    exact ih s hs hcalls
  | ahead e ih =>
    intro s hs hcalls
    unfold Halts
    rw [Expr.ensures_ahead]
    exact ih s hs hcalls
  | notAhead e ih =>
    intro s hs hcalls
    unfold Halts
    rw [Expr.ensures_notAhead]
    exact ih s hs hcalls
  | discard e ih | label name e ih | action e a ih | slice e ih | concat e ih =>
    intro s hs hcalls
    exact Expr.ensures_wrapped rfl (fun _ => True) (fun _ _ => True) fault_ne_exhausted
      (ih s hs hcalls)
  | rule ref =>
    intro s hs hcalls
    unfold Halts
    rw [Expr.ensures_rule]
    cases href : ref.handle? with
    | none => exact fault_ne_exhausted _
    | some handle =>
      have hmem : handle ∈ (Expr.rule ref).leftCalls marked := by
        rw [Expr.leftCalls, href]
        exact List.mem_singleton_self handle
      exact hcalls.now handle hmem s hs (Nat.le_refl _)

theorem Expr.leftCalls_of_mem {e : Expr} {es : List Expr} (hmem : e ∈ es) :
    ∀ handle ∈ e.leftCalls marked, handle ∈ Expr.eachLeftCalls marked es := by
  intro handle hhandle
  induction es with
  | nil => cases hmem
  | cons head es ih =>
    rcases List.mem_cons.mp hmem with rfl | htail
    · exact List.mem_append_left _ hhandle
    · exact List.mem_append_right _ (ih htail)

namespace OperatorLevel

variable {α : Type} {self operand : Nat}

theorem firstOperator_halts (hcall : ∀ handle, Foreseen (call handle) (marked handle))
    (hbounds : ∀ handle, InBounds (call handle)) {operators : List (Expr × α)} {s : MatchState}
    (hs : s.cursor.pos ≤ s.cursor.input.length)
    (hcalls : CallsHalt call (Expr.eachLeftCalls marked (operators.map Prod.fst))
      s.cursor.remaining.length) :
    Ensures (firstOperator call operators) { s with scope := .empty } (fun found t =>
      Found found
        (fun _ _ => s.cursor.MovesOn (Expr.anyNullable marked (operators.map Prod.fst))
          t.cursor)
        (s.cursor.Advances t.cursor)) (fun _ _ => False)
      (fun interrupt => interrupt ≠ .exhausted) := by
  have hhalts : Ensures (firstOperator call operators) { s with scope := .empty } (fun found t =>
      Found found (fun _ _ => True) True) (fun _ _ => False)
      (fun interrupt => interrupt ≠ .exhausted) := by
    refine ensures_firstOperator (fun t => s.cursor.Advances t.cursor) ?_ (fun _ _ => trivial)
      (Cursor.Advances.refl hs)
    intro e a hmem t ht
    have hmem : e ∈ operators.map Prod.fst := List.mem_map_of_mem hmem
    have hop := Expr.eval_halts hcall hbounds e t ht.pos_le_input
      (hcalls.mono (Expr.leftCalls_of_mem hmem) ht.remaining_le)
    apply (hop.ensures (Expr.eval_inBounds hbounds e t ht.pos_le_input)).mono
      (fun _ _ _ => trivial)
    intro x u hu
    exact ht.trans hu.1.jump
  exact (hhalts.also (firstOperator_foreseen hcall hbounds hs)).mono (fun _ _ ht => ht.2)
    (fun _ _ ht => ht.2)

/-- The level itself counts among its own left calls only where an operator, and
what stands to its left, may take nothing. -/
theorem eval_halts (hcall : ∀ handle, Foreseen (call handle) (marked handle))
    (hbounds : ∀ handle, InBounds (call handle)) (level : OperatorLevel) :
    HaltsWith call (level.leftCalls marked self operand)
      (level.eval call (call self) (call operand)) := by
  intro s hs hcalls
  have hstart := Cursor.Advances.refl hs
  cases level with
  | prefixOps operators =>
    have hops : ∀ handle ∈ Expr.eachLeftCalls marked (operators.map Prod.fst),
        handle ∈ (prefixOps operators).leftCalls marked self operand :=
      fun handle hmem => List.mem_append_left _ hmem
    have hoperand : operand ∈ (prefixOps operators).leftCalls marked self operand :=
      List.mem_append_right _ List.mem_cons_self
    apply ensures_prefixOps
    apply (firstOperator_halts hcall hbounds hs (hcalls.mono hops (Nat.le_refl _))).imp_total
    intro found t hfound
    refine hfound.imp (fun op a ht => ?_) (fun ht => ?_)
    · have hself : CallsHalt call [self] t.cursor.remaining.length := by
        apply hcalls.after ht
        intro hidle handle hmem
        refine List.mem_append_right _ (List.mem_cons_of_mem _ ?_)
        rw [idleOperator, exprs, if_pos hidle]
        exact hmem
      apply (hself.now self (List.mem_singleton_self self) { t with scope := s.scope }
        ht.advances.pos_le_input (Nat.le_refl _)).imp_ok
      intro x u _
      exact Settled.intro (fun _ _ => trivial) fault_ne_exhausted
    · exact hcalls.now operand hoperand { t with scope := s.scope } ht.pos_le_input
        ht.remaining_le
  | postfixOps operators =>
    have hoperand := hcalls.now operand List.mem_cons_self s hs (Nat.le_refl _)
    apply ensures_postfixOps (fun _ t => s.cursor.MovesOn (marked operand) t.cursor)
    · exact hoperand.ensures_ok (hcall operand s hs) fun _ _ ht => ht
    intro x t ht
    have hops := hcalls.after_operand ht
    apply (firstOperator_halts hcall hbounds ht.advances.pos_le_input hops).imp_total
    intro found u hfound
    refine hfound.imp (fun op a hu => ?_) (fun _ => trivial)
    refine Settled.intro (fun y _ => ?_) fault_ne_exhausted
    split
    · exact ht.trans hu.advances
    · trivial
  | leftAssoc operators =>
    have hoperand := hcalls.now operand List.mem_cons_self
    apply ensures_leftAssoc (fun _ t => s.cursor.MovesOn (marked operand) t.cursor)
    · exact (hoperand s hs (Nat.le_refl _)).ensures_ok (hcall operand s hs) fun _ _ ht => ht
    intro left t ht
    have hops := hcalls.after_operand ht
    apply (firstOperator_halts hcall hbounds ht.advances.pos_le_input hops).imp_total
    intro found u hfound
    refine hfound.imp (fun op a hu => ?_) (fun _ => trivial)
    have hsu := ht.trans hu.advances
    have hright := hoperand { u with scope := t.scope } hsu.advances.pos_le_input
      hsu.advances.remaining_le
    apply hright.ensures_ok (hbounds operand _ hsu.advances.pos_le_input)
    intro right w hw
    refine Settled.intro (fun y _ => ?_) fault_ne_exhausted
    split
    · exact hsu.trans hw
    · trivial
  | rightAssoc operators =>
    have hoperand := hcalls.now operand List.mem_cons_self s hs (Nat.le_refl _)
    refine ensures_rightAssoc ?_
    apply hoperand.ensures_ok (hcall operand s hs)
    intro left t ht
    have hrest := hcalls.after_operand ht
    have hops : CallsHalt call (Expr.eachLeftCalls marked (operators.map Prod.fst))
        t.cursor.remaining.length :=
      hrest.mono (fun _ hmem => List.mem_append_left _ hmem) (Nat.le_refl _)
    apply (firstOperator_halts hcall hbounds ht.advances.pos_le_input hops).imp_total
    intro found u hfound
    refine hfound.imp (fun op a hu => ?_) (fun _ => trivial)
    have hself : CallsHalt call [self] u.cursor.remaining.length := by
      refine hrest.after hu fun hidle handle hmem => List.mem_append_right _ ?_
      rw [idleOperator, exprs, if_pos hidle]
      exact hmem
    apply (hself.now self (List.mem_singleton_self self) { u with scope := t.scope }
      hu.advances.pos_le_input (Nat.le_refl _)).imp_ok
    intro right w _
    exact Settled.intro (fun _ _ => trivial) fault_ne_exhausted

end OperatorLevel

theorem Rule.evalBody_halts (hcall : ∀ callee, Foreseen (call callee) (marked callee))
    (hbounds : ∀ callee, InBounds (call callee)) (rule : Rule) (handle : Nat) :
    HaltsWith call (rule.body.leftCalls marked handle) (rule.evalBody call handle) := by
  intro s hs hcalls
  unfold evalBody
  split
  · next e hbody =>
    rw [hbody] at hcalls
    exact Expr.eval_halts hcall hbounds e s hs hcalls
  · next first rest hbody =>
    rw [hbody] at hcalls
    exact hcalls.now first (List.mem_singleton_self first) s hs (Nat.le_refl _)
  · exact fault_ne_exhausted _
  · next operators operand hbody =>
    rw [hbody] at hcalls
    exact OperatorLevel.eval_halts hcall hbounds operators s hs hcalls

/-- The place of a rule in its ranking, counted from one; a handle of no rule has
place zero. Unlike ranks, places are bounded by the number of rules. -/
def rankPlace (rules : List Rule) (rank : Nat → Nat) (handle : Nat) : Nat :=
  if handle < rules.length then
    (List.range rules.length).countP (fun other => rank other < rank handle) + 1
  else 0

theorem rankPlace_le (rules : List Rule) (rank : Nat → Nat) (handle : Nat) :
    rankPlace rules rank handle ≤ rules.length := by
  unfold rankPlace
  split
  · next hhandle =>
    have hlt : (List.range rules.length).countP (fun other => rank other < rank handle) <
        (List.range rules.length).length :=
      List.countP_lt_length_iff.mpr ⟨handle, List.mem_range.mpr hhandle, by simp⟩
    rw [List.length_range] at hlt
    exact hlt
  · exact Nat.zero_le _

theorem rankPlace_pos {rules : List Rule} (rank : Nat → Nat) {handle : Nat}
    (hhandle : handle < rules.length) : 0 < rankPlace rules rank handle := by
  unfold rankPlace
  rw [if_pos hhandle]
  exact Nat.succ_pos _

/-- Rules of smaller rank have an earlier place: all that rank below the one rank
below the other, which does not rank below itself. -/
theorem rankPlace_lt {rules : List Rule} {rank : Nat → Nat} {callee handle : Nat}
    (hhandle : handle < rules.length) (hrank : rank callee < rank handle) :
    rankPlace rules rank callee < rankPlace rules rank handle := by
  unfold rankPlace
  rw [if_pos hhandle]
  split
  · next hcallee =>
    let below := (List.range rules.length).filter (fun other => rank other < rank handle)
    have hmem : callee ∈ below := by
      rw [List.mem_filter]
      exact ⟨List.mem_range.mpr hcallee, decide_eq_true hrank⟩
    have hlt : below.countP (fun other => rank other < rank callee) < below.length :=
      List.countP_lt_length_iff.mpr ⟨callee, hmem, by simp⟩
    rw [List.countP_filter, ← List.countP_eq_length_filter] at hlt
    have hsame : (List.range rules.length).countP (fun other => rank other < rank callee) =
        (List.range rules.length).countP (fun other =>
          decide (rank other < rank callee) && decide (rank other < rank handle)) := by
      apply List.countP_congr
      intro other _
      simp only [Bool.and_eq_true, decide_eq_true_eq]
      omega
    omega
  · exact Nat.succ_pos _

/-- Enough depth for the bytes that are left and the place of the rule is enough
for the calls that the rule makes. -/
theorem callRule_halts {rules : List Rule} {rank : Nat → Nat}
    (hranked : LeftRanked rules marked rank) {depth handle : Nat} {s : MatchState}
    (hs : s.cursor.pos ≤ s.cursor.input.length)
    (hdepth : s.cursor.remaining.length * rules.length + rankPlace rules rank handle < depth) :
    Halts (callRule rules depth handle) s := by
  induction depth generalizing handle s with
  | zero => omega
  | succ depth ih =>
    unfold Halts
    rw [ensures_callRule_succ]
    cases hrule : rules[handle]? with
    | none => exact fault_ne_exhausted _
    | some rule =>
      have hhandle : handle < rules.length := (List.getElem?_eq_some_iff.mp hrule).1
      have hcalls : CallsHalt (callRule rules depth) (rule.body.leftCalls marked handle)
          s.cursor.remaining.length := by
        constructor
        -- a left call has an earlier place, and otherwise a byte less outweighs any place
        · intro callee hmem t ht hsize
          have hplace := rankPlace_lt hhandle (hranked.falls handle rule hrule callee hmem)
          have hmul := Nat.mul_le_mul_right rules.length hsize
          exact ih ht (by omega)
        · intro callee t ht hsize
          have hplace := rankPlace_le rules rank callee
          have hpos := rankPlace_pos rank hhandle
          have hmul := Nat.mul_le_mul_right rules.length hsize
          rw [Nat.succ_mul] at hmul
          exact ih ht (by omega)
      have hcall : ∀ callee, Foreseen (callRule rules depth callee) (marked callee) :=
        fun callee => (callRule_foreseen hranked.closed depth callee).imp
          hranked.closed.of_ruleNullable
      exact rule.evalBody_halts hcall (callRule_inBounds rules depth) handle
        ⟨s.cursor, .empty, _⟩ hs hcalls

/-- With calls that may nest `depth` deep the run comes to a result, and it comes
to the same result however much deeper they may nest. -/
def Terminates (m : Nat → Matcher Value) (s : MatchState) (depth : Nat) : Prop :=
  ∃ result, (∀ t, result ≠ .error .exhausted t) ∧
    ∀ deeper, depth ≤ deeper → EStateM.run (m deeper) s = result

theorem Matcher.Halts.terminates {m : Nat → Matcher Value} {s : MatchState} {depth : Nat}
    (h : Halts (m depth) s)
    (hrefines : ∀ deeper, depth ≤ deeper → Refines Eq (m depth) (m deeper)) :
    Terminates m s depth := by
  have hresult : ∀ t, EStateM.run (m depth) s ≠ .error .exhausted t :=
    fun t hrun => h.of_exhausted hrun rfl
  refine ⟨EStateM.run (m depth) s, hresult, ?_⟩
  intro deeper hle
  exact (hrefines deeper hle s s rfl).eq_of_ne hresult

/-- Every rule that is called, and every expression that is matched on its own or
in a rule, comes to a result from wherever in an input it starts, provided that
no rule of the grammar is left recursive. So does every parse. -/
theorem evaluation_terminates (grammar : Grammar) {marked : Nat → Bool} {rank : Nat → Nat}
    (hranked : LeftRanked grammar.rules marked rank) {s : MatchState}
    (hs : s.cursor.pos ≤ s.cursor.input.length) :
    (∀ handle, Terminates (fun depth => callRule grammar.rules depth handle) s
      (grammar.callDepth s.cursor)) ∧
    (∀ e : Expr, Terminates (fun depth => e.eval (callRule grammar.rules depth)) s
      (grammar.callDepth s.cursor)) ∧
    ∀ handle, (grammar.parseHandle handle s.cursor).outcome ≠ .error .exhausted := by
  have hdepth : ∀ (handle : Nat) (t : MatchState),
      t.cursor.remaining.length ≤ s.cursor.remaining.length →
      t.cursor.remaining.length * grammar.rules.length + rankPlace grammar.rules rank handle <
        grammar.callDepth s.cursor := by
    intro handle t hsize
    have hplace := rankPlace_le grammar.rules rank handle
    have hmul := Nat.mul_le_mul_right grammar.rules.length hsize
    rw [Grammar.callDepth, Grammar.size, Nat.succ_mul]
    omega
  have hcalls : ∀ handle (t : MatchState), t.cursor.pos ≤ t.cursor.input.length →
      t.cursor.remaining.length ≤ s.cursor.remaining.length →
      Halts (callRule grammar.rules (grammar.callDepth s.cursor) handle) t :=
    fun handle t ht hsize => callRule_halts hranked ht (hdepth handle t hsize)
  refine ⟨?_, ?_, ?_⟩
  · intro handle
    have hhalts := hcalls handle s hs (Nat.le_refl _)
    exact Halts.terminates (m := fun depth => callRule grammar.rules depth handle) hhalts
      fun deeper hle => callRule_refines .eq grammar.rules hle handle
  · intro e
    have hhalts := Expr.eval_halts
      (fun callee => (callRule_foreseen hranked.closed _ callee).imp
        hranked.closed.of_ruleNullable)
      (callRule_inBounds grammar.rules (grammar.callDepth s.cursor)) e s hs
      ⟨fun handle _ t ht hsize => hcalls handle t ht hsize,
        fun handle t ht hsize => hcalls handle t ht (Nat.le_of_lt hsize)⟩
    exact Halts.terminates (m := fun depth => e.eval (callRule grammar.rules depth)) hhalts
      fun deeper hle => Expr.eval_refines .eq
        (fun callee => callRule_refines .eq grammar.rules hle callee) e
  · intro handle
    have hhalts := hcalls handle ⟨s.cursor, .empty, #[]⟩ hs (Nat.le_refl _)
    unfold Grammar.parseHandle runOn
    split
    · intro heq
      cases heq
    · next interrupt t hrun =>
      intro heq
      obtain rfl := Except.error.inj heq
      exact hhalts.of_exhausted hrun rfl

/-- Sums are not left recursive: a level calls its operand first, and itself never. -/
theorem evaluation_terminates_for_sums :
    let plus : BinaryAction := ⟨"l + r", fun _ _ left _ => .ok left⟩
    let grammar : Grammar :=
      ⟨none, [⟨"E", .precedence, .precedence [2, 1]⟩,
        ⟨"E.1", .precedenceLevel, .expr (.literal (.exact [0x6E]))⟩,
        ⟨"E.0", .precedenceLevel, .level (.leftAssoc [(.literal (.exact [0x2B]), plus)]) 1⟩],
        0, by decide⟩
    let rank : Nat → Nat := fun handle => if handle = 0 then 2 else handle - 1
    let s : MatchState := ⟨.start [0x6E, 0x2B, 0x6E], .empty, #[]⟩
    LeftRanked grammar.rules (fun _ => false) rank ∧
    s.cursor.pos ≤ s.cursor.input.length ∧
    (grammar.parseHandle 0 s.cursor).outcome ≠ .error .exhausted := by
  intro plus grammar rank s
  have hranked : LeftRanked grammar.rules (fun _ => false) rank := by
    constructor
    · intro handle rule hrule hnullable
      match handle, hrule with
      | 0, hrule | 1, hrule | 2, hrule =>
        cases hrule
        cases hnullable
    · intro handle rule hrule callee hmem
      match handle, hrule with
      | 0, hrule | 2, hrule =>
        cases hrule
        obtain rfl := List.mem_singleton.mp hmem
        decide
      | 1, hrule =>
        cases hrule
        cases hmem
  have hs : s.cursor.pos ≤ s.cursor.input.length := by decide
  exact ⟨hranked, hs, (evaluation_terminates grammar hranked hs).2.2 0⟩

end Halting

end Peg
