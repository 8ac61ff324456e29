import Mathlib.Logic.Relation
import Mathlib.Order.Bounds.Defs
import Peg.Parse
import Peg.Proofs.Matcher.Bounds

/-!
Which failure a failed parse reports, where nothing but choices catches failures. Of all
that is tried on the way, each failure lies where the cursor got to, and the furthest
position of the cursor is that of a failure. A choice that fails keeps the furthest failure
of its alternatives; one that matches keeps none. So the failure that is reported is the
furthest among those that were tried for what failed as well, and the furthest of all may
be lost to an alternative that matched.
-/

namespace Peg

open Matcher

/-! ## What is tried -/

/-- Something that is tried from a state: an expression, or the call of a rule. Calls may
nest `depth` deep. -/
inductive Trial where
  | expr (depth : Nat) (e : Expr) (s : MatchState)
  | call (depth handle : Nat) (s : MatchState)

namespace Trial

def start : Trial → MatchState
  | expr _ _ s | call _ _ s => s

def matcher (rules : List Rule) : Trial → Matcher Value
  | expr depth e _ => e.eval (callRule rules depth)
  | call depth handle _ => callRule rules depth handle

/-- The trial ends with the mismatch. -/
def FailsWith (rules : List Rule) (trial : Trial) (x : Mismatch) : Prop :=
  ∃ t, EStateM.run (trial.matcher rules) trial.start = .error (.mismatch x) t

/-- In the course of the one trial the other is made: a part after the parts before it have
matched, an alternative after those before it have failed. -/
inductive Tries (rules : List Rule) : Trial → Trial → Prop
  | part {depth : Nat} {before : List Expr} {s t : MatchState} {values : List Value}
    (h : EStateM.run (Expr.evalParts (callRule rules depth) before) s = .ok values t)
    (e : Expr) (after : List Expr) :
    Tries rules (expr depth (.seq (before ++ e :: after)) s) (expr depth e t)
  | alternative {depth : Nat} {before : List Expr} {s t : MatchState} {x : Mismatch}
    (h : EStateM.run ((Expr.choice before).eval (callRule rules depth)) s =
      .error (.mismatch x) t) (e : Expr) (after : List Expr) :
    Tries rules (expr depth (.choice (before ++ e :: after)) s) (expr depth e t)
  | body {e body : Expr} (h : e.wrapped? = some body) (depth : Nat) (s : MatchState) :
    Tries rules (expr depth e s) (expr depth body s)
  | rule {ref : RuleRef} {handle : Nat} (h : ref.handle? = some handle) (depth : Nat)
    (s : MatchState) : Tries rules (expr depth (.rule ref) s) (call depth handle s)
  | call {handle : Nat} {rule : Rule} {e : Expr} (hrule : rules[handle]? = some rule)
    (hbody : rule.body = .expr e) (depth : Nat) (s : MatchState) :
    Tries rules (call (depth + 1) handle s)
      (expr depth e ⟨s.cursor, .empty, s.events.push (.entered rule.name s.cursor.pos)⟩)

/-- In the course of the trial, if not as a whole, something failed at the position. -/
def FailsAt (rules : List Rule) (trial : Trial) (pos : Nat) : Prop :=
  ∃ later x, Relation.ReflTransGen (Tries rules) trial later ∧ later.FailsWith rules x ∧
    x.pos = pos

/-- Something failed at the position that was tried for nothing but what failed as well. -/
def KeepsFailureAt (rules : List Rule) (trial : Trial) (pos : Nat) : Prop :=
  ∃ later x, Relation.ReflTransGen
      (fun trial next => (∃ y, trial.FailsWith rules y) ∧ Tries rules trial next) trial later ∧
    later.FailsWith rules x ∧ x.pos = pos

end Trial

/-! ## Where failures go -/

theorem Mismatch.pos_furthest (x y : Mismatch) : (x.furthest y).pos = max x.pos y.pos := by
  rw [furthest]
  split <;> omega

theorem Mismatch.pos_le_mergeInto (x : Mismatch) (best : Option Mismatch) :
    x.pos ≤ (x.mergeInto best).pos := by
  cases best with
  | none => exact Nat.le_refl _
  | some y =>
    rw [mergeInto, pos_furthest]
    exact Nat.le_max_right ..

namespace Matcher

variable {α : Type}

/-- Matchers that have all failed leave a state to go on from with those behind them. -/
theorem run_firstOf_append {empty x : Mismatch} {best : Option Mismatch} {ms : List (Matcher α)}
    {s t : MatchState} (h : EStateM.run (firstOf empty best ms) s = .error (.mismatch x) t)
    (empty' : Mismatch) (best' : Option Mismatch) (ms' : List (Matcher α)) :
    ∃ best'', EStateM.run (firstOf empty' best' (ms ++ ms')) s =
      EStateM.run (firstOf empty' best'' ms') t := by
  induction ms generalizing s best best' with
  | nil =>
    obtain ⟨-, rfl⟩ := EStateM.Result.error.inj h
    exact ⟨best', rfl⟩
  | cons m ms ih =>
    rw [run_firstOf_cons] at h
    rw [List.cons_append, run_firstOf_cons]
    cases hm : EStateM.run m s with
    | ok a u =>
      rw [hm] at h
      cases h
    | error interrupt u =>
      rw [hm] at h
      cases interrupt with
      | mismatch y => exact ih h _
      | fault fault => cases h
      | exhausted => cases h

/-- Among alternatives neither the furthest mismatch so far is lost nor the furthest position
of the cursor. -/
theorem ensures_firstOf_le {ms : List (Matcher α)} (hms : ∀ m ∈ ms, InBounds m)
    {empty x : Mismatch} {s : MatchState} (hs : s.cursor.pos ≤ s.cursor.input.length) :
    Ensures (firstOf empty (some x) ms) s (fun _ t => s.cursor.furthest ≤ t.cursor.furthest)
      (fun y t => x.pos ≤ y.pos ∧ s.cursor.furthest ≤ t.cursor.furthest) (fun _ => True) := by
  induction ms generalizing s x with
  | nil => exact ⟨Nat.le_refl _, Nat.le_refl _⟩
  | cons m ms ih =>
    rw [ensures_firstOf_cons]
    apply (hms m List.mem_cons_self s hs).mono
    · intro _ t ht
      exact (Nat.max_le.mp ht.furthest_le).1
    · intro y t ht
      have hback := ht.1.jump
      have hle := (Nat.max_le.mp hback.furthest_le).1
      have hmerged : (y.mergeInto (some x)).pos = max x.pos y.pos := x.pos_furthest y
      have hrest := ih (x := y.mergeInto (some x)) (s := t.backAt s.cursor.pos)
        (fun m hm => hms m (List.mem_cons_of_mem _ hm)) hback.pos_le_input
      apply hrest.mono
      · intro _ u hu
        exact Nat.le_trans hle hu
      · intro z u hu
        refine ⟨?_, Nat.le_trans hle hu.2⟩
        have hkept := hu.1
        omega

end Matcher

theorem Expr.run_evalParts_cons (call : Nat → Matcher Value) (e : Expr) (es : List Expr)
    (s : MatchState) :
    EStateM.run (evalParts call (e :: es)) s =
      match EStateM.run (e.eval call) s with
      | .ok value t => EStateM.run
          ((fun values => if e.isDiscard then values else value :: values) <$> evalParts call es) t
      | .error interrupt t => .error interrupt t := by
  rw [evalParts, EStateM.run_bind]
  cases EStateM.run (e.eval call) s with
  | ok value t =>
    dsimp only
    rw [map_eq_pure_bind]
  | error interrupt t => rfl

/-- Parts that have all matched leave a state to go on from with those behind them. -/
theorem Expr.run_evalParts_append {call : Nat → Matcher Value} {es : List Expr} {s t : MatchState}
    {values : List Value} (h : EStateM.run (evalParts call es) s = .ok values t)
    (es' : List Expr) :
    EStateM.run (evalParts call (es ++ es')) s =
      EStateM.run ((values ++ ·) <$> evalParts call es') t := by
  induction es generalizing s values with
  | nil =>
    obtain ⟨rfl, rfl⟩ := EStateM.Result.ok.inj h
    have hid : (([] : List Value) ++ ·) = id := rfl
    rw [hid, id_map]
    rfl
  | cons e es ih =>
    rw [run_evalParts_cons] at h
    rw [List.cons_append, run_evalParts_cons]
    cases he : EStateM.run (e.eval call) s with
    | error interrupt u =>
      rw [he] at h
      cases h
    | ok value u =>
      rw [he] at h
      dsimp only at h ⊢
      rw [run_map] at h
      cases hes : EStateM.run (evalParts call es) u with
      | error interrupt w =>
        rw [hes] at h
        cases h
      | ok rest w =>
        rw [hes] at h
        obtain ⟨rfl, rfl⟩ := EStateM.Result.ok.inj h
        rw [run_map, ih hes, run_map, run_map]
        cases EStateM.run (evalParts call es') w with
        | error interrupt v => rfl
        | ok more v => cases e.isDiscard <;> rfl

theorem Expr.run_evalParts_snoc {call : Nat → Matcher Value} {es : List Expr} {e : Expr}
    {s t u : MatchState} {values : List Value} {value : Value}
    (h : EStateM.run (evalParts call es) s = .ok values t)
    (he : EStateM.run (e.eval call) t = .ok value u) :
    ∃ values', EStateM.run (evalParts call (es ++ [e])) s = .ok values' u := by
  rw [run_evalParts_append h, run_map, run_evalParts_cons, he]
  exact ⟨_, rfl⟩

theorem Expr.run_choice_snoc {call : Nat → Matcher Value} {es : List Expr} {e : Expr}
    {s t u : MatchState} {x y : Mismatch}
    (h : EStateM.run ((choice es).eval call) s = .error (.mismatch x) t)
    (he : EStateM.run (e.eval call) t = .error (.mismatch y) u) :
    ∃ z, EStateM.run ((choice (es ++ [e])).eval call) s =
      .error (.mismatch z) (u.backAt t.cursor.pos) := by
  rw [run_choice] at h
  obtain ⟨best, happend⟩ := run_firstOf_append h ⟨choice (es ++ [e]), s.cursor.pos⟩ none
    (evalEach call [e])
  rw [run_choice, evalEach_append, happend, evalEach, evalEach, run_firstOf_cons, he]
  exact ⟨_, rfl⟩

namespace Trial

variable {rules : List Rule} {trial next : Trial}

theorem inBounds (rules : List Rule) (trial : Trial) : InBounds (trial.matcher rules) := by
  cases trial with
  | expr depth e s => exact e.eval_inBounds (callRule_inBounds rules depth)
  | call depth handle s => exact callRule_inBounds rules depth handle

/-- The trials that are made start further on, or where the trial itself does. -/
theorem Tries.advances (h : Tries rules trial next)
    (hs : trial.start.cursor.pos ≤ trial.start.cursor.input.length) :
    trial.start.cursor.Advances next.start.cursor := by
  cases h with
  | @part depth before _ _ _ hbefore _ _ =>
    have hparts : InBounds (Expr.evalParts (callRule rules depth) before) :=
      Expr.evalParts_inBounds fun e _ => e.eval_inBounds (callRule_inBounds rules depth)
    exact (hparts _ hs).of_ok hbefore
  | @alternative depth before _ _ _ hbefore _ _ =>
    have hchoice := (Expr.choice before).eval_inBounds (callRule_inBounds rules depth)
    exact ((hchoice _ hs).of_mismatch hbefore).1
  | body _ _ _ => exact .refl hs
  | rule _ _ _ => exact .refl hs
  | call _ _ _ _ => exact .refl hs

/-- What comes of a trial that is made goes into the trial it is made for. If it matched,
nothing is known of the end but that the cursor gets no less far. If it failed, then the
whole may match, or fail at least as far on. -/
theorem Tries.ensures (h : Tries rules trial next)
    (hs : trial.start.cursor.pos ≤ trial.start.cursor.input.length)
    (okNext ok : Cursor → Prop) (failedNext failed : Mismatch → Cursor → Prop)
    (hnext : Ensures (next.matcher rules) next.start (fun _ t => okNext t.cursor)
      (fun x t => failedNext x t.cursor) (fun _ => True))
    (hok : ∀ c d, okNext c → c.furthest ≤ d.furthest → ok d ∧ ∀ x, failed x d)
    (hfailed : ∀ x c d, failedNext x c → c.furthest ≤ d.furthest →
      ok d ∧ ∀ y, x.pos ≤ y.pos → failed y d) :
    Ensures (trial.matcher rules) trial.start (fun _ t => ok t.cursor)
      (fun x t => failed x t.cursor) (fun _ => True) := by
  have hbounds := (next.inBounds rules next.start (h.advances hs).pos_le_input)
  have hends := hnext.also hbounds
  have hpassed : Ensures (next.matcher rules) next.start (fun _ t => ok t.cursor)
      (fun x t => failed x t.cursor) (fun _ => True) :=
    hnext.mono (fun _ t ht => (hok _ _ ht (Nat.le_refl _)).1)
      fun x t hx => (hfailed x _ _ hx (Nat.le_refl _)).2 x (Nat.le_refl _)
  cases h with
  | @part depth before s t values hbefore e after =>
    have happend (ok : List Value → MatchState → Prop) (failed : Mismatch → MatchState → Prop) :
        Ensures (Expr.evalParts (callRule rules depth) (before ++ e :: after)) s ok failed
            (fun _ => True) ↔
          Ensures (Expr.evalParts (callRule rules depth) (e :: after)) t
            (fun rest u => ok (values ++ rest) u) failed (fun _ => True) := by
      rw [← ensures_map (values ++ ·)]
      unfold Ensures
      rw [Expr.run_evalParts_append hbefore]
    have hafter : InBounds (Expr.evalParts (callRule rules depth) after) :=
      Expr.evalParts_inBounds fun e _ => e.eval_inBounds (callRule_inBounds rules depth)
    refine (Expr.ensures_seq _).mpr ((happend _ _).mpr ?_)
    rw [Expr.ensures_evalParts_cons]
    apply hends.mono
    · intro value u hu
      apply (hafter u hu.2.pos_le_input).mono
      · intro rest w hw
        exact (hok _ _ hu.1 (Nat.max_le.mp hw.furthest_le).1).1
      · intro x w hw
        exact (hok _ _ hu.1 (Nat.max_le.mp hw.1.furthest_le).1).2 x
    · intro x u hu
      exact (hfailed x _ _ hu.1 (Nat.le_refl _)).2 x (Nat.le_refl _)
  | @alternative depth before s t x hbefore e after =>
    rw [Expr.run_choice] at hbefore
    obtain ⟨best, happend⟩ := run_firstOf_append hbefore
      ⟨.choice (before ++ e :: after), s.cursor.pos⟩ none
      (Expr.evalEach (callRule rules depth) (e :: after))
    have hafter : ∀ m ∈ Expr.evalEach (callRule rules depth) after, InBounds m :=
      Expr.mem_evalEach_inBounds fun e _ => e.eval_inBounds (callRule_inBounds rules depth)
    show Ensures ((Expr.choice (before ++ e :: after)).eval (callRule rules depth)) s _ _ _
    rw [Ensures, Expr.run_choice, Expr.evalEach_append, happend, ← Ensures, Expr.evalEach,
      ensures_firstOf_cons]
    apply hends.mono
    · intro value u hu
      exact (hok _ _ hu.1 (Nat.le_refl _)).1
    · intro y u hu
      have hback := hu.2.1.jump
      have hleft : u.cursor.furthest ≤ (u.backAt t.cursor.pos).cursor.furthest :=
        Nat.le_max_left ..
      apply (ensures_firstOf_le hafter (s := u.backAt t.cursor.pos) hback.pos_le_input).mono
      · intro value w hw
        exact (hfailed y _ _ hu.1 (Nat.le_trans hleft hw)).1
      · intro z w hw
        exact (hfailed y _ _ hu.1 (Nat.le_trans hleft hw.2)).2 z
          (Nat.le_trans (y.pos_le_mergeInto best) hw.1)
  | body hbody depth s =>
    exact Expr.ensures_wrapped hbody ok failed (fun _ => trivial) hpassed
  | rule href depth s =>
    refine (Expr.ensures_rule _).mpr ?_
    rw [href]
    exact hpassed
  | call hrule hbody depth s =>
    refine (ensures_callRule_succ rules depth _).mpr ?_
    rw [hrule]
    dsimp only
    unfold Rule.evalBody
    rw [hbody]
    exact hpassed

/-- What fails at the end of a trial that failed lies no further on than the whole. -/
theorem Tries.mismatch_le (h : Tries rules trial next)
    (hs : trial.start.cursor.pos ≤ trial.start.cursor.input.length) {x y : Mismatch}
    (hx : trial.FailsWith rules x) (hy : next.FailsWith rules y) : y.pos ≤ x.pos := by
  obtain ⟨t, hrun⟩ := hx
  obtain ⟨u, hnext⟩ := hy
  have hfails : Ensures (next.matcher rules) next.start (fun _ _ => False)
      (fun z _ => z = y) (fun _ => True) := by
    unfold Ensures
    rw [hnext]
  have hwhole : Ensures (trial.matcher rules) trial.start (fun _ _ => True)
      (fun z _ => y.pos ≤ z.pos) (fun _ => True) := by
    refine h.ensures hs (fun _ => False) (fun _ => True) (fun z _ => z = y)
      (fun z _ => y.pos ≤ z.pos) hfails ?_ ?_
    · intro _ _ hok _
      exact hok.elim
    · rintro _ _ _ rfl _
      exact ⟨trivial, fun _ hle => hle⟩
  exact hwhole.of_mismatch hrun

/-- The cursor gets at least as far in the whole trial as in one made for it. -/
theorem Tries.furthest_le (h : Tries rules trial next)
    (hs : trial.start.cursor.pos ≤ trial.start.cursor.input.length) {pos : Nat}
    (hnext : Ensures (next.matcher rules) next.start (fun _ t => pos ≤ t.cursor.furthest)
      (fun _ t => pos ≤ t.cursor.furthest) (fun _ => True)) :
    Ensures (trial.matcher rules) trial.start (fun _ t => pos ≤ t.cursor.furthest)
      (fun _ t => pos ≤ t.cursor.furthest) (fun _ => True) := by
  refine h.ensures hs (fun c => pos ≤ c.furthest) (fun c => pos ≤ c.furthest)
    (fun _ c => pos ≤ c.furthest) (fun _ c => pos ≤ c.furthest) hnext ?_ ?_
  · intro _ _ hpos hle
    exact ⟨Nat.le_trans hpos hle, fun _ => Nat.le_trans hpos hle⟩
  · intro _ _ _ hpos hle
    exact ⟨Nat.le_trans hpos hle, fun _ _ => Nat.le_trans hpos hle⟩

/-! ## All failures -/

theorem FailsAt.head {pos : Nat} (h : Tries rules trial next) (hfails : next.FailsAt rules pos) :
    trial.FailsAt rules pos := by
  obtain ⟨later, x, htries, hx, hpos⟩ := hfails
  exact ⟨later, x, .head h htries, hx, hpos⟩

theorem FailsWith.failsAt {x : Mismatch} (h : trial.FailsWith rules x) :
    trial.FailsAt rules x.pos :=
  ⟨trial, x, .refl, h, rfl⟩

/-- Wherever something fails, the cursor got there. -/
theorem FailsAt.ensures_le {pos : Nat} (h : trial.FailsAt rules pos)
    (hs : trial.start.cursor.pos ≤ trial.start.cursor.input.length) :
    Ensures (trial.matcher rules) trial.start (fun _ t => pos ≤ t.cursor.furthest)
      (fun _ t => pos ≤ t.cursor.furthest) (fun _ => True) := by
  obtain ⟨later, x, htries, ⟨u, hrun⟩, rfl⟩ := h
  induction htries using Relation.ReflTransGen.head_induction_on with
  | refl =>
    have hx := ((later.inBounds rules _ hs).of_mismatch hrun).2.le_furthest
    unfold Ensures
    rw [hrun]
    exact hx
  | head hstep _ ih => exact hstep.furthest_le hs (ih (hstep.advances hs).pos_le_input)

/-- What failed, and was tried for nothing but what failed, lies no further on than the
mismatch of the whole. -/
theorem KeepsFailureAt.le {pos : Nat} (h : trial.KeepsFailureAt rules pos)
    (hs : trial.start.cursor.pos ≤ trial.start.cursor.input.length) {x : Mismatch}
    (hx : trial.FailsWith rules x) : pos ≤ x.pos := by
  obtain ⟨later, y, htries, ⟨u, hrun⟩, rfl⟩ := h
  induction htries using Relation.ReflTransGen.head_induction_on generalizing x with
  | refl =>
    obtain ⟨t, hrun'⟩ := hx
    rw [hrun] at hrun'
    obtain ⟨hx, -⟩ := EStateM.Result.error.inj hrun'
    obtain rfl := Interrupt.mismatch.inj hx
    exact Nat.le_refl _
  | @head trial next hstep hrest ih =>
    obtain ⟨z, hz⟩ : ∃ z, next.FailsWith rules z := by
      rcases hrest.cases_head with rfl | ⟨after, hafter, -⟩
      · exact ⟨y, u, hrun⟩
      · exact hafter.1
    have hle := ih (hstep.2.advances hs).pos_le_input hz
    exact Nat.le_trans hle (hstep.2.mismatch_le hs hx hz)

end Trial

/-! ## The furthest position -/

/-- Whether an expression may match although what it tries does not, or fail where that
matches, without being a choice. -/
def Expr.catches : Expr → Bool
  | star _ | plus _ | optional _ | ahead _ | notAhead _ => true
  | _ => false

/-- Nothing but choices catches failures in the expression. -/
def Expr.Direct (e : Expr) : Prop :=
  ∀ d, Occurs d e → d.catches = false

instance (e : Expr) : Decidable e.Direct :=
  decidable_of_iff (∀ d ∈ e.postorder, d.catches = false)
    (forall_congr' fun _ => imp_congr_left Expr.mem_postorder_iff_occurs)

theorem Expr.Direct.part {e part : Expr} (h : e.Direct) (hpart : part ∈ e.children) :
    part.Direct :=
  fun d hd => h d (.inside hpart hd)

/-- All rules are expressions in which nothing but choices catches failures. -/
def DirectRules (rules : List Rule) : Prop :=
  ∀ rule ∈ rules, ∃ e ∈ rule.expr?, e.Direct

instance (rules : List Rule) : Decidable (DirectRules rules) :=
  inferInstanceAs (Decidable (∀ rule ∈ rules, ∃ e ∈ rule.expr?, e.Direct))

theorem Rule.expr?_eq_some_iff {rule : Rule} {e : Expr} :
    rule.expr? = some e ↔ rule.body = .expr e := by
  unfold expr?
  cases rule.body <;> simp

namespace Trial

/-- Since the trial began, the cursor got no further than where something failed. -/
def Covers (rules : List Rule) (trial : Trial) (c : Cursor) : Prop :=
  c.furthest = trial.start.cursor.furthest ∨ trial.FailsAt rules c.furthest

variable {rules : List Rule} {trial next : Trial}

/-- What a trial covers, the one that it is made for covers as well, if it covers all until
then. -/
theorem Covers.lift {c : Cursor} (h : next.Covers rules c) (htries : Tries rules trial next)
    (hcovers : trial.Covers rules next.start.cursor) : trial.Covers rules c := by
  rcases h with hsame | hfails
  · rwa [Covers, hsame]
  · exact Or.inr (hfails.head htries)

/-- A trial may also start where the cursor is furthest. Then there is nothing to cover where
the cursor gets no further. -/
theorem Covers.lift_or {c : Cursor} (h : next.Covers rules c) (htries : Tries rules trial next)
    (hstart : trial.Covers rules next.start.cursor ∨
      next.start.cursor.furthest = next.start.cursor.pos) :
    trial.Covers rules c ∨ c.furthest = next.start.cursor.pos := by
  rcases hstart with hcovers | hpos
  · exact Or.inl (h.lift htries hcovers)
  · rcases h with hsame | hfails
    · exact Or.inr (hsame.trans hpos)
    · exact Or.inl (Or.inr (hfails.head htries))

/-- When the trial ends, the cursor is where it was furthest, or it got no further than where
something failed; and no further than that where the trial itself fails. -/
def Tracked (rules : List Rule) (trial : Trial) : Prop :=
  Ensures (trial.matcher rules) trial.start
    (fun _ t => trial.Covers rules t.cursor ∨ t.cursor.furthest = t.cursor.pos)
    (fun _ t => trial.Covers rules t.cursor) (fun _ => True)

theorem tracked_terminal {depth : Nat} {e : Expr} {s : MatchState} {width? : Bytes → Option Nat}
    (he : e.eval (callRule rules depth) = terminal e width?) : (expr depth e s).Tracked rules := by
  unfold Tracked
  show Ensures (e.eval (callRule rules depth)) s _ _ _
  rw [he, ensures_terminal]
  split
  · next span after htake =>
    obtain ⟨size, -, heq⟩ := Option.map_eq_some_iff.mp htake
    obtain ⟨-, rfl⟩ := Prod.mk.inj heq
    rw [Cursor.furthest_advance, Cursor.advance_pos]
    rcases Nat.le_total s.cursor.furthest (s.cursor.pos + size) with hle | hle
    · exact Or.inr (Nat.max_eq_right hle)
    · exact Or.inl (Or.inl ((s.cursor.furthest_advance size).trans (Nat.max_eq_left hle)))
  · exact Or.inl rfl

/-- What is made for a trial, from where it starts, has the same end. -/
theorem Tracked.lift (h : next.Tracked rules) (htries : Tries rules trial next)
    (hstart : next.start.cursor = trial.start.cursor) :
    Ensures (next.matcher rules) next.start
      (fun _ t => trial.Covers rules t.cursor ∨ t.cursor.furthest = t.cursor.pos)
      (fun _ t => trial.Covers rules t.cursor) (fun _ => True) := by
  have hcovers : trial.Covers rules next.start.cursor := Or.inl (congrArg _ hstart)
  refine Ensures.mono h (fun _ t ht => ?_) (fun _ t ht => ht.lift htries hcovers)
  exact ht.imp_left fun hc => hc.lift htries hcovers

theorem tracked_wrapped {depth : Nat} {e body : Expr} (hbody : e.wrapped? = some body)
    {s : MatchState} (h : (expr depth body s).Tracked rules) : (expr depth e s).Tracked rules :=
  Expr.ensures_wrapped hbody
    (fun c => (expr depth e s).Covers rules c ∨ c.furthest = c.pos)
    (fun _ c => (expr depth e s).Covers rules c) (fun _ => trivial)
    (h.lift (.body hbody depth s) rfl)

section Lists

variable {depth : Nat} {es before after : List Expr} {s t : MatchState}

/-- The parts of a sequence, each from where the one before it ended. -/
theorem parts_tracked (hs : s.cursor.pos ≤ s.cursor.input.length)
    (hes : ∀ e ∈ es, ∀ t : MatchState, t.cursor.pos ≤ t.cursor.input.length →
      (expr depth e t).Tracked rules)
    (hsplit : before ++ after = es) {values : List Value}
    (hbefore : EStateM.run (Expr.evalParts (callRule rules depth) before) s = .ok values t)
    (ht : (expr depth (.seq es) s).Covers rules t.cursor ∨ t.cursor.furthest = t.cursor.pos) :
    Ensures (Expr.evalParts (callRule rules depth) after) t
      (fun _ u => (expr depth (.seq es) s).Covers rules u.cursor ∨
        u.cursor.furthest = u.cursor.pos)
      (fun _ u => (expr depth (.seq es) s).Covers rules u.cursor) (fun _ => True) := by
  induction after generalizing before values t with
  | nil => exact ht
  | cons e after ih =>
    subst hsplit
    have htries : Tries rules (expr depth (.seq (before ++ e :: after)) s) (expr depth e t) :=
      .part hbefore e after
    have hvalid := (htries.advances hs).pos_le_input
    have hpart := hes e (by simp) t hvalid
    have hbounds := (expr depth e t).inBounds rules t hvalid
    rw [Expr.ensures_evalParts_cons]
    refine ((Ensures.also hpart hbounds).also (Ensures.run_eq _ t)).mono ?_ ?_
    · rintro value u ⟨⟨hu, hadvances⟩, hrun⟩
      obtain ⟨values', hbefore'⟩ := Expr.run_evalParts_snoc hbefore hrun
      refine ih (by simp) hbefore' ?_
      rcases hu with hcovers | hpos
      · refine (hcovers.lift_or htries ht).imp_right fun hstart => ?_
        exact Nat.le_antisymm (Nat.le_trans (Nat.le_of_eq hstart) hadvances.pos_le)
          u.cursor.pos_le_furthest
      · exact Or.inr hpos
    · rintro x u ⟨⟨hu, -, hx⟩, hrun⟩
      rcases hu.lift_or htries ht with hcovers | hstart
      · exact hcovers
      · have hfails : (expr depth e t).FailsWith rules x := ⟨u, hrun⟩
        have hpos : x.pos = u.cursor.furthest :=
          Nat.le_antisymm hx.le_furthest (Nat.le_trans (Nat.le_of_eq hstart) hx.start_le)
        exact Or.inr (hpos ▸ hfails.failsAt.head htries)

/-- The alternatives of a choice, each from where the choice began. -/
theorem alternatives_tracked (hs : s.cursor.pos ≤ s.cursor.input.length)
    (hes : ∀ e ∈ es, ∀ t : MatchState, t.cursor.pos ≤ t.cursor.input.length →
      (expr depth e t).Tracked rules)
    (hsplit : before ++ after = es) {x : Mismatch}
    (hbefore : EStateM.run ((Expr.choice before).eval (callRule rules depth)) s =
      .error (.mismatch x) t)
    (ht : (expr depth (.choice es) s).Covers rules t.cursor) {empty : Mismatch}
    {best : Option Mismatch} :
    Ensures (firstOf empty best (Expr.evalEach (callRule rules depth) after)) t
      (fun _ u => (expr depth (.choice es) s).Covers rules u.cursor ∨
        u.cursor.furthest = u.cursor.pos)
      (fun _ u => (expr depth (.choice es) s).Covers rules u.cursor) (fun _ => True) := by
  induction after generalizing before t x best with
  | nil => exact ht
  | cons e after ih =>
    subst hsplit
    have htries : Tries rules (expr depth (.choice (before ++ e :: after)) s) (expr depth e t) :=
      .alternative hbefore e after
    have hvalid := (htries.advances hs).pos_le_input
    have halternative := hes e (by simp) t hvalid
    have hbounds := (expr depth e t).inBounds rules t hvalid
    rw [Expr.evalEach, ensures_firstOf_cons]
    refine ((Ensures.also halternative hbounds).also (Ensures.run_eq _ t)).mono ?_ ?_
    · rintro value u ⟨⟨hu, -⟩, -⟩
      exact hu.imp_left fun hcovers => hcovers.lift htries ht
    · rintro y u ⟨⟨hu, hadvances, -⟩, hrun⟩
      obtain ⟨z, hbefore'⟩ := Expr.run_choice_snoc hbefore hrun
      have hback : (u.cursor.jump t.cursor.pos).furthest = u.cursor.furthest := by
        have hle := hadvances.furthest_le
        have hpos := hadvances.pos_le
        rw [Cursor.furthest_jump]
        omega
      refine ih (by simp) hbefore' ?_
      rw [Covers, MatchState.backAt, hback]
      exact hu.lift htries ht

end Lists

variable {depth : Nat}

/-- The cursor is tracked through an expression, if it is through the calls that are made. -/
theorem expr_tracked
    (hcall : ∀ handle (s : MatchState), s.cursor.pos ≤ s.cursor.input.length →
      (call depth handle s).Tracked rules)
    {e : Expr} (he : e.Direct) {s : MatchState} (hs : s.cursor.pos ≤ s.cursor.input.length) :
    (expr depth e s).Tracked rules := by
  induction e using Expr.parts_induction generalizing s with
  | literal l => exact tracked_terminal rfl
  | charClass cls => exact tracked_terminal rfl
  | anyChar => exact tracked_terminal rfl
  | seq es ih =>
    refine (Expr.ensures_seq es).mpr ?_
    exact parts_tracked hs (fun e hmem t ht => ih e hmem (he.part hmem) ht) (List.nil_append es)
      rfl (Or.inl (Or.inl rfl))
  | choice es ih =>
    refine (Expr.ensures_choice es).mpr ?_
    exact alternatives_tracked hs (fun e hmem t ht => ih e hmem (he.part hmem) ht)
      (List.nil_append es) rfl (Or.inl rfl)
  | star e | plus e | optional e | ahead e | notAhead e => cases he _ .self
  | discard e ih | label _ e ih | action e _ ih | slice e ih | concat e ih =>
    exact tracked_wrapped rfl (ih (he.part List.mem_cons_self) hs)
  | rule ref =>
    refine (Expr.ensures_rule ref).mpr ?_
    cases href : ref.handle? with
    | none => trivial
    | some handle => exact (hcall handle s hs).lift (.rule href depth s) rfl

theorem call_tracked (hrules : DirectRules rules) {handle : Nat} {s : MatchState}
    (hs : s.cursor.pos ≤ s.cursor.input.length) : (call depth handle s).Tracked rules := by
  induction depth generalizing handle s with
  | zero => exact trivial
  | succ depth ih =>
    refine (ensures_callRule_succ rules depth handle).mpr ?_
    cases hrule : rules[handle]? with
    | none => trivial
    | some rule =>
      obtain ⟨e, hexpr, he⟩ := hrules rule (List.mem_of_getElem? hrule)
      have hbody := Rule.expr?_eq_some_iff.mp hexpr
      dsimp only
      unfold Rule.evalBody
      rw [hbody]
      have htries : Tries rules (call (depth + 1) handle s) _ := .call hrule hbody depth s
      exact (expr_tracked (fun _ _ => ih) he (htries.advances hs).pos_le_input).lift htries rfl

end Trial

/-! ## The failure that is reported -/

theorem Trial.KeepsFailureAt.failsAt {rules : List Rule} {trial : Trial} {pos : Nat}
    (h : trial.KeepsFailureAt rules pos) : trial.FailsAt rules pos := by
  obtain ⟨later, x, htries, hx, hpos⟩ := h
  exact ⟨later, x, Relation.ReflTransGen.mono (fun _ _ hstep => hstep.2) _ _ htries, hx, hpos⟩

/-- A parse with a fresh cursor fails, in a grammar in which nothing but choices catches
failures. Then the furthest position of the cursor is the furthest at which anything that was
tried failed. The mismatch that is reported is the furthest among those that were tried for
nothing but what failed as well. It is the furthest of all just if among the furthest there is
one that was not given up for an alternative that matched. -/
theorem reported_failure_is_furthest_kept {grammar : Grammar}
    (hrules : DirectRules grammar.rules) {cursor : Cursor}
    (hpos : cursor.pos ≤ cursor.input.length) (hfresh : cursor.furthest = cursor.pos)
    {handle : Nat} {x : Mismatch}
    (hfail : (grammar.parseHandle handle cursor).outcome = .error (.mismatch x)) :
    let root := Trial.call (grammar.callDepth cursor) handle ⟨cursor, .empty, #[]⟩
    let furthest := (grammar.parseHandle handle cursor).cursor.furthest
    IsGreatest {pos | root.FailsAt grammar.rules pos} furthest ∧
    IsGreatest {pos | root.KeepsFailureAt grammar.rules pos} x.pos ∧
    (x.pos = furthest ↔ root.KeepsFailureAt grammar.rules furthest) := by
  intro root furthest
  obtain ⟨t, hrun, hend⟩ : ∃ t, EStateM.run (root.matcher grammar.rules) root.start =
      .error (.mismatch x) t ∧ furthest = t.cursor.furthest := by
    have hrunOn : grammar.parseHandle handle cursor =
        (root.matcher grammar.rules).runOn cursor := rfl
    dsimp only [furthest]
    rw [hrunOn, runOn] at hfail ⊢
    split at hfail
    · cases hfail
    · next interrupt t hrun =>
      obtain rfl := Except.error.inj hfail
      exact ⟨t, hrun, rfl⟩
  have hx : root.FailsWith grammar.rules x := ⟨t, hrun⟩
  have hwithin := ((root.inBounds grammar.rules root.start hpos).of_mismatch hrun).2
  have hbound : ∀ pos, root.FailsAt grammar.rules pos → pos ≤ furthest := by
    intro pos hfails
    rw [hend]
    exact (hfails.ensures_le hpos).of_mismatch hrun
  have hkept : IsGreatest {pos | root.KeepsFailureAt grammar.rules pos} x.pos :=
    ⟨⟨root, x, .refl, hx, rfl⟩, fun pos hkeeps => hkeeps.le hpos hx⟩
  refine ⟨⟨?_, hbound⟩, hkept, ?_⟩
  · have hcovers : root.Covers grammar.rules t.cursor :=
      Ensures.of_mismatch (Trial.call_tracked hrules hpos) hrun
    show root.FailsAt grammar.rules furthest
    rw [hend]
    rcases hcovers with hsame | hfails
    · -- The cursor never left its start, so that is where the whole failed.
      have hstart : t.cursor.furthest = cursor.pos := hsame.trans hfresh
      have hwhole : x.pos = t.cursor.furthest :=
        Nat.le_antisymm hwithin.le_furthest (Nat.le_trans (Nat.le_of_eq hstart) hwithin.start_le)
      exact hwhole ▸ hx.failsAt
    · exact hfails
  · constructor
    · intro hsame
      exact hsame ▸ hkept.1
    · intro hkeeps
      exact Nat.le_antisymm (hbound _ hkept.1.failsAt) (hkept.2 hkeeps)

/-- The alternative that gets furthest is in a choice at the end, where it is kept. -/
theorem reported_failure_is_furthest_kept_at_end :
    let a : Expr := .literal (.exact [0x61])
    let b : Expr := .literal (.exact [0x62])
    let c : Expr := .literal (.exact [0x63])
    let grammar : Grammar :=
      ⟨none, [⟨"A", .plain, .expr (.seq [a, .choice [.rule ⟨"B", some 1⟩, c]])⟩,
        ⟨"B", .plain, .expr (.slice (.seq [b, c]))⟩], 0, by decide⟩
    let cursor : Cursor := .start (Utf8.encode "abx")
    let root := Trial.call (grammar.callDepth cursor) 0 ⟨cursor, .empty, #[]⟩
    ∃ x, (grammar.parse cursor).outcome = .error (.mismatch x) ∧ x.pos = 2 ∧
      (grammar.parse cursor).cursor.furthest = 2 ∧ root.KeepsFailureAt grammar.rules 2 := by
  intro a b c grammar cursor root
  have hrules : DirectRules grammar.rules := by decide
  have hfail : (grammar.parse cursor).outcome = .error (.mismatch ⟨c, 2⟩) := by
    rfl
  have hstart : cursor.pos ≤ cursor.input.length := by decide
  have hfresh : cursor.furthest = cursor.pos := rfl
  have hfurthest : (grammar.parse cursor).cursor.furthest = 2 := by decide
  have hreport := reported_failure_is_furthest_kept hrules hstart hfresh hfail
  have hkept := hreport.2.2.mp hfurthest.symm
  rw [← hfurthest]
  exact ⟨⟨c, 2⟩, hfail, hfurthest.symm, rfl, hkept⟩

/-- The alternative that gets furthest is given up for one that matches: the mismatch that is
reported lies before the furthest position of the cursor, where something that was tried
failed. -/
theorem furthest_failure_given_up :
    let ab : Expr := .literal (.exact [0x61, 0x62])
    let a : Expr := .literal (.exact [0x61])
    let c : Expr := .literal (.exact [0x63])
    let d : Expr := .literal (.exact [0x64])
    let grammar : Grammar :=
      ⟨none, [⟨"A", .plain, .expr (.seq [.choice [.seq [ab, c], a], d])⟩], 0, by decide⟩
    let cursor : Cursor := .start (Utf8.encode "abx")
    let root := Trial.call (grammar.callDepth cursor) 0 ⟨cursor, .empty, #[]⟩
    DirectRules grammar.rules ∧ (grammar.parse cursor).outcome = .error (.mismatch ⟨d, 1⟩) ∧
      (grammar.parse cursor).cursor.furthest = 2 ∧ root.FailsAt grammar.rules 2 := by
  intro ab a c d grammar cursor root
  let s : MatchState := ⟨cursor, .empty, #[.entered "A" 0]⟩
  let t : MatchState := ⟨cursor.advance 2, .empty, #[.entered "A" 0]⟩
  have hbody : root.Tries grammar.rules (.expr 4 (.seq [.choice [.seq [ab, c], a], d]) s) :=
    @Trial.Tries.call grammar.rules 0 ⟨"A", .plain, .expr (.seq [.choice [.seq [ab, c], a], d])⟩ _
      rfl rfl 4 ⟨cursor, .empty, #[]⟩
  have hchoice : Trial.Tries grammar.rules (.expr 4 (.seq [.choice [.seq [ab, c], a], d]) s)
      (.expr 4 (.choice [.seq [ab, c], a]) s) :=
    @Trial.Tries.part grammar.rules 4 [] s s [] rfl _ [d]
  have hlonger : Trial.Tries grammar.rules (.expr 4 (.choice [.seq [ab, c], a]) s)
      (.expr 4 (.seq [ab, c]) s) :=
    @Trial.Tries.alternative grammar.rules 4 [] s s ⟨.choice [], 0⟩ rfl _ [a]
  have hlast : Trial.Tries grammar.rules (.expr 4 (.seq [ab, c]) s) (.expr 4 c t) :=
    @Trial.Tries.part grammar.rules 4 [ab] s t [.token ⟨0, 2, by decide⟩] rfl _ []
  have hfails : (Trial.expr 4 c t).FailsWith grammar.rules ⟨c, 2⟩ := ⟨t, rfl⟩
  refine ⟨by decide, rfl, by decide, ?_⟩
  exact (((hfails.failsAt.head hlast).head hlonger).head hchoice).head hbody

end Peg
