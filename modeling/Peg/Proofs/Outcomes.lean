import Peg.Proofs.Matcher.Agreement
import Peg.Proofs.Matcher.Bounds

/-!
Where matching ends. On one input, what becomes of an expression is a relation between the
position where it is tried and the position where it ends, if it matches at all. The relation
is put together from those of the parts, without cursors, names and values; calls of rules are
taken as they come, whatever the rules are made of. The runs of the evaluator keep to it.
-/

namespace Peg

/-- What may become of a match: from a position it ends at a position, or it fails. -/
abbrev Outcomes := Nat → Option Nat → Prop

namespace Outcomes

/-! ## Ways of putting outcomes together -/

/-- As many bytes as there are to take. -/
def taking (input : Bytes) (width? : Bytes → Option Nat) : Outcomes :=
  fun pos stop? => stop? = (width? (input.drop pos)).map (pos + ·)

/-- One after another, up to the first that fails. -/
def inTurn : List Outcomes → Outcomes
  | [] => fun pos stop? => stop? = some pos
  | R :: Rs => fun pos stop? =>
    (R pos none ∧ stop? = none) ∨ ∃ mid, R pos (some mid) ∧ inTurn Rs mid stop?

/-- The first that does not fail. -/
def firstOf : List Outcomes → Outcomes
  | [] => fun _ stop? => stop? = none
  | R :: Rs => fun pos stop? =>
    (∃ stop, R pos (some stop) ∧ stop? = some stop) ∨ R pos none ∧ firstOf Rs pos stop?

/-- Again and again, up to the first time that fails or stays where it is. -/
inductive Repeated (R : Outcomes) : Nat → Nat → Prop
  | fail {pos : Nat} (h : R pos none) : Repeated R pos pos
  | idle {pos : Nat} (h : R pos (some pos)) : Repeated R pos pos
  | step {pos mid stop : Nat} (h : R pos (some mid)) (hne : mid ≠ pos)
    (hagain : Repeated R mid stop) : Repeated R pos stop

def star (R : Outcomes) : Outcomes :=
  fun pos stop? => ∃ stop, R.Repeated pos stop ∧ stop? = some stop

def plus (R : Outcomes) : Outcomes :=
  inTurn [R, R.star]

def optional (R : Outcomes) : Outcomes :=
  firstOf [R, inTurn []]

def ahead (R : Outcomes) : Outcomes :=
  fun pos stop? => (R pos none ∧ stop? = none) ∨ ∃ mid, R pos (some mid) ∧ stop? = some pos

def notAhead (R : Outcomes) : Outcomes :=
  fun pos stop? => (R pos none ∧ stop? = some pos) ∨ ∃ mid, R pos (some mid) ∧ stop? = none

theorem inTurn_singleton (R : Outcomes) : inTurn [R] = R := by
  funext pos stop?
  apply propext
  constructor
  · rintro (⟨hfail, rfl⟩ | ⟨mid, hmid, rfl⟩)
    · exact hfail
    · exact hmid
  · intro h
    cases stop? with
    | none => exact Or.inl ⟨h, rfl⟩
    | some stop => exact Or.inr ⟨stop, h, rfl⟩

theorem firstOf_singleton (R : Outcomes) : firstOf [R] = R := by
  funext pos stop?
  apply propext
  constructor
  · rintro (⟨stop, hstop, rfl⟩ | ⟨hfail, rfl⟩)
    · exact hstop
    · exact hfail
  · intro h
    cases stop? with
    | none => exact Or.inr ⟨h, rfl⟩
    | some stop => exact Or.inl ⟨stop, h, rfl⟩

theorem inTurn_pair_iff {R R' : Outcomes} {pos : Nat} {stop? : Option Nat} :
    inTurn [R, R'] pos stop? ↔
      (R pos none ∧ stop? = none) ∨ ∃ mid, R pos (some mid) ∧ R' mid stop? := by
  rw [inTurn, inTurn_singleton]

theorem firstOf_pair_iff {R R' : Outcomes} {pos : Nat} {stop? : Option Nat} :
    firstOf [R, R'] pos stop? ↔
      (∃ stop, R pos (some stop) ∧ stop? = some stop) ∨ R pos none ∧ R' pos stop? := by
  rw [firstOf, firstOf_singleton]

theorem plus_iff {R : Outcomes} {pos : Nat} {stop? : Option Nat} :
    R.plus pos stop? ↔
      (R pos none ∧ stop? = none) ∨ ∃ mid, R pos (some mid) ∧ R.star mid stop? :=
  inTurn_pair_iff

theorem optional_iff {R : Outcomes} {pos : Nat} {stop? : Option Nat} :
    R.optional pos stop? ↔
      (∃ stop, R pos (some stop) ∧ stop? = some stop) ∨ R pos none ∧ stop? = some pos :=
  firstOf_pair_iff

/-! ## Outcomes that never differ -/

/-- From one position the two do not come to different ends. -/
def Compatible (R R' : Outcomes) : Prop :=
  ∀ pos stop? stop?', R pos stop? → R' pos stop?' → stop? = stop?'

namespace Compatible

variable {R R' : Outcomes} {Rs Rs' : List Outcomes}

theorem taking (input : Bytes) (width? : Bytes → Option Nat) :
    Compatible (taking input width?) (taking input width?) := by
  rintro pos _ _ rfl rfl
  rfl

theorem inTurn (h : List.Forall₂ Compatible Rs Rs') : Compatible (inTurn Rs) (inTurn Rs') := by
  induction h with
  | nil =>
    rintro pos _ _ rfl rfl
    rfl
  | cons hhead _ ih =>
    rintro pos stop? stop?' (⟨hfail, rfl⟩ | ⟨mid, hmid, hrest⟩)
      (⟨hfail', rfl⟩ | ⟨mid', hmid', hrest'⟩)
    · rfl
    · cases hhead pos _ _ hfail hmid'
    · cases hhead pos _ _ hmid hfail'
    · obtain rfl := Option.some.inj (hhead pos _ _ hmid hmid')
      exact ih mid _ _ hrest hrest'

theorem firstOf (h : List.Forall₂ Compatible Rs Rs') :
    Compatible (firstOf Rs) (firstOf Rs') := by
  induction h with
  | nil =>
    rintro pos _ _ rfl rfl
    rfl
  | cons hhead _ ih =>
    rintro pos stop? stop?' (⟨stop, hstop, rfl⟩ | ⟨hfail, hrest⟩)
      (⟨stop', hstop', rfl⟩ | ⟨hfail', hrest'⟩)
    · exact hhead pos _ _ hstop hstop'
    · cases hhead pos _ _ hstop hfail'
    · cases hhead pos _ _ hfail hstop'
    · exact ih pos _ _ hrest hrest'

theorem repeated (h : Compatible R R') {pos stop stop' : Nat} (hstop : R.Repeated pos stop)
    (hstop' : R'.Repeated pos stop') : stop = stop' := by
  induction hstop with
  | fail hfail =>
    cases hstop' with
    | fail | idle => rfl
    | step hmid _ _ => cases h _ _ _ hfail hmid
  | idle hidle =>
    cases hstop' with
    | fail | idle => rfl
    | step hmid hne _ => exact absurd (Option.some.inj (h _ _ _ hidle hmid)).symm hne
  | step hmid hne _ ih =>
    cases hstop' with
    | fail hfail => cases h _ _ _ hmid hfail
    | idle hidle => exact absurd (Option.some.inj (h _ _ _ hmid hidle)) hne
    | step hmid' _ hagain' =>
      obtain rfl := Option.some.inj (h _ _ _ hmid hmid')
      exact ih hagain'

theorem star (h : Compatible R R') : Compatible R.star R'.star := by
  rintro pos _ _ ⟨stop, hstop, rfl⟩ ⟨stop', hstop', rfl⟩
  exact congrArg some (h.repeated hstop hstop')

theorem plus (h : Compatible R R') : Compatible R.plus R'.plus :=
  inTurn (.cons h (.cons h.star .nil))

theorem optional (h : Compatible R R') : Compatible R.optional R'.optional :=
  firstOf (.cons h (.cons (inTurn .nil) .nil))

theorem ahead (h : Compatible R R') : Compatible R.ahead R'.ahead := by
  rintro pos stop? stop?' (⟨hfail, rfl⟩ | ⟨mid, hmid, rfl⟩) (⟨hfail', rfl⟩ | ⟨mid', hmid', rfl⟩)
  · rfl
  · cases h pos _ _ hfail hmid'
  · cases h pos _ _ hmid hfail'
  · rfl

theorem notAhead (h : Compatible R R') : Compatible R.notAhead R'.notAhead := by
  rintro pos stop? stop?' (⟨hfail, rfl⟩ | ⟨mid, hmid, rfl⟩) (⟨hfail', rfl⟩ | ⟨mid', hmid', rfl⟩)
  · rfl
  · cases h pos _ _ hfail hmid'
  · cases h pos _ _ hmid hfail'
  · rfl

end Compatible

/-! ## Outcomes that take nothing -/

/-- A match ends where it began. -/
def Stays (R : Outcomes) : Prop :=
  ∀ pos, ∀ stop? : Option Nat, R pos stop? → ∀ stop ∈ stop?, stop = pos

section Stays

variable {R : Outcomes}

theorem Stays.stop?_eq (h : R.Stays) {pos : Nat} {stop? : Option Nat} (hstop : R pos stop?) :
    stop? = if stop?.isSome then some pos else none := by
  cases stop? with
  | none => rfl
  | some stop => exact congrArg some (h pos _ hstop stop rfl)

theorem ahead_stays (R : Outcomes) : R.ahead.Stays := by
  rintro pos _ (⟨-, rfl⟩ | ⟨-, -, rfl⟩) stop hstop
  · cases hstop
  · exact (Option.some.inj hstop).symm

theorem notAhead_stays (R : Outcomes) : R.notAhead.Stays := by
  rintro pos _ (⟨-, rfl⟩ | ⟨-, -, rfl⟩) stop hstop
  · exact (Option.some.inj hstop).symm
  · cases hstop

theorem Stays.repeated (h : R.Stays) {pos stop : Nat} (hstop : R.Repeated pos stop) :
    stop = pos := by
  induction hstop with
  | fail | idle => rfl
  | step hmid _ _ ih => exact ih.trans (h _ _ hmid _ rfl)

theorem Stays.star (h : R.Stays) : R.star.Stays := by
  rintro pos _ ⟨stop, hrepeated, rfl⟩ stop' hstop'
  exact (Option.some.inj hstop').symm.trans (h.repeated hrepeated)

theorem Stays.plus (h : R.Stays) : R.plus.Stays := by
  intro pos stop? hplus stop hstop
  rcases plus_iff.mp hplus with ⟨-, rfl⟩ | ⟨mid, hmid, hstar⟩
  · cases hstop
  · exact (h.star mid stop? hstar stop hstop).trans (h pos _ hmid mid rfl)

theorem Stays.optional (h : R.Stays) : R.optional.Stays := by
  intro pos stop? hoptional stop hstop
  rcases optional_iff.mp hoptional with ⟨mid, hmid, rfl⟩ | ⟨-, rfl⟩
  · exact h pos _ hmid stop hstop
  · exact (Option.some.inj hstop).symm

end Stays

end Outcomes

/-! ## Outcomes of expressions -/

mutual
/-- What may become of an expression on an input, if this is what becomes of calls. -/
def Expr.outcomes (calls : Nat → Outcomes) (input : Bytes) : Expr → Outcomes
  | .literal l => .taking input l.width?
  | .charClass c => .taking input c.width?
  | .anyChar => .taking input fun rest => (Utf8.first? rest).map Utf8.Segment.size
  | .seq es => .inTurn (outcomesOfAll calls input es)
  | .choice es => .firstOf (outcomesOfAll calls input es)
  | .star e => (e.outcomes calls input).star
  | .plus e => (e.outcomes calls input).plus
  | .optional e => (e.outcomes calls input).optional
  | .ahead e => (e.outcomes calls input).ahead
  | .notAhead e => (e.outcomes calls input).notAhead
  | .discard e | .label _ e | .action e _ | .slice e | .concat e => e.outcomes calls input
  | .rule ref => fun pos stop? => ∃ handle, ref.handle? = some handle ∧ calls handle pos stop?

/-- Those of each expression. -/
def Expr.outcomesOfAll (calls : Nat → Outcomes) (input : Bytes) : List Expr → List Outcomes
  | [] => []
  | e :: es => e.outcomes calls input :: outcomesOfAll calls input es
end

theorem Expr.outcomesOfAll_eq_map (calls : Nat → Outcomes) (input : Bytes) (es : List Expr) :
    outcomesOfAll calls input es = es.map (outcomes calls input) := by
  induction es with
  | nil => rfl
  | cons e es ih => rw [outcomesOfAll, ih, List.map_cons]

/-- If calls come to one end only, so does every expression. -/
theorem Expr.outcomes_compatible {calls : Nat → Outcomes}
    (hcalls : ∀ handle, (calls handle).Compatible (calls handle)) (input : Bytes) (e : Expr) :
    (e.outcomes calls input).Compatible (e.outcomes calls input) := by
  have hall {es : List Expr}
      (h : ∀ e ∈ es, (e.outcomes calls input).Compatible (e.outcomes calls input)) :
      List.Forall₂ Outcomes.Compatible (outcomesOfAll calls input es)
        (outcomesOfAll calls input es) := by
    rw [outcomesOfAll_eq_map, List.forall₂_map_left_iff, List.forall₂_map_right_iff,
      List.forall₂_same]
    exact h
  induction e using Expr.parts_induction with
  | literal l => exact .taking input l.width?
  | charClass c => exact .taking input c.width?
  | anyChar => exact .taking input _
  | seq es ih => exact .inTurn (hall ih)
  | choice es ih => exact .firstOf (hall ih)
  | star e ih => exact ih.star
  | plus e ih => exact ih.plus
  | optional e ih => exact ih.optional
  | ahead e ih => exact ih.ahead
  | notAhead e ih => exact ih.notAhead
  | discard e ih | label _ e ih | action e _ ih | slice e ih | concat e ih => exact ih
  | rule ref =>
    rintro pos stop? stop?' ⟨handle, hhandle, h⟩ ⟨handle', hhandle', h'⟩
    obtain rfl := Option.some.inj (hhandle.symm.trans hhandle')
    exact hcalls handle pos _ _ h h'

namespace Matcher

/-- The runs of a matcher on an input end as the outcomes say. -/
def Yields (input : Bytes) (m : Matcher Value) (R : Outcomes) : Prop :=
  ∀ s : MatchState, s.cursor.input = input → s.cursor.pos ≤ input.length →
    Ensures m s (fun _ t => s.cursor.Advances t.cursor ∧ R s.cursor.pos (some t.cursor.pos))
      (fun _ t => s.cursor.Advances t.cursor ∧ R s.cursor.pos none) (fun _ => True)

end Matcher

section Runs

open Matcher

variable {calls : Nat → Outcomes} {input : Bytes} {call : Nat → Matcher Value} {e : Expr}
  {s t : MatchState}

/-- After an advance there is still no more than the input. -/
theorem Cursor.Advances.stays_in {a b : Cursor} (h : a.Advances b) (hinput : a.input = input) :
    b.input = input ∧ b.pos ≤ input.length :=
  ⟨h.input_eq.trans hinput, hinput ▸ h.pos_le_length⟩

theorem terminal_yields {width? : Bytes → Option Nat}
    (hwidth : ∀ rest size, width? rest = some size → size ≤ rest.length) :
    Yields input (terminal e width?) (.taking input width?) := by
  rintro s rfl hs
  rw [ensures_terminal]
  unfold Outcomes.taking
  cases hsize : width? s.cursor.remaining with
  | none =>
    rw [Cursor.take?, hsize]
    rw [Cursor.remaining] at hsize
    rw [hsize]
    exact ⟨Cursor.Advances.refl hs, rfl⟩
  | some size =>
    have htake : s.cursor.take? width? = some (⟨s.cursor.pos, s.cursor.pos + size, by omega⟩,
        s.cursor.advance size) := by
      rw [Cursor.take?, hsize]
      rfl
    rw [htake]
    rw [Cursor.remaining] at hsize
    rw [hsize]
    exact ⟨Cursor.advances_of_take? hwidth hs htake, rfl⟩

theorem evalParts_yields {es : List Expr}
    (hes : ∀ e ∈ es, Yields input (e.eval call) (e.outcomes calls input))
    (hinput : s.cursor.input = input) (hs : s.cursor.pos ≤ input.length) :
    Ensures (Expr.evalParts call es) s
      (fun _ t => s.cursor.Advances t.cursor ∧
        Outcomes.inTurn (Expr.outcomesOfAll calls input es) s.cursor.pos (some t.cursor.pos))
      (fun _ t => s.cursor.Advances t.cursor ∧
        Outcomes.inTurn (Expr.outcomesOfAll calls input es) s.cursor.pos none)
      (fun _ => True) := by
  induction es generalizing s with
  | nil => exact ⟨Cursor.Advances.refl (hinput ▸ hs), rfl⟩
  | cons e es ih =>
    rw [Expr.ensures_evalParts_cons]
    apply (hes e List.mem_cons_self s hinput hs).mono
    · intro value t ht
      obtain ⟨hinput', ht'⟩ := ht.1.stays_in hinput
      apply (ih (fun e he => hes e (List.mem_cons_of_mem _ he)) hinput' ht').mono
      · exact fun values u hu => ⟨ht.1.trans hu.1, Or.inr ⟨_, ht.2, hu.2⟩⟩
      · exact fun x u hu => ⟨ht.1.trans hu.1, Or.inr ⟨_, ht.2, hu.2⟩⟩
    · exact fun x t ht => ⟨ht.1, Or.inl ⟨ht.2, rfl⟩⟩

theorem firstOf_yields {es : List Expr}
    (hes : ∀ e ∈ es, Yields input (e.eval call) (e.outcomes calls input))
    {empty : Mismatch} {best : Option Mismatch} (hinput : s.cursor.input = input)
    (hs : s.cursor.pos ≤ input.length) :
    Ensures (firstOf empty best (Expr.evalEach call es)) s
      (fun _ t => s.cursor.Advances t.cursor ∧
        Outcomes.firstOf (Expr.outcomesOfAll calls input es) s.cursor.pos (some t.cursor.pos))
      (fun _ t => s.cursor.Advances t.cursor ∧
        Outcomes.firstOf (Expr.outcomesOfAll calls input es) s.cursor.pos none)
      (fun _ => True) := by
  induction es generalizing s best with
  | nil => exact ⟨Cursor.Advances.refl (hinput ▸ hs), rfl⟩
  | cons e es ih =>
    rw [Expr.evalEach, ensures_firstOf_cons]
    apply (hes e List.mem_cons_self s hinput hs).mono
    · exact fun value t ht => ⟨ht.1, Or.inl ⟨_, ht.2, rfl⟩⟩
    · intro x t ht
      have hback := ht.1.jump
      apply (ih (s := t.backAt s.cursor.pos) (fun e he => hes e (List.mem_cons_of_mem _ he))
        (hback.stays_in hinput).1 hs).mono
      · exact fun value u hu => ⟨hback.trans hu.1, Or.inr ⟨ht.2, hu.2⟩⟩
      · exact fun y u hu => ⟨hback.trans hu.1, Or.inr ⟨ht.2, hu.2⟩⟩

/-- A repetition does not fail. What is carried through the loop is that wherever it ends from
here, there it ends from the start. -/
theorem many_yields (he : Yields input (e.eval call) (e.outcomes calls input))
    {idle : Nat → Event} {values : List Value} (hinput : s.cursor.input = input)
    (hs : s.cursor.pos ≤ input.length) :
    Ensures (many idle (e.eval call) values) s
      (fun _ t => s.cursor.Advances t.cursor ∧
        (e.outcomes calls input).Repeated s.cursor.pos t.cursor.pos)
      (fun _ _ => False) (fun _ => True) := by
  apply Ensures.many (fun _ t => s.cursor.Advances t.cursor ∧
    ∀ stop, (e.outcomes calls input).Repeated t.cursor.pos stop →
      (e.outcomes calls input).Repeated s.cursor.pos stop)
  · intro values t ⟨hst, hagain⟩
    obtain ⟨hinput', ht⟩ := hst.stays_in hinput
    apply (he t hinput' ht).mono
    · intro value u hu
      split
      · next hless =>
        have hne : u.cursor.pos ≠ t.cursor.pos := hu.1.pos_ne_of_remaining_lt hless
        exact ⟨hst.trans hu.1, fun stop hstop => hagain stop (.step hu.2 hne hstop)⟩
      · next hidle =>
        have heq : u.cursor.pos = t.cursor.pos := hu.1.pos_eq_of_idle hidle
        refine ⟨hst.trans hu.1, hagain _ ?_⟩
        have hbody := hu.2
        rw [heq] at hbody ⊢
        exact .idle hbody
    · exact fun x u hu => ⟨hst.trans hu.1.jump, hagain _ (.fail hu.2)⟩
  · exact ⟨Cursor.Advances.refl (hinput ▸ hs), fun stop hstop => hstop⟩

theorem wrapped_yields {body : Expr} (he : e.wrapped? = some body)
    (hbody : Yields input (body.eval call) (body.outcomes calls input)) :
    Yields input (e.eval call) (e.outcomes calls input) := by
  have houtcomes : e.outcomes calls input = body.outcomes calls input := by
    cases e <;> cases he <;> rfl
  intro s hinput hs
  rw [houtcomes]
  exact Expr.ensures_wrapped he
    (fun c => s.cursor.Advances c ∧ body.outcomes calls input s.cursor.pos (some c.pos))
    (fun _ c => s.cursor.Advances c ∧ body.outcomes calls input s.cursor.pos none)
    (fun _ => trivial) (hbody s hinput hs)

/-- The runs of an expression end as its outcomes say, if calls do. -/
theorem eval_yields (hcall : ∀ handle, Yields input (call handle) (calls handle)) (e : Expr) :
    Yields input (e.eval call) (e.outcomes calls input) := by
  induction e using Expr.parts_induction with
  | literal l => exact terminal_yields fun _ _ => Literal.width?_le
  | charClass c => exact terminal_yields fun _ _ => CharClass.width?_le
  | anyChar => exact terminal_yields Expr.anyChar_size_le
  | seq es ih =>
    intro s hinput hs
    rw [Expr.ensures_seq]
    exact evalParts_yields ih hinput hs
  | choice es ih =>
    intro s hinput hs
    rw [Expr.ensures_choice]
    exact firstOf_yields ih hinput hs
  | star e ih =>
    intro s hinput hs
    rw [Expr.ensures_star]
    exact (many_yields ih hinput hs).imp_total fun values t ht => ⟨ht.1, _, ht.2, rfl⟩
  | plus e ih =>
    intro s hinput hs
    rw [Expr.ensures_plus]
    apply (ih s hinput hs).mono
    · intro first t ht
      split
      · obtain ⟨hinput', ht'⟩ := ht.1.stays_in hinput
        apply (many_yields ih hinput' ht').imp_total
        intro values u hu
        exact ⟨ht.1.trans hu.1, Outcomes.plus_iff.mpr (Or.inr ⟨_, ht.2, _, hu.2, rfl⟩)⟩
      · next hidle =>
        have heq : t.cursor.pos = s.cursor.pos := ht.1.pos_eq_of_idle hidle
        have hagain : (e.outcomes calls input).Repeated t.cursor.pos t.cursor.pos := by
          have hbody := ht.2
          rw [← heq] at hbody
          exact .idle hbody
        exact ⟨ht.1, Outcomes.plus_iff.mpr (Or.inr ⟨_, ht.2, _, hagain, rfl⟩)⟩
    · exact fun x t ht => ⟨ht.1, Outcomes.plus_iff.mpr (Or.inl ⟨ht.2, rfl⟩)⟩
  | optional e ih =>
    intro s hinput hs
    rw [Expr.ensures_optional]
    apply (ih s hinput hs).mono
    · exact fun value t ht => ⟨ht.1, Outcomes.optional_iff.mpr (Or.inl ⟨_, ht.2, rfl⟩)⟩
    · exact fun x t ht => ⟨ht.1.jump, Outcomes.optional_iff.mpr (Or.inr ⟨ht.2, rfl⟩)⟩
  | ahead e ih =>
    intro s hinput hs
    rw [Expr.ensures_ahead]
    apply (ih s hinput hs).mono
    · exact fun value t ht => ⟨ht.1.jump, Or.inr ⟨_, ht.2, rfl⟩⟩
    · exact fun x t ht => ⟨ht.1.jump, Or.inl ⟨ht.2, rfl⟩⟩
  | notAhead e ih =>
    intro s hinput hs
    rw [Expr.ensures_notAhead]
    apply (ih s hinput hs).mono
    · exact fun value t ht => ⟨ht.1.jump, Or.inr ⟨_, ht.2, rfl⟩⟩
    · exact fun x t ht => ⟨ht.1.jump, Or.inl ⟨ht.2, rfl⟩⟩
  | discard e ih | label _ e ih | action e _ ih | slice e ih | concat e ih =>
    exact wrapped_yields rfl ih
  | rule ref =>
    intro s hinput hs
    rw [Expr.ensures_rule]
    cases href : ref.handle? with
    | none => trivial
    | some handle =>
      apply (hcall handle s hinput hs).mono
      · exact fun value t ht => ⟨ht.1, handle, href, ht.2⟩
      · exact fun x t ht => ⟨ht.1, handle, href, ht.2⟩

end Runs

/-! ## Runs that come to an end -/

namespace Matcher

/-- The run of `m` from `s` comes to an end: at a position, with a value, or in a mismatch. -/
def EndsAt (m : Matcher Value) (s : MatchState) : Option Nat → Prop
  | some stop => ∃ v t, EStateM.run m s = .ok v t ∧ t.cursor.pos = stop
  | none => ∃ x t, EStateM.run m s = .error (.mismatch x) t

variable {m m' : Matcher Value} {s s' : MatchState} {stop? stop?' : Option Nat}

theorem endsAt_iff_ensures : EndsAt m s stop? ↔
    Ensures m s (fun _ t => stop? = some t.cursor.pos) (fun _ _ => stop? = none)
      (fun _ => False) := by
  unfold Ensures
  cases stop? with
  | some stop =>
    constructor
    · rintro ⟨v, t, hrun, rfl⟩
      rw [hrun]
    · intro h
      split at h
      · next v t hrun => exact ⟨v, t, hrun, (Option.some.inj h).symm⟩
      · cases h
      · exact h.elim
  | none =>
    constructor
    · rintro ⟨x, t, hrun⟩
      rw [hrun]
    · intro h
      split at h
      · cases h
      · next x t hrun => exact ⟨x, t, hrun⟩
      · exact h.elim

/-- Where the run ends, if it comes to an end. -/
def endOf? (m : Matcher Value) (s : MatchState) : Option (Option Nat) :=
  match EStateM.run m s with
  | .ok _ t => some (some t.cursor.pos)
  | .error (.mismatch _) _ => some none
  | .error _ _ => none

theorem endsAt_iff_endOf? : EndsAt m s stop? ↔ endOf? m s = some stop? := by
  rw [endsAt_iff_ensures]
  unfold Ensures endOf?
  cases EStateM.run m s with
  | ok v t => simp [eq_comm]
  | error interrupt t => cases interrupt <;> simp [eq_comm]

instance (m : Matcher Value) (s : MatchState) (stop? : Option Nat) :
    Decidable (EndsAt m s stop?) :=
  decidable_of_iff _ endsAt_iff_endOf?.symm

theorem EndsAt.unique (h : EndsAt m s stop?) (h' : EndsAt m s stop?') : stop? = stop?' := by
  cases stop? with
  | some stop =>
    obtain ⟨v, t, hrun, rfl⟩ := h
    exact ((endsAt_iff_ensures.mp h').of_ok hrun).symm
  | none =>
    obtain ⟨x, t, hrun⟩ := h
    exact ((endsAt_iff_ensures.mp h').of_mismatch hrun).symm

/-- What is known of all ends of a run is known of the end that it comes to. -/
theorem EndsAt.of_ensures {P : Option Nat → Prop} (hend : EndsAt m s stop?)
    (h : Ensures m s (fun _ t => P (some t.cursor.pos)) (fun _ _ => P none) (fun _ => True)) :
    P stop? := by
  cases stop? with
  | some stop =>
    obtain ⟨v, t, hrun, rfl⟩ := hend
    exact h.of_ok hrun
  | none =>
    obtain ⟨x, t, hrun⟩ := hend
    exact h.of_mismatch hrun

theorem Yields.of_endsAt {input : Bytes} {R : Outcomes} (hm : Yields input m R)
    (hinput : s.cursor.input = input) (hs : s.cursor.pos ≤ input.length) (h : EndsAt m s stop?) :
    R s.cursor.pos stop? :=
  h.of_ensures ((hm s hinput hs).mono (fun _ _ ht => ht.2) fun _ _ ht => ht.2)

theorem Refines.endsAt (hm : Refines SameView m m') (hs : SameView s s')
    (h : EndsAt m s stop?) : EndsAt m' s' stop? := by
  cases stop? with
  | some stop =>
    obtain ⟨v, t, hrun, rfl⟩ := h
    obtain ⟨t', hrun', ht⟩ := hm.run_ok hs hrun
    exact ⟨v, t', hrun', ht.pos_eq.symm⟩
  | none =>
    obtain ⟨x, t, hrun⟩ := h
    obtain ⟨t', hrun', -⟩ := hm.run_mismatch hs hrun
    exact ⟨x, t', hrun'⟩

/-- A call ends in the same place whatever names are bound where it is made. -/
theorem EndsAt.inScope {rules : List Rule} {depth handle : Nat}
    (h : EndsAt (callRule rules depth handle) s stop?) (scope : Captures) :
    EndsAt (callRule rules depth handle) { s with scope } stop? := by
  rw [endsAt_iff_ensures] at h ⊢
  cases depth with
  | zero => exact h
  | succ depth =>
    rw [ensures_callRule_succ] at h ⊢
    exact h

end Matcher

section Calls

open Matcher

variable (rules : List Rule) (input : Bytes)

/-- What becomes of calls of a rule, however deep calls may nest. -/
def callOutcomes (handle : Nat) : Outcomes :=
  fun pos stop? => ∃ depth, ∃ s : MatchState, s.cursor.input = input ∧ s.cursor.pos = pos ∧
    EndsAt (callRule rules depth handle) s stop?

theorem callRule_yields (depth handle : Nat) :
    Yields input (callRule rules depth handle) (callOutcomes rules input handle) := by
  rintro s rfl hs
  have hrun := (callRule_inBounds rules depth handle s hs).also (.run_eq _ s)
  apply hrun.mono
  · exact fun value t ht => ⟨ht.1, depth, s, rfl, rfl, value, t, ht.2, rfl⟩
  · exact fun x t ht => ⟨ht.1.1, depth, s, rfl, rfl, x, t, ht.2⟩

/-- Calls come to one end only. -/
theorem callOutcomes_compatible (handle : Nat) :
    (callOutcomes rules input handle).Compatible (callOutcomes rules input handle) := by
  rintro pos stop? stop?' ⟨depth, s, rfl, rfl, h⟩ ⟨depth', s', hinput, hpos, h'⟩
  have hdeep := callRule_refines SameView.congruence rules (Nat.le_max_left depth depth') handle
  have hdeep' := callRule_refines SameView.congruence rules (Nat.le_max_right depth depth') handle
  have hview : SameView { s with scope := s'.scope } s' := ⟨hinput.symm, hpos.symm, rfl⟩
  exact (hdeep.endsAt hview (h.inScope s'.scope)).unique (hdeep'.endsAt ⟨rfl, rfl, rfl⟩ h')

end Calls

/-- Where a run of an expression ends is among its outcomes. -/
theorem Expr.outcomes_of_endsAt {e : Expr} {rules : List Rule} {depth : Nat} {s : MatchState}
    {stop? : Option Nat} (hs : s.cursor.pos ≤ s.cursor.input.length)
    (h : (e.eval (callRule rules depth)).EndsAt s stop?) :
    e.outcomes (callOutcomes rules s.cursor.input) s.cursor.input s.cursor.pos stop? :=
  (eval_yields (callRule_yields rules s.cursor.input depth) e).of_endsAt rfl hs h

end Peg
