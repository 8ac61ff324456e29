import Peg.Proofs.Matcher.Replay

/-!
How repetitions end. A repetition matches its body for as long as that moves on, and leaves
nothing behind that the body would match and move on over. One that has to match at least
once takes the same course, but for its failure where the body fails at once.
-/

namespace Peg

open Matcher

namespace Matcher

/-- From the state on the matcher matches again and again, each time from where the last match
ended, with these values: until it fails, or matches without moving on. The latter is noted. -/
inductive Repeats (idle : Nat → Event) (m : Matcher Value) :
    MatchState → List Value → MatchState → Prop
  | stops {s t : MatchState} {x : Mismatch}
    (hfails : EStateM.run m s = .error (.mismatch x) t) :
    Repeats idle m s [] (t.backAt s.cursor.pos)
  | idles {s t : MatchState} {value : Value} (hrun : EStateM.run m s = .ok value t)
    (hidle : t.cursor.pos = s.cursor.pos) :
    Repeats idle m s [value] { t with events := t.events.push (idle s.cursor.pos) }
  | round {s t u : MatchState} {value : Value} {values : List Value}
    (hrun : EStateM.run m s = .ok value t) (htakes : s.cursor.pos < t.cursor.pos)
    (hagain : Repeats idle m t values u) : Repeats idle m s (value :: values) u

variable {idle : Nat → Event} {m : Matcher Value} {s t : MatchState} {before values : List Value}

/-- A repetition takes its course. What is carried through the loop is that its course from
the current state on, behind the rounds so far, is one from the start. -/
theorem many_repeats (hm : InBounds m) (hs : s.cursor.pos ≤ s.cursor.input.length) :
    Ensures (many idle m before) s
      (fun values t => ∃ added, values = before ++ added ∧ Repeats idle m s added t)
      (fun _ _ => False) (fun _ => True) := by
  apply Ensures.many fun values t => ∃ front, values = before ++ front ∧
    s.cursor.Advances t.cursor ∧
    ∀ added u, Repeats idle m t added u → Repeats idle m s (front ++ added) u
  · rintro _ t ⟨front, rfl, hadvances, hcourse⟩
    apply ((hm t hadvances.pos_le_input).also (Ensures.run_eq m t)).mono
    · rintro value u ⟨hmoves, hrun⟩
      rw [List.append_assoc]
      split
      · next hless =>
        have htakes : t.cursor.pos < u.cursor.pos :=
          Nat.lt_of_le_of_ne hmoves.pos_le (hmoves.pos_ne_of_remaining_lt hless).symm
        refine ⟨front ++ [value], rfl, hadvances.trans hmoves, fun added w hagain => ?_⟩
        rw [List.append_assoc]
        exact hcourse _ w (.round hrun htakes hagain)
      · next hnot =>
        exact ⟨front ++ [value], rfl, hcourse _ _ (.idles hrun (hmoves.pos_eq_of_idle hnot))⟩
    · rintro x u ⟨-, hfails⟩
      refine ⟨front, rfl, ?_⟩
      have hcourse' := hcourse _ _ (.stops hfails)
      rwa [List.append_nil] at hcourse'
  · exact ⟨[], (List.append_nil before).symm, .refl hs, fun added u hcourse => hcourse⟩

namespace Repeats

theorem run_many (h : Repeats idle m s values t) (hm : InBounds m)
    (hs : s.cursor.pos ≤ s.cursor.input.length) (before : List Value) :
    EStateM.run (many idle m before) s = .ok (before ++ values) t := by
  induction h generalizing before with
  | stops hfails => rw [Matcher.run_many, hfails, List.append_nil]
  | @idles s t value hrun hidle =>
    have hmoves := (hm s hs).of_ok hrun
    have hnot : ¬ t.cursor.remaining.length < s.cursor.remaining.length :=
      fun hless => hmoves.pos_ne_of_remaining_lt hless hidle
    rw [Matcher.run_many, hrun]
    exact if_neg hnot
  | @round s t u value values hrun htakes _ ih =>
    have hmoves := (hm s hs).of_ok hrun
    have hless := hmoves.remaining_lt (Nat.ne_of_gt htakes)
    rw [Matcher.run_many, hrun]
    dsimp only
    rw [if_pos hless, ih hmoves.pos_le_input, List.append_assoc]
    rfl

/-- Each round moves on but for the last, so there are not many more than bytes. -/
theorem length_le (h : Repeats idle m s values t) :
    s.cursor.pos ≤ t.cursor.pos ∧ values.length ≤ t.cursor.pos - s.cursor.pos + 1 := by
  induction h with
  | stops => exact ⟨Nat.le_refl _, Nat.zero_le _⟩
  | idles _ hidle => exact ⟨Nat.le_of_eq hidle.symm, Nat.le_add_left _ _⟩
  | round _ htakes _ ih =>
    obtain ⟨hle, hlength⟩ := ih
    rw [List.length_cons]
    omega

theorem ne_nil (h : Repeats idle m s values t)
    (hmatches : ∀ x u, EStateM.run m s ≠ .error (.mismatch x) u) : values ≠ [] := by
  cases h with
  | stops hfails => exact absurd hfails (hmatches _ _)
  | idles => exact List.cons_ne_nil _ _
  | round => exact List.cons_ne_nil _ _

/-- Where the repetition ends, the matcher has failed or has matched without moving on. -/
theorem exists_last (h : Repeats idle m s values t) (hm : InBounds m)
    (hs : s.cursor.pos ≤ s.cursor.input.length) :
    ∃ u : MatchState, u.cursor.input = s.cursor.input ∧ u.cursor.pos = t.cursor.pos ∧
      ((∃ x r, EStateM.run m u = .error (.mismatch x) r) ∨
        ∃ value r, EStateM.run m u = .ok value r ∧ r.cursor.pos = t.cursor.pos) := by
  induction h with
  | @stops s t x hfails => exact ⟨s, rfl, rfl, Or.inl ⟨x, t, hfails⟩⟩
  | @idles s t value hrun hidle => exact ⟨s, rfl, hidle.symm, Or.inr ⟨value, t, hrun, rfl⟩⟩
  | round hrun _ _ ih =>
    have hmoves := (hm _ hs).of_ok hrun
    obtain ⟨u, hinput, hpos, hlast⟩ := ih hmoves.pos_le_input
    exact ⟨u, hinput.trans hmoves.input_eq, hpos, hlast⟩

end Repeats

end Matcher

/-! ## Both kinds of repetition -/

namespace Expr

variable {call : Nat → Matcher Value} {e : Expr} {s t : MatchState}

theorem run_star (call : Nat → Matcher Value) (e : Expr) (s : MatchState) :
    EStateM.run ((star e).eval call) s =
      EStateM.run (Value.list <$> many (.idleBody e) (e.eval call) []) s := rfl

theorem run_plus (call : Nat → Matcher Value) (e : Expr) (s : MatchState) :
    EStateM.run ((plus e).eval call) s =
      match EStateM.run (e.eval call) s with
      | .ok first t =>
        if t.cursor.remaining.length < s.cursor.remaining.length then
          EStateM.run (Value.list <$> many (.idleBody e) (e.eval call) [first]) t
        else .ok (.list [first]) { t with events := t.events.push (.idleBody e s.cursor.pos) }
      | .error interrupt t => .error interrupt t := by
  rw [eval, EStateM.run_bind, EStateM.run_get]
  dsimp only
  rw [EStateM.run_bind]
  cases EStateM.run (e.eval call) s with
  | error interrupt t => rfl
  | ok first t =>
    dsimp only
    rw [EStateM.run_bind, EStateM.run_get]
    dsimp only
    split <;> rfl

/-- Unless the body fails at once, the two repetitions come to the same. -/
theorem run_plus_eq_run_star
    (h : ∀ x t, EStateM.run (e.eval call) s ≠ .error (.mismatch x) t) :
    EStateM.run ((plus e).eval call) s = EStateM.run ((star e).eval call) s := by
  rw [run_plus, run_star, run_map, run_many]
  cases hrun : EStateM.run (e.eval call) s with
  | ok first t =>
    dsimp only
    rw [List.nil_append, run_map]
    split <;> rfl
  | error interrupt t =>
    cases interrupt with
    | mismatch x => exact absurd hrun (h x t)
    | fault fault => rfl
    | exhausted => rfl

theorem run_plus_of_mismatch {x : Mismatch}
    (h : EStateM.run (e.eval call) s = .error (.mismatch x) t) :
    EStateM.run ((plus e).eval call) s = .error (.mismatch x) t := by
  rw [run_plus, h]

theorem run_star_of_mismatch {x : Mismatch}
    (h : EStateM.run (e.eval call) s = .error (.mismatch x) t) :
    EStateM.run ((star e).eval call) s = .ok (.list []) (t.backAt s.cursor.pos) := by
  rw [run_star, run_map, run_many, h]

theorem star_repeats (hcall : ∀ handle, InBounds (call handle))
    (hs : s.cursor.pos ≤ s.cursor.input.length) :
    Ensures ((star e).eval call) s
      (fun v t => ∃ values, v = .list values ∧ Repeats (.idleBody e) (e.eval call) s values t)
      (fun _ _ => False) (fun _ => True) := by
  rw [ensures_star]
  apply (many_repeats (e.eval_inBounds hcall) hs).imp_ok
  rintro values t ⟨added, hadded, hcourse⟩
  exact ⟨added, congrArg Value.list hadded, hcourse⟩

theorem run_star_eq_ok_iff (hcall : ∀ handle, InBounds (call handle))
    (hs : s.cursor.pos ≤ s.cursor.input.length) {v : Value} :
    EStateM.run ((star e).eval call) s = .ok v t ↔
      ∃ values, v = .list values ∧ Repeats (.idleBody e) (e.eval call) s values t := by
  constructor
  · exact (star_repeats hcall hs).of_ok
  · rintro ⟨values, rfl, hcourse⟩
    rw [run_star, run_map, hcourse.run_many (e.eval_inBounds hcall) hs []]
    rfl

/-! A repetition that has to match at least once, by how the body ends at first. -/

theorem run_plus_eq_ok_iff (hcall : ∀ handle, InBounds (call handle))
    (hs : s.cursor.pos ≤ s.cursor.input.length) {v : Value} :
    EStateM.run ((plus e).eval call) s = .ok v t ↔
      ∃ values, values ≠ [] ∧ v = .list values ∧
        EStateM.run ((star e).eval call) s = .ok (.list values) t := by
  by_cases hfails : ∃ x r, EStateM.run (e.eval call) s = .error (.mismatch x) r
  · obtain ⟨x, r, hfails⟩ := hfails
    rw [run_plus_of_mismatch hfails, run_star_of_mismatch hfails]
    constructor
    · rintro ⟨⟩
    · rintro ⟨values, hne, -, h⟩
      obtain ⟨hvalues, -⟩ := EStateM.Result.ok.inj h
      exact absurd (Value.list.inj hvalues).symm hne
  · have hmatches : ∀ x r, EStateM.run (e.eval call) s ≠ .error (.mismatch x) r :=
      fun x r h => hfails ⟨x, r, h⟩
    rw [run_plus_eq_run_star hmatches]
    constructor
    · intro h
      obtain ⟨values, rfl, hcourse⟩ := (star_repeats hcall hs).of_ok h
      exact ⟨values, hcourse.ne_nil hmatches, rfl, h⟩
    · rintro ⟨values, -, rfl, h⟩
      exact h

theorem run_plus_eq_mismatch_iff (hcall : ∀ handle, InBounds (call handle))
    (hs : s.cursor.pos ≤ s.cursor.input.length) {x : Mismatch} :
    EStateM.run ((plus e).eval call) s = .error (.mismatch x) t ↔
      EStateM.run (e.eval call) s = .error (.mismatch x) t := by
  refine ⟨fun h => ?_, run_plus_of_mismatch⟩
  by_cases hfails : ∃ y r, EStateM.run (e.eval call) s = .error (.mismatch y) r
  · obtain ⟨y, r, hfails⟩ := hfails
    rw [hfails, ← run_plus_of_mismatch hfails]
    exact h
  · rw [run_plus_eq_run_star fun y r h => hfails ⟨y, r, h⟩] at h
    exact ((star_repeats hcall hs).of_mismatch h).elim

/-- The two repetitions are cut short together. -/
theorem run_plus_eq_cut_iff {interrupt : Interrupt} (hcut : ∀ x, interrupt ≠ .mismatch x) :
    EStateM.run ((plus e).eval call) s = .error interrupt t ↔
      EStateM.run ((star e).eval call) s = .error interrupt t := by
  by_cases hfails : ∃ x r, EStateM.run (e.eval call) s = .error (.mismatch x) r
  · obtain ⟨x, r, hfails⟩ := hfails
    rw [run_plus_of_mismatch hfails, run_star_of_mismatch hfails]
    constructor
    · intro h
      exact absurd (EStateM.Result.error.inj h).1.symm (hcut x)
    · rintro ⟨⟩
  · rw [run_plus_eq_run_star fun x r h => hfails ⟨x, r, h⟩]

/-- Where the body can do no more than match without moving on, a repetition of it stays. -/
theorem AlwaysEnds.star {rules : List Rule} {depth : Nat} {input : Bytes} {pos : Nat}
    (h : e.AlwaysEnds rules depth input pos (· = pos) (fun _ => True)) (hpos : pos ≤ input.length) :
    e.star.AlwaysEnds rules depth input pos (· = pos) (fun _ => False) := by
  rintro depth' s rfl rfl
  have hbounds := e.eval_inBounds (callRule_inBounds rules depth') s hpos
  rw [ensures_star]
  apply Ensures.many (fun _ t => s = t)
  · rintro values _ rfl
    apply ((h depth' s rfl rfl).also hbounds).mono
    · rintro value t ⟨hstop, hmoves⟩
      split
      · next hless => exact absurd hstop (hmoves.pos_ne_of_remaining_lt hless)
      · exact hstop
    · exact fun _ _ _ => rfl
  · rfl

end Expr

/-! ## What a repetition takes -/

section Results

variable (rules : List Rule) (depth : Nat) (e : Expr) {s : MatchState}

/-- A repetition that ends has matched its body from where it began to where it ended, each
time but perhaps the last moving on. Where it ended, the body fails or matches without moving
on, whatever is bound by then; so a second repetition stays there, and a sequence that asks
for the body again right after a repetition of it gets no more than an empty match. -/
theorem repetition_is_maximal (hs : s.cursor.pos ≤ s.cursor.input.length) {v : Value}
    {t : MatchState}
    (hrun : EStateM.run ((Expr.star e).eval (callRule rules depth)) s = .ok v t) :
    (∃ values, v = .list values ∧
      Repeats (.idleBody e) (e.eval (callRule rules depth)) s values t ∧
      s.cursor.pos ≤ t.cursor.pos ∧ values.length ≤ t.cursor.pos - s.cursor.pos + 1) ∧
    e.AlwaysEnds rules depth s.cursor.input t.cursor.pos (· = t.cursor.pos) (fun _ => True) ∧
    e.star.AlwaysEnds rules depth s.cursor.input t.cursor.pos (· = t.cursor.pos)
      (fun _ => False) ∧
    ∀ (es : List Expr) (w : Value) (u : MatchState),
      EStateM.run ((Expr.seq (.star e :: e :: es)).eval (callRule rules depth)) s = .ok w u →
      ∃ value r, EStateM.run (e.eval (callRule rules depth)) t = .ok value r ∧
        r.cursor.pos = t.cursor.pos := by
  have hcall := callRule_inBounds rules depth
  have hadvances := (e.star.eval_inBounds hcall s hs).of_ok hrun
  obtain ⟨values, hvalue, hcourse⟩ := (Expr.run_star_eq_ok_iff hcall hs).mp hrun
  have hbody : e.AlwaysEnds rules depth s.cursor.input t.cursor.pos (· = t.cursor.pos)
      (fun _ => True) := by
    obtain ⟨u, hinput, hpos, hlast⟩ := hcourse.exists_last (e.eval_inBounds hcall) hs
    rw [← hinput, ← hpos]
    rcases hlast with ⟨x, r, hfails⟩ | ⟨value, r, hmatches, hstays⟩
    · exact (Expr.alwaysEnds_of_run_mismatch hfails).mono (Nat.le_refl _) (fun _ => False.elim)
        fun _ _ => trivial
    · exact (Expr.alwaysEnds_of_run_ok hmatches).mono (Nat.le_refl _)
        (fun _ hstop => hstop.trans (hstays.trans hpos.symm)) fun _ => False.elim
  refine ⟨⟨values, hvalue, hcourse, hcourse.length_le⟩, hbody,
    hbody.star hadvances.pos_le_length, fun es w u hseq => ?_⟩
  have hagain := (Ensures.run_eq _ t).also
    ((hbody depth t hadvances.input_eq rfl).imp_cut fun _ _ => trivial)
  suffices h : Ensures ((Expr.seq (.star e :: e :: es)).eval (callRule rules depth)) s
      (fun _ _ => ∃ value r, EStateM.run (e.eval (callRule rules depth)) t = .ok value r ∧
        r.cursor.pos = t.cursor.pos) (fun _ _ => True) (fun _ => True) from h.of_ok hseq
  rw [Expr.ensures_seq, Expr.ensures_evalParts_cons]
  apply Ensures.of_run_ok hrun
  rw [Expr.ensures_evalParts_cons]
  apply hagain.mono
  · intro value r hr
    exact (Ensures.trivial _ r).imp_ok fun _ _ _ => ⟨value, r, hr⟩
  · exact fun _ _ _ => trivial

/-- A letter that is bound, again and again: the repetition takes both letters of `abc` that it
can, and the body fails behind them in any other scope as well. -/
theorem repetition_is_maximal_of_letters :
    let letter : Expr := .choice [.literal (.exact [0x61]), .literal (.exact [0x62])]
    let rules : List Rule := [⟨"Letter", .plain, .expr letter⟩]
    let e : Expr := .label "x" (.rule ⟨"Letter", some 0⟩)
    let s : MatchState := ⟨.start [0x61, 0x62, 0x63], .empty, #[]⟩
    s.cursor.pos ≤ s.cursor.input.length ∧
    ∃ v values t, EStateM.run (e.star.eval (callRule rules 1)) s = .ok v t ∧
      v.beq (.list [.token ⟨0, 1, by decide⟩, .token ⟨1, 2, by decide⟩]) = true ∧
      v = .list values ∧ Repeats (.idleBody e) (e.eval (callRule rules 1)) s values t ∧
      e.AlwaysEnds rules 1 s.cursor.input t.cursor.pos (· = t.cursor.pos) (fun _ => True) := by
  intro letter rules e s
  have hs : s.cursor.pos ≤ s.cursor.input.length := by decide
  have hpasses : passes (e.star.eval (callRule rules 1)) s (fun v _ =>
      v.beq (.list [.token ⟨0, 1, by decide⟩, .token ⟨1, 2, by decide⟩])) = true := by
    decide +kernel
  obtain ⟨v, t, hrun, hvalue⟩ := exists_of_passes hpasses
  obtain ⟨⟨values, hlist, hcourse, -⟩, hends, -⟩ := repetition_is_maximal rules 1 e hs hrun
  exact ⟨hs, v, values, t, hrun, hvalue, hlist, hcourse, hends⟩

/-- A repetition that has to match at least once matches where the other comes to some values.
The two then come to the same values and leave the same state: what is bound, how far the
cursor is and once was, and what was noted. It fails where its body fails at once, with the
failure of the body, and the other comes to no values there and stays. The two are cut short
together. Beside what the body notes, a repetition notes no more than a last match of the
body that did not move on, right behind it. -/
theorem plus_agrees_with_star (hs : s.cursor.pos ≤ s.cursor.input.length) :
    (∀ v t, EStateM.run ((Expr.plus e).eval (callRule rules depth)) s = .ok v t ↔
      ∃ values, values ≠ [] ∧ v = .list values ∧
        EStateM.run ((Expr.star e).eval (callRule rules depth)) s = .ok (.list values) t) ∧
    (∀ x t, EStateM.run ((Expr.plus e).eval (callRule rules depth)) s = .error (.mismatch x) t ↔
      EStateM.run (e.eval (callRule rules depth)) s = .error (.mismatch x) t) ∧
    (∀ x t, EStateM.run ((Expr.plus e).eval (callRule rules depth)) s = .error (.mismatch x) t →
      EStateM.run ((Expr.star e).eval (callRule rules depth)) s =
        .ok (.list []) (t.backAt s.cursor.pos)) ∧
    (∀ interrupt t, (∀ x, interrupt ≠ .mismatch x) →
      (EStateM.run ((Expr.plus e).eval (callRule rules depth)) s = .error interrupt t ↔
        EStateM.run ((Expr.star e).eval (callRule rules depth)) s = .error interrupt t)) ∧
    (∀ v t, EStateM.run ((Expr.star e).eval (callRule rules depth)) s = .ok v t →
      ∃ values, v = .list values ∧
        Repeats (.idleBody e) (e.eval (callRule rules depth)) s values t) := by
  have hcall := callRule_inBounds rules depth
  exact ⟨fun v t => Expr.run_plus_eq_ok_iff hcall hs,
    fun x t => Expr.run_plus_eq_mismatch_iff hcall hs,
    fun x t h => Expr.run_star_of_mismatch ((Expr.run_plus_eq_mismatch_iff hcall hs).mp h),
    fun interrupt t hcut => Expr.run_plus_eq_cut_iff hcut,
    fun v t => (Expr.star_repeats hcall hs).of_ok⟩

/-- An optional letter on `ab` matches the letter first and then nothing, in either repetition;
each notes where the body matched without moving on. -/
theorem plus_agrees_with_star_of_optional :
    let e : Expr := .optional (.literal (.exact [0x61]))
    let s : MatchState := ⟨.start [0x61, 0x62], .empty, #[]⟩
    s.cursor.pos ≤ s.cursor.input.length ∧
    ∃ values t, values.length = 2 ∧ t.events = #[.idleBody e 1] ∧
      EStateM.run (e.plus.eval (callRule [] 0)) s = .ok (.list values) t ∧
      EStateM.run (e.star.eval (callRule [] 0)) s = .ok (.list values) t ∧
      Repeats (.idleBody e) (e.eval (callRule [] 0)) s values t := by
  intro e s
  have hs : s.cursor.pos ≤ s.cursor.input.length := by decide
  obtain ⟨hok, -, -, -, hcourse⟩ := plus_agrees_with_star [] 0 e hs
  let values : List Value := [.token ⟨0, 1, by decide⟩, .token (Span.empty 1)]
  let t : MatchState := ⟨⟨[0x61, 0x62], 1, 1⟩, .empty, #[.idleBody e 1]⟩
  have hrun : EStateM.run (e.plus.eval (callRule [] 0)) s = .ok (.list values) t := rfl
  obtain ⟨_, -, hvalue, hstar⟩ := (hok _ t).mp hrun
  obtain rfl := Value.list.inj hvalue
  obtain ⟨_, hvalue, hrepeats⟩ := hcourse _ t hstar
  obtain rfl := Value.list.inj hvalue
  exact ⟨hs, values, t, rfl, rfl, hrun, hstar, hrepeats⟩

end Results

end Peg
