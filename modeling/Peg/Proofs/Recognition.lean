import Peg.Proofs.Matcher.Bounds

/-!
What parsing expressions mean, said without a cursor. A recogniser looks at the
bytes that are left and says which of them are left afterwards. It has no
position to restore and no names to bind; a choice tries its alternatives on the
same bytes because there are no others. A run of the evaluator on rules that
are plain expressions agrees with it, whichever way the run ends.
-/

namespace Peg

/-- `Recognises rules e rest (some rest')` says that `e` matches the bytes that
`rest` has before `rest'`, and `Recognises rules e rest none` that it fails. -/
inductive Recognises (rules : List Rule) : Expr → Bytes → Option Bytes → Prop
  | literal (l : Literal) (rest : Bytes) :
    Recognises rules (.literal l) rest ((l.width? rest).map rest.drop)
  | charClass (c : CharClass) (rest : Bytes) :
    Recognises rules (.charClass c) rest ((c.width? rest).map rest.drop)
  | anyChar (rest : Bytes) :
    Recognises rules .anyChar rest
      (((Utf8.first? rest).map Utf8.Segment.size).map rest.drop)
  | seq_nil {rest : Bytes} : Recognises rules (.seq []) rest (some rest)
  | seq_cons {e : Expr} {es : List Expr} {rest rest' : Bytes} {out : Option Bytes}
      (hhead : Recognises rules e rest (some rest'))
      (htail : Recognises rules (.seq es) rest' out) :
    Recognises rules (.seq (e :: es)) rest out
  | seq_fail {e : Expr} {es : List Expr} {rest : Bytes}
      (hhead : Recognises rules e rest none) :
    Recognises rules (.seq (e :: es)) rest none
  | choice_nil {rest : Bytes} : Recognises rules (.choice []) rest none
  | choice_first {e : Expr} {es : List Expr} {rest rest' : Bytes}
      (hhead : Recognises rules e rest (some rest')) :
    Recognises rules (.choice (e :: es)) rest (some rest')
  | choice_next {e : Expr} {es : List Expr} {rest : Bytes} {out : Option Bytes}
      (hhead : Recognises rules e rest none)
      (htail : Recognises rules (.choice es) rest out) :
    Recognises rules (.choice (e :: es)) rest out
  | star_stop {e : Expr} {rest : Bytes} (hbody : Recognises rules e rest none) :
    Recognises rules (.star e) rest (some rest)
  | star_empty {e : Expr} {rest : Bytes} (hbody : Recognises rules e rest (some rest)) :
    Recognises rules (.star e) rest (some rest)
  | star_step {e : Expr} {rest rest' : Bytes} {out : Option Bytes}
      (hbody : Recognises rules e rest (some rest')) (hne : rest' ≠ rest)
      (hagain : Recognises rules (.star e) rest' out) :
    Recognises rules (.star e) rest out
  | plus_fail {e : Expr} {rest : Bytes} (hbody : Recognises rules e rest none) :
    Recognises rules (.plus e) rest none
  | plus_empty {e : Expr} {rest : Bytes} (hbody : Recognises rules e rest (some rest)) :
    Recognises rules (.plus e) rest (some rest)
  | plus_step {e : Expr} {rest rest' : Bytes} {out : Option Bytes}
      (hbody : Recognises rules e rest (some rest')) (hne : rest' ≠ rest)
      (hagain : Recognises rules (.star e) rest' out) :
    Recognises rules (.plus e) rest out
  | optional_some {e : Expr} {rest rest' : Bytes}
      (hbody : Recognises rules e rest (some rest')) :
    Recognises rules (.optional e) rest (some rest')
  | optional_none {e : Expr} {rest : Bytes} (hbody : Recognises rules e rest none) :
    Recognises rules (.optional e) rest (some rest)
  | ahead {e : Expr} {rest rest' : Bytes} (hbody : Recognises rules e rest (some rest')) :
    Recognises rules (.ahead e) rest (some rest)
  | ahead_fail {e : Expr} {rest : Bytes} (hbody : Recognises rules e rest none) :
    Recognises rules (.ahead e) rest none
  | notAhead {e : Expr} {rest : Bytes} (hbody : Recognises rules e rest none) :
    Recognises rules (.notAhead e) rest (some rest)
  | notAhead_fail {e : Expr} {rest rest' : Bytes}
      (hbody : Recognises rules e rest (some rest')) :
    Recognises rules (.notAhead e) rest none
  | discard {e : Expr} {rest : Bytes} {out : Option Bytes}
      (hbody : Recognises rules e rest out) : Recognises rules (.discard e) rest out
  | label {name : String} {e : Expr} {rest : Bytes} {out : Option Bytes}
      (hbody : Recognises rules e rest out) : Recognises rules (.label name e) rest out
  | action {e : Expr} {a : Action} {rest : Bytes} {out : Option Bytes}
      (hbody : Recognises rules e rest out) : Recognises rules (.action e a) rest out
  | slice {e : Expr} {rest : Bytes} {out : Option Bytes}
      (hbody : Recognises rules e rest out) : Recognises rules (.slice e) rest out
  | concat {e : Expr} {rest : Bytes} {out : Option Bytes}
      (hbody : Recognises rules e rest out) : Recognises rules (.concat e) rest out
  | rule {ref : RuleRef} {handle : Nat} {rule : Rule} {e : Expr} {rest : Bytes}
      {out : Option Bytes} (href : ref.handle? = some handle)
      (hrule : rules[handle]? = some rule) (hexpr : rule.body = .expr e)
      (hbody : Recognises rules e rest out) : Recognises rules (.rule ref) rest out

namespace Recognises

variable {rules : List Rule} {e : Expr} {rest : Bytes} {out out' : Option Bytes}

/-- An expression does at most one thing with the bytes that are left. -/
theorem deterministic (h : Recognises rules e rest out) (h' : Recognises rules e rest out') :
    out = out' := by
  induction h generalizing out' with
  | literal | charClass | anyChar | seq_nil | choice_nil =>
    cases h'
    rfl
  | seq_cons _ _ ihhead ihtail =>
    cases h' with
    | seq_cons hhead htail =>
      obtain rfl := Option.some.inj (ihhead hhead)
      exact ihtail htail
    | seq_fail hhead => cases ihhead hhead
  | seq_fail _ ihhead =>
    cases h' with
    | seq_cons hhead _ => cases ihhead hhead
    | seq_fail _ => rfl
  | choice_first _ ihhead =>
    cases h' with
    | choice_first hhead => exact ihhead hhead
    | choice_next hhead _ => cases ihhead hhead
  | choice_next _ _ ihhead ihtail =>
    cases h' with
    | choice_first hhead => cases ihhead hhead
    | choice_next _ htail => exact ihtail htail
  | star_stop _ ih =>
    cases h' with
    | star_stop _ => rfl
    | star_empty _ => rfl
    | star_step hbody _ _ => cases ih hbody
  | star_empty _ ih =>
    cases h' with
    | star_stop _ => rfl
    | star_empty _ => rfl
    | star_step hbody hne _ => exact absurd (Option.some.inj (ih hbody)).symm hne
  | star_step _ hne _ ihbody ihagain =>
    cases h' with
    | star_stop hbody => cases ihbody hbody
    | star_empty hbody => exact absurd (Option.some.inj (ihbody hbody)) hne
    | star_step hbody _ hagain =>
      obtain rfl := Option.some.inj (ihbody hbody)
      exact ihagain hagain
  | plus_fail _ ih =>
    cases h' with
    | plus_fail _ => rfl
    | plus_empty hbody => cases ih hbody
    | plus_step hbody _ _ => cases ih hbody
  | plus_empty _ ih =>
    cases h' with
    | plus_fail hbody => cases ih hbody
    | plus_empty _ => rfl
    | plus_step hbody hne _ => exact absurd (Option.some.inj (ih hbody)).symm hne
  | plus_step _ hne _ ihbody ihagain =>
    cases h' with
    | plus_fail hbody => cases ihbody hbody
    | plus_empty hbody => exact absurd (Option.some.inj (ihbody hbody)) hne
    | plus_step hbody _ hagain =>
      obtain rfl := Option.some.inj (ihbody hbody)
      exact ihagain hagain
  | optional_some _ ih =>
    cases h' with
    | optional_some hbody => exact ih hbody
    | optional_none hbody => cases ih hbody
  | optional_none _ ih =>
    cases h' with
    | optional_some hbody => cases ih hbody
    | optional_none _ => rfl
  | ahead _ ih =>
    cases h' with
    | ahead _ => rfl
    | ahead_fail hbody => cases ih hbody
  | ahead_fail _ ih =>
    cases h' with
    | ahead hbody => cases ih hbody
    | ahead_fail _ => rfl
  | notAhead _ ih =>
    cases h' with
    | notAhead _ => rfl
    | notAhead_fail hbody => cases ih hbody
  | notAhead_fail _ ih =>
    cases h' with
    | notAhead hbody => cases ih hbody
    | notAhead_fail _ => rfl
  | discard _ ih | label _ ih | action _ ih | slice _ ih | concat _ ih =>
    cases h'
    next hbody => exact ih hbody
  | rule href hrule hexpr _ ih =>
    cases h' with
    | rule href' hrule' hexpr' hbody =>
      obtain rfl := Option.some.inj (href.symm.trans href')
      obtain rfl := Option.some.inj (hrule.symm.trans hrule')
      obtain rfl := RuleBody.expr.inj (hexpr.symm.trans hexpr')
      exact ih hbody

end Recognises

/-- `e` matches exactly the bytes of the input from `start` up to `stop`. -/
structure MatchesBetween (rules : List Rule) (e : Expr) (input : Bytes) (start stop : Nat) :
    Prop where
  start_le : start ≤ stop
  le_length : stop ≤ input.length
  recognises : Recognises rules e (input.drop start) (some (input.drop stop))

/-- There is one place where a match ends. -/
theorem MatchesBetween.stop_unique {rules : List Rule} {e : Expr} {input : Bytes}
    {start stop stop' : Nat} (h : MatchesBetween rules e input start stop)
    (h' : MatchesBetween rules e input start stop') : stop = stop' := by
  have hrest := Option.some.inj (h.recognises.deterministic h'.recognises)
  have hlength := congrArg List.length hrest
  have hle := h.le_length
  have hle' := h'.le_length
  rw [List.length_drop, List.length_drop] at hlength
  omega

namespace Matcher

/-- What a run leaves is what the recogniser says is left. -/
def Follows (m : Matcher Value) (spec : Bytes → Option Bytes → Prop) : Prop :=
  ∀ s : MatchState, s.cursor.pos ≤ s.cursor.input.length →
    Ensures m s
      (fun _ t => s.cursor.Advances t.cursor ∧
        spec s.cursor.remaining (some t.cursor.remaining))
      (fun _ t => s.cursor.Advances t.cursor ∧ spec s.cursor.remaining none) (fun _ => True)

end Matcher

/-- Back at the start there is the same left as before. -/
theorem Cursor.Advances.remaining_jump {a b : Cursor} (h : a.Advances b) :
    (b.jump a.pos).remaining = a.remaining := by
  rw [remaining, remaining, jump_input, jump_pos, h.input_eq]

/-- A cursor that did not take anything has the same left as before. -/
theorem Cursor.Advances.remaining_eq {a b : Cursor} (h : a.Advances b)
    (hidle : ¬ b.remaining.length < a.remaining.length) : b.remaining = a.remaining := by
  rw [remaining, remaining, h.input_eq, h.pos_eq_of_idle hidle]

section Agreement

open Matcher

variable {rules : List Rule} {call : Nat → Matcher Value} {e : Expr} {s : MatchState}

theorem terminal_follows {width? : Bytes → Option Nat} {spec : Bytes → Option Bytes → Prop}
    (hwidth : ∀ rest size, width? rest = some size → size ≤ rest.length)
    (hspec : ∀ rest, spec rest ((width? rest).map rest.drop)) :
    Follows (terminal e width?) spec := by
  intro s hs
  have hfront := hspec s.cursor.remaining
  rw [ensures_terminal]
  cases hsize : width? s.cursor.remaining with
  | none =>
    rw [hsize] at hfront
    simp only [Cursor.take?, hsize, Option.map_none]
    exact ⟨Cursor.Advances.refl hs, hfront⟩
  | some size =>
    have htake : s.cursor.take? width? = some (⟨s.cursor.pos, s.cursor.pos + size, by omega⟩,
        s.cursor.advance size) := by
      rw [Cursor.take?, hsize]
      rfl
    rw [hsize] at hfront
    rw [htake]
    refine ⟨Cursor.advances_of_take? hwidth hs htake, ?_⟩
    rw [Cursor.remaining_advance]
    exact hfront

theorem evalParts_follows {es : List Expr}
    (hes : ∀ e ∈ es, Follows (e.eval call) (Recognises rules e))
    (hs : s.cursor.pos ≤ s.cursor.input.length) :
    Ensures (Expr.evalParts call es) s
      (fun _ t => s.cursor.Advances t.cursor ∧
        Recognises rules (.seq es) s.cursor.remaining (some t.cursor.remaining))
      (fun _ t => s.cursor.Advances t.cursor ∧
        Recognises rules (.seq es) s.cursor.remaining none) (fun _ => True) := by
  induction es generalizing s with
  | nil => exact ⟨Cursor.Advances.refl hs, .seq_nil⟩
  | cons e es ih =>
    rw [Expr.ensures_evalParts_cons]
    apply (hes e List.mem_cons_self s hs).mono
    · intro value t ht
      have htail := ih (fun e he => hes e (List.mem_cons_of_mem _ he)) ht.1.pos_le_input
      apply htail.mono
      · intro values u hu
        exact ⟨ht.1.trans hu.1, .seq_cons ht.2 hu.2⟩
      · intro x u hu
        exact ⟨ht.1.trans hu.1, .seq_cons ht.2 hu.2⟩
    · intro x t ht
      exact ⟨ht.1, .seq_fail ht.2⟩

theorem firstOf_follows {es : List Expr}
    (hes : ∀ e ∈ es, Follows (e.eval call) (Recognises rules e))
    {empty : Mismatch} {best : Option Mismatch} (hs : s.cursor.pos ≤ s.cursor.input.length) :
    Ensures (firstOf empty best (Expr.evalEach call es)) s
      (fun _ t => s.cursor.Advances t.cursor ∧
        Recognises rules (.choice es) s.cursor.remaining (some t.cursor.remaining))
      (fun _ t => s.cursor.Advances t.cursor ∧
        Recognises rules (.choice es) s.cursor.remaining none) (fun _ => True) := by
  induction es generalizing s best with
  | nil => exact ⟨Cursor.Advances.refl hs, .choice_nil⟩
  | cons e es ih =>
    rw [Expr.evalEach, ensures_firstOf_cons]
    apply (hes e List.mem_cons_self s hs).mono
    · intro value t ht
      exact ⟨ht.1, .choice_first ht.2⟩
    · intro x t ht
      have hback := ht.1.jump
      have hrest := ht.1.remaining_jump
      apply (ih (s := t.backAt s.cursor.pos)
        (fun e he => hes e (List.mem_cons_of_mem _ he)) hback.pos_le_input).mono
      · intro value u hu
        have hu' := hu.2
        rw [MatchState.backAt, hrest] at hu'
        exact ⟨hback.trans hu.1, .choice_next ht.2 hu'⟩
      · intro y u hu
        have hu' := hu.2
        rw [MatchState.backAt, hrest] at hu'
        exact ⟨hback.trans hu.1, .choice_next ht.2 hu'⟩

/-- A repetition does not fail. What is carried through the loop is that whatever
the repetition makes of the bytes left now, it makes of those at the start. -/
theorem many_follows (he : Follows (e.eval call) (Recognises rules e))
    {idle : Nat → Event} {values : List Value} (hs : s.cursor.pos ≤ s.cursor.input.length) :
    Ensures (many idle (e.eval call) values) s
      (fun _ t => s.cursor.Advances t.cursor ∧
        Recognises rules (.star e) s.cursor.remaining (some t.cursor.remaining))
      (fun _ _ => False) (fun _ => True) := by
  apply Ensures.many (fun _ t => s.cursor.Advances t.cursor ∧
    ∀ out, Recognises rules (.star e) t.cursor.remaining out →
      Recognises rules (.star e) s.cursor.remaining out)
  · intro values t hinv
    -- each way the body can end is one way to unfold the repetition at `t`
    obtain ⟨hst, hstar⟩ := hinv
    apply (he t hst.pos_le_input).mono
    · intro value u hu
      split
      · next hless =>
        have hne : u.cursor.remaining ≠ t.cursor.remaining :=
          fun heq => Nat.ne_of_lt hless (congrArg List.length heq)
        exact ⟨hst.trans hu.1, fun out hout => hstar out (.star_step hu.2 hne hout)⟩
      · next hidle =>
        have heq := hu.1.remaining_eq hidle
        have hbody := hu.2
        refine ⟨hst.trans hu.1, ?_⟩
        rw [heq] at hbody ⊢
        exact hstar _ (.star_empty hbody)
    · intro x u hu
      refine ⟨hst.trans hu.1.jump, ?_⟩
      rw [MatchState.backAt, hu.1.remaining_jump]
      exact hstar _ (.star_stop hu.2)
  · exact ⟨Cursor.Advances.refl hs, fun out hout => hout⟩

theorem wrapped_follows {body : Expr} (he : e.wrapped? = some body)
    (hbody : Follows (body.eval call) (Recognises rules body))
    (himp : ∀ rest out, Recognises rules body rest out → Recognises rules e rest out) :
    Follows (e.eval call) (Recognises rules e) := by
  intro s hs
  apply Expr.ensures_wrapped he
    (fun c => s.cursor.Advances c ∧ Recognises rules e s.cursor.remaining (some c.remaining))
    (fun _ c => s.cursor.Advances c ∧ Recognises rules e s.cursor.remaining none)
    (fun _ => trivial)
  exact (hbody s hs).mono (fun _ t ht => ⟨ht.1, himp _ _ ht.2⟩)
    (fun _ t ht => ⟨ht.1, himp _ _ ht.2⟩)

/-- An expression follows its recogniser if the calls that it makes do. -/
theorem eval_follows
    (hcall : ∀ (ref : RuleRef) (handle : Nat), ref.handle? = some handle →
      Follows (call handle) (Recognises rules (.rule ref))) (e : Expr) :
    Follows (e.eval call) (Recognises rules e) := by
  induction e using Expr.parts_induction with
  | literal l => exact terminal_follows (fun _ _ => Literal.width?_le) (.literal l)
  | charClass c => exact terminal_follows (fun _ _ => CharClass.width?_le) (.charClass c)
  | anyChar => exact terminal_follows Expr.anyChar_size_le .anyChar
  | seq es ih =>
    intro s hs
    rw [Expr.ensures_seq]
    exact evalParts_follows ih hs
  | choice es ih =>
    intro s hs
    rw [Expr.ensures_choice]
    exact firstOf_follows ih hs
  | star e ih =>
    intro s hs
    rw [Expr.ensures_star]
    exact (many_follows ih hs).mono (fun values t ht => ht) (fun x t hx => hx.elim)
  | plus e ih =>
    intro s hs
    rw [Expr.ensures_plus]
    apply (ih s hs).mono
    · intro first t ht
      split
      · next hless =>
        have hne : t.cursor.remaining ≠ s.cursor.remaining :=
          fun heq => Nat.ne_of_lt hless (congrArg List.length heq)
        apply (many_follows ih ht.1.pos_le_input).imp_total
        intro values u hu
        exact ⟨ht.1.trans hu.1, .plus_step ht.2 hne hu.2⟩
      · next hidle =>
        have heq := ht.1.remaining_eq hidle
        have hbody := ht.2
        refine ⟨ht.1, ?_⟩
        rw [heq] at hbody ⊢
        exact .plus_empty hbody
    · intro x t ht
      exact ⟨ht.1, .plus_fail ht.2⟩
  | optional e ih =>
    intro s hs
    rw [Expr.ensures_optional]
    apply (ih s hs).mono
    · intro value t ht
      exact ⟨ht.1, .optional_some ht.2⟩
    · intro x t ht
      refine ⟨ht.1.jump, ?_⟩
      rw [MatchState.backAt, ht.1.remaining_jump]
      exact .optional_none ht.2
  | ahead e ih =>
    intro s hs
    rw [Expr.ensures_ahead]
    apply (ih s hs).mono
    · intro value t ht
      refine ⟨ht.1.jump, ?_⟩
      rw [MatchState.backAt, ht.1.remaining_jump]
      exact .ahead ht.2
    · intro x t ht
      exact ⟨ht.1.jump, .ahead_fail ht.2⟩
  | notAhead e ih =>
    intro s hs
    rw [Expr.ensures_notAhead]
    apply (ih s hs).mono
    · intro value t ht
      exact ⟨ht.1.jump, .notAhead_fail ht.2⟩
    · intro x t ht
      refine ⟨ht.1.jump, ?_⟩
      rw [MatchState.backAt, ht.1.remaining_jump]
      exact .notAhead ht.2
  | discard e ih => exact wrapped_follows rfl ih fun _ _ h => .discard h
  | label name e ih => exact wrapped_follows rfl ih fun _ _ h => .label h
  | action e a ih => exact wrapped_follows rfl ih fun _ _ h => .action h
  | slice e ih => exact wrapped_follows rfl ih fun _ _ h => .slice h
  | concat e ih => exact wrapped_follows rfl ih fun _ _ h => .concat h
  | rule ref =>
    intro s hs
    rw [Expr.ensures_rule]
    cases href : ref.handle? with
    | none => trivial
    | some handle => exact hcall ref handle href s hs

/-- Calls of plain rules follow the recogniser, by induction on their depth. -/
theorem callRule_follows (hplain : ∀ rule ∈ rules, ∃ e, rule.body = .expr e) (depth : Nat)
    {ref : RuleRef} {handle : Nat} (href : ref.handle? = some handle) :
    Follows (callRule rules depth handle) (Recognises rules (.rule ref)) := by
  induction depth generalizing ref handle with
  | zero =>
    intro s hs
    rw [ensures_callRule_zero]
    trivial
  | succ depth ih =>
    intro s hs
    rw [ensures_callRule_succ]
    cases hrule : rules[handle]? with
    | none => trivial
    | some rule =>
      obtain ⟨e, hexpr⟩ := hplain rule (List.mem_of_getElem? hrule)
      have hbody : Follows (e.eval (callRule rules depth)) (Recognises rules e) :=
        eval_follows (fun ref handle href => ih href) e
      dsimp only
      rw [Rule.evalBody, hexpr]
      apply (hbody ⟨s.cursor, .empty, _⟩ hs).mono
      · intro _ t ht
        exact ⟨ht.1, .rule href hrule hexpr ht.2⟩
      · intro _ t ht
        exact ⟨ht.1, .rule href hrule hexpr ht.2⟩

/-- Wherever a run starts and whatever is bound and noted before, if it ends in a
value or a mismatch then it ends in a value at `stop` just if the expression
matches the bytes up to there, and in a mismatch just if the expression fails. -/
theorem evaluation_recognises (rules : List Rule)
    (hplain : ∀ rule ∈ rules, ∃ e, rule.body = .expr e) (depth : Nat) (e : Expr)
    {s : MatchState} (hs : s.cursor.pos ≤ s.cursor.input.length)
    (hended : Ensures (e.eval (callRule rules depth)) s (fun _ _ => True) (fun _ _ => True)
      (fun _ => False)) :
    (∀ stop, (∃ v t, EStateM.run (e.eval (callRule rules depth)) s = .ok v t ∧
        t.cursor.pos = stop) ↔
      MatchesBetween rules e s.cursor.input s.cursor.pos stop) ∧
    ((∃ x t, EStateM.run (e.eval (callRule rules depth)) s = .error (.mismatch x) t) ↔
      Recognises rules e (s.cursor.input.drop s.cursor.pos) none) := by
  have hfollows := eval_follows (fun ref handle href => callRule_follows hplain depth href) e s hs
  cases hrun : EStateM.run (e.eval (callRule rules depth)) s with
  | ok v t =>
    obtain ⟨hadvances, hrest⟩ := hfollows.of_ok hrun
    rw [Cursor.remaining, Cursor.remaining, hadvances.input_eq] at hrest
    have hmatches : MatchesBetween rules e s.cursor.input s.cursor.pos t.cursor.pos :=
      ⟨hadvances.pos_le, hadvances.pos_le_length, hrest⟩
    constructor
    · intro stop
      constructor
      · rintro ⟨v', t', heq, rfl⟩
        obtain ⟨rfl, rfl⟩ := EStateM.Result.ok.inj heq
        exact hmatches
      · intro hstop
        exact ⟨v, t, rfl, hmatches.stop_unique hstop⟩
    · constructor
      · rintro ⟨x, t', heq⟩
        cases heq
      · intro hfails
        cases hfails.deterministic hrest
  | error interrupt t =>
    cases interrupt with
    | mismatch x =>
      have hfails := (hfollows.of_mismatch hrun).2
      constructor
      · intro stop
        constructor
        · rintro ⟨v, t', heq, -⟩
          cases heq
        · intro hstop
          cases hfails.deterministic hstop.recognises
      · exact ⟨fun _ => hfails, fun _ => ⟨x, t, rfl⟩⟩
    | fault fault =>
      unfold Ensures at hended
      rw [hrun] at hended
      exact hended.elim
    | exhausted => exact (hended.of_exhausted hrun).elim

/-- A rule that calls itself takes both letters of `aab` that it asks for. -/
theorem evaluation_recognises_of_recursive_rule :
    let a : RuleRef := ⟨"A", some 0⟩
    let rules : List Rule :=
      [⟨"A", .plain, .expr (.seq [.literal (.exact [0x61]), .optional (.rule a)])⟩]
    let s : MatchState := ⟨.start [0x61, 0x61, 0x62], .empty, #[]⟩
    (∀ rule ∈ rules, ∃ e, rule.body = .expr e) ∧
    s.cursor.pos ≤ s.cursor.input.length ∧
    Ensures ((Expr.rule a).eval (callRule rules 4)) s (fun _ _ => True) (fun _ _ => True)
      (fun _ => False) ∧
    MatchesBetween rules (.rule a) s.cursor.input s.cursor.pos 2 := by
  intro a rules s
  have hplain : ∀ rule ∈ rules, ∃ e, rule.body = .expr e := by
    intro rule hrule
    obtain rfl := List.mem_singleton.mp hrule
    exact ⟨_, rfl⟩
  have hs : s.cursor.pos ≤ s.cursor.input.length := by decide
  have hended : Ensures ((Expr.rule a).eval (callRule rules 4)) s (fun _ _ => True)
      (fun _ _ => True) (fun _ => False) := trivial
  have hstop := (evaluation_recognises rules hplain 4 (.rule a) hs hended).1 2
  exact ⟨hplain, hs, hended, hstop.mp ⟨_, _, rfl, rfl⟩⟩

end Agreement

end Peg
