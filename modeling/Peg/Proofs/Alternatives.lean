import Peg.Proofs.Matcher.Bounds

/-!
Choices that fail, and choices within choices. The alternatives of a choice that fails have
all failed in turn, and of their failures the first of those that got furthest is reported.
Which it is does not depend on the grouping. So the alternatives of a choice may as well be
alternatives of the choice that it is in.
-/

namespace Peg

open Matcher

/-! ## The first of the furthest failures -/

namespace Mismatch

instance : Std.Associative furthest := ⟨furthest_assoc⟩

/-- The furthest so far, when these mismatches are added to it one after the other. -/
def gather (best : Option Mismatch) (xs : List Mismatch) : Option Mismatch :=
  xs.foldl (fun best x => some (x.mergeInto best)) best

theorem gather_some (x : Mismatch) (xs : List Mismatch) :
    gather (some x) xs = some (xs.foldl furthest x) := by
  induction xs generalizing x with
  | nil => rfl
  | cons y ys ih => exact ih (x.furthest y)

theorem gather_none_cons (x : Mismatch) (xs : List Mismatch) :
    gather none (x :: xs) = some (xs.foldl furthest x) :=
  gather_some x xs

/-- What is furthest in a group may be found first, and be added to the furthest before it. -/
theorem mergeInto_mergeInto (x : Mismatch) (group best : Option Mismatch) :
    (x.mergeInto group).mergeInto best = x.mergeInto (gather best group.toList) := by
  cases group with
  | none => rfl
  | some y =>
    cases best with
    | none => rfl
    | some z => exact (furthest_assoc z y x).symm

/-- No other got further, and those before it did not get as far. -/
def IsFirstFurthest (x : Mismatch) (xs : List Mismatch) : Prop :=
  ∃ before after, xs = before ++ x :: after ∧ (∀ y ∈ before, y.pos < x.pos) ∧
    ∀ y ∈ after, y.pos ≤ x.pos

namespace IsFirstFurthest

variable {x y : Mismatch} {xs : List Mismatch}

theorem singleton (x : Mismatch) : x.IsFirstFurthest [x] :=
  ⟨[], [], rfl, nofun, nofun⟩

theorem cons (h : x.IsFirstFurthest xs) (y : Mismatch) :
    (y.furthest x).IsFirstFurthest (y :: xs) := by
  obtain ⟨before, after, rfl, hbefore, hafter⟩ := h
  unfold furthest
  split
  · next hless =>
    refine ⟨y :: before, after, rfl, fun z hz => ?_, hafter⟩
    rcases List.mem_cons.mp hz with rfl | hz
    · exact hless
    · exact hbefore z hz
  · next hnot =>
    refine ⟨[], before ++ x :: after, rfl, nofun, fun z hz => ?_⟩
    have hle : z.pos ≤ x.pos := by
      rcases List.mem_append.mp hz with hz | hz
      · exact Nat.le_of_lt (hbefore z hz)
      · rcases List.mem_cons.mp hz with rfl | hz
        · exact Nat.le_refl _
        · exact hafter z hz
    exact Nat.le_trans hle (Nat.le_of_not_lt hnot)

theorem foldl (x : Mismatch) (xs : List Mismatch) :
    (xs.foldl furthest x).IsFirstFurthest (x :: xs) := by
  induction xs generalizing x with
  | nil => exact singleton x
  | cons y ys ih =>
    rw [List.foldl_cons, List.foldl_assoc]
    exact (ih y).cons x

/-- There is no more than one. -/
theorem unique (hx : x.IsFirstFurthest xs) (hy : y.IsFirstFurthest xs) : x = y := by
  obtain ⟨before, after, rfl, hbefore, hafter⟩ := hx
  obtain ⟨before', after', heq, hbefore', hafter'⟩ := hy
  rcases List.append_eq_append_iff.mp heq with ⟨between, rfl, hrest⟩ | ⟨between, rfl, hrest⟩
  · cases between with
    | nil => exact (List.cons.inj hrest).1
    | cons z between =>
      obtain ⟨rfl, rfl⟩ := List.cons.inj hrest
      have hless := hbefore' x (List.mem_append_right _ List.mem_cons_self)
      have hle := hafter y (List.mem_append_right _ List.mem_cons_self)
      omega
  · cases between with
    | nil => exact (List.cons.inj hrest).1.symm
    | cons z between =>
      obtain ⟨rfl, rfl⟩ := List.cons.inj hrest
      have hless := hbefore y (List.mem_append_right _ List.mem_cons_self)
      have hle := hafter' x (List.mem_append_right _ List.mem_cons_self)
      omega

end IsFirstFurthest

theorem gather_none_eq_some_iff {x : Mismatch} {xs : List Mismatch} :
    gather none xs = some x ↔ x.IsFirstFurthest xs := by
  cases xs with
  | nil =>
    constructor
    · rintro ⟨⟩
    · rintro ⟨before, after, heq, -⟩
      cases before <;> cases heq
  | cons y ys =>
    have hfirst := IsFirstFurthest.foldl y ys
    rw [gather_none_cons]
    constructor
    · intro heq
      obtain rfl := Option.some.inj heq
      exact hfirst
    · intro hx
      exact congrArg some (hfirst.unique hx)

end Mismatch

/-! ## Alternatives that fail in turn -/

namespace Matcher

variable {α : Type} {empty : Mismatch} {best : Option Mismatch} {ms : List (Matcher α)}
  {s t : MatchState} {xs : List Mismatch}

/-- One after the other the matchers fail, each from where the first did, with these mismatches. -/
inductive FailInTurn : List (Matcher α) → MatchState → List Mismatch → MatchState → Prop
  | nil (s : MatchState) : FailInTurn [] s [] s
  | cons {m : Matcher α} {ms : List (Matcher α)} {s t u : MatchState} {x : Mismatch}
    {xs : List Mismatch} (hfails : EStateM.run m s = .error (.mismatch x) t)
    (hrest : FailInTurn ms (t.backAt s.cursor.pos) xs u) : FailInTurn (m :: ms) s (x :: xs) u

namespace FailInTurn

theorem failures_ne_nil (h : FailInTurn ms s xs t) (hne : ms ≠ []) : xs ≠ [] := by
  cases h with
  | nil => exact absurd rfl hne
  | cons => exact List.cons_ne_nil _ _

theorem run_firstOf (h : FailInTurn ms s xs t) (empty : Mismatch) (best : Option Mismatch) :
    EStateM.run (firstOf empty best ms) s =
      .error (.mismatch ((Mismatch.gather best xs).getD empty)) t := by
  induction h generalizing best with
  | nil s => rfl
  | @cons m ms s t u x xs hfails _ ih =>
    rw [run_firstOf_cons, hfails]
    exact ih (some (x.mergeInto best))

end FailInTurn

theorem firstOf_failInTurn (empty : Mismatch) (best : Option Mismatch) (ms : List (Matcher α))
    (s : MatchState) :
    Ensures (firstOf empty best ms) s (fun _ _ => True)
      (fun _ t => ∃ xs, FailInTurn ms s xs t) (fun _ => True) := by
  induction ms generalizing best s with
  | nil => exact ⟨[], .nil s⟩
  | cons m ms ih =>
    rw [ensures_firstOf_cons]
    apply (Ensures.run_eq m s).mono
    · exact fun _ _ _ => trivial
    · intro x t hfails
      apply (ih (some (x.mergeInto best)) (t.backAt s.cursor.pos)).mono
      · exact fun _ _ _ => trivial
      · rintro _ u ⟨xs, hrest⟩
        exact ⟨x :: xs, .cons hfails hrest⟩

/-- Where none of the alternatives matches they have all been tried, and have failed. -/
theorem run_firstOf_eq_mismatch_iff {z : Mismatch} :
    EStateM.run (firstOf empty best ms) s = .error (.mismatch z) t ↔
      ∃ xs, FailInTurn ms s xs t ∧ z = (Mismatch.gather best xs).getD empty := by
  constructor
  · intro hrun
    obtain ⟨xs, hfail⟩ := (firstOf_failInTurn empty best ms s).of_mismatch hrun
    obtain ⟨hz, -⟩ := EStateM.Result.error.inj (hrun.symm.trans (hfail.run_firstOf empty best))
    exact ⟨xs, hfail, Interrupt.mismatch.inj hz⟩
  · rintro ⟨xs, hfail, rfl⟩
    exact hfail.run_firstOf empty best

end Matcher

/-! ## Alternatives in a group -/

/-- Going back to the start once more changes nothing. -/
theorem Cursor.Advances.jump_jump {a b : Cursor} (h : a.Advances b) :
    (b.jump a.pos).jump a.pos = b.jump a.pos := by
  have hle : a.pos ≤ b.furthest := Nat.le_trans h.pos_le b.pos_le_furthest
  have hleft : (b.jump a.pos).furthest = b.furthest := Nat.max_eq_left hle
  rw [Cursor.jump, hleft]
  rfl

namespace Matcher

variable {α : Type} {best : Option Mismatch} {before inner after ms ms' : List (Matcher α)}
  {s : MatchState}

/-- Two lists of alternatives with the same first come to the same if what is left does, once
the first has failed. -/
theorem run_firstOf_cons_congr {empty empty' : Mismatch} {best best' : Option Mismatch}
    {m : Matcher α}
    (h : ∀ x t, EStateM.run m s = .error (.mismatch x) t →
      EStateM.run (firstOf empty (some (x.mergeInto best)) ms) (t.backAt s.cursor.pos) =
        EStateM.run (firstOf empty' (some (x.mergeInto best')) ms') (t.backAt s.cursor.pos)) :
    EStateM.run (firstOf empty best (m :: ms)) s =
      EStateM.run (firstOf empty' best' (m :: ms')) s := by
  rw [run_firstOf_cons, run_firstOf_cons]
  cases hrun : EStateM.run m s with
  | ok a t => rfl
  | error interrupt t =>
    cases interrupt with
    | mismatch x => exact h x t hrun
    | fault fault => rfl
    | exhausted => rfl

/-- Once an alternative has failed, what a choice of nothing fails with does not matter. -/
theorem run_firstOf_some (empty empty' x : Mismatch) (ms : List (Matcher α)) (s : MatchState) :
    EStateM.run (firstOf empty (some x) ms) s = EStateM.run (firstOf empty' (some x) ms) s := by
  induction ms generalizing x s with
  | nil => rfl
  | cons m ms ih => exact run_firstOf_cons_congr fun y t _ => ih (y.mergeInto (some x)) _

theorem run_firstOf_of_ne_nil (empty empty' : Mismatch) (best : Option Mismatch)
    (hne : ms ≠ []) (s : MatchState) :
    EStateM.run (firstOf empty best ms) s = EStateM.run (firstOf empty' best ms) s := by
  obtain ⟨m, ms, rfl⟩ := List.exists_cons_of_ne_nil hne
  exact run_firstOf_cons_congr fun x t _ => run_firstOf_some empty empty' _ ms _

theorem run_firstOf_append_congr (empty : Mismatch) (best : Option Mismatch)
    (hbefore : ∀ m ∈ before, InBounds m) (hs : s.cursor.pos ≤ s.cursor.input.length)
    (h : ∀ best t, t.cursor.pos ≤ t.cursor.input.length →
      EStateM.run (firstOf empty best ms) t = EStateM.run (firstOf empty best ms') t) :
    EStateM.run (firstOf empty best (before ++ ms)) s =
      EStateM.run (firstOf empty best (before ++ ms')) s := by
  induction before generalizing best s with
  | nil => exact h best s hs
  | cons m before ih =>
    refine run_firstOf_cons_congr fun x t hrun => ?_
    have hadvances := ((hbefore m List.mem_cons_self s hs).of_mismatch hrun).1.jump
    exact ih _ (fun m hm => hbefore m (List.mem_cons_of_mem _ hm)) hadvances.pos_le_input

/-- A group of alternatives that is an alternative itself, when `group` is the furthest of those
in it that have failed so far. Once the whole group has failed, its furthest mismatch is added to
the one before the group. The mismatches in it may as well be added one by one. -/
theorem run_firstOf_group (empty empty' : Mismatch) (best group : Option Mismatch)
    (hinner : ∀ m ∈ inner, InBounds m) (after : List (Matcher α))
    (hs : s.cursor.pos ≤ s.cursor.input.length)
    (hfails : inner = [] → group.isSome ∧ s.backAt s.cursor.pos = s) :
    EStateM.run (firstOf empty best (firstOf empty' group inner :: after)) s =
      EStateM.run (firstOf empty (Mismatch.gather best group.toList) (inner ++ after)) s := by
  induction inner generalizing group s with
  | nil =>
    -- the group has failed and gone back, and the choice around it goes back once more
    obtain ⟨hsome, hback⟩ := hfails rfl
    obtain ⟨x, rfl⟩ := Option.isSome_iff_exists.mp hsome
    rw [run_firstOf_cons]
    show EStateM.run (firstOf empty (some (x.mergeInto best)) after) (s.backAt s.cursor.pos) = _
    rw [hback]
    rfl
  | cons m inner ih =>
    have hbounds := hinner m List.mem_cons_self s hs
    rw [List.cons_append, run_firstOf_cons, run_firstOf_cons, run_firstOf_cons]
    cases hrun : EStateM.run m s with
    | ok a t => rfl
    | error interrupt t =>
      cases interrupt with
      | mismatch x =>
        have hadvances := (hbounds.of_mismatch hrun).1
        have hback : (t.backAt s.cursor.pos).backAt s.cursor.pos = t.backAt s.cursor.pos :=
          congrArg (fun cursor => { t with cursor }) hadvances.jump_jump
        have hrest := ih (some (x.mergeInto group)) (s := t.backAt s.cursor.pos)
          (fun m hm => hinner m (List.mem_cons_of_mem _ hm)) hadvances.jump.pos_le_input
          fun _ => ⟨rfl, hback⟩
        rw [run_firstOf_cons] at hrest
        dsimp only
        rw [← Mismatch.mergeInto_mergeInto]
        exact hrest
      | fault fault => rfl
      | exhausted => rfl

end Matcher

/-! ## Choices -/

namespace Expr

variable {call : Nat → Matcher Value} {before inner after es : List Expr} {s t : MatchState}

theorem evalEach_ne_nil (call : Nat → Matcher Value) (hes : es ≠ []) : evalEach call es ≠ [] := by
  rw [evalEach_eq_map]
  exact mt List.map_eq_nil_iff.mp hes

theorem run_choice_eq_mismatch_iff (hes : es ≠ []) {x : Mismatch} :
    EStateM.run ((choice es).eval call) s = .error (.mismatch x) t ↔
      ∃ failures, FailInTurn (evalEach call es) s failures t ∧ x.IsFirstFurthest failures := by
  rw [run_choice, run_firstOf_eq_mismatch_iff]
  apply exists_congr
  intro failures
  apply and_congr_right
  intro hfail
  obtain ⟨y, ys, rfl⟩ :=
    List.exists_cons_of_ne_nil (hfail.failures_ne_nil (evalEach_ne_nil call hes))
  rw [← Mismatch.gather_none_eq_some_iff, Mismatch.gather_none_cons, Option.getD_some, eq_comm,
    Option.some_inj]

/-- Alternatives of a choice within a choice may as well be alternatives of the latter. -/
theorem run_choice_nested (hcall : ∀ handle, InBounds (call handle)) (hinner : inner ≠ [])
    (before after : List Expr) (hs : s.cursor.pos ≤ s.cursor.input.length) :
    EStateM.run ((choice (before ++ choice inner :: after)).eval call) s =
      EStateM.run ((choice (before ++ inner ++ after)).eval call) s := by
  have hbounds (es : List Expr) : ∀ m ∈ evalEach call es, InBounds m :=
    mem_evalEach_inBounds fun e _ => e.eval_inBounds hcall
  have hne : evalEach call before ++ evalEach call (choice inner :: after) ≠ [] := by
    rw [← evalEach_append]
    exact evalEach_ne_nil call (List.append_ne_nil_of_right_ne_nil _ (List.cons_ne_nil _ _))
  -- the two choices differ in what they would fail with if there were no alternatives
  rw [run_choice, run_choice, List.append_assoc, evalEach_append, evalEach_append, evalEach_append,
    run_firstOf_of_ne_nil _ ⟨choice (before ++ (inner ++ after)), s.cursor.pos⟩ none hne]
  apply run_firstOf_append_congr _ _ (hbounds before) hs
  intro best t ht
  have hgroup := run_firstOf_group ⟨choice (before ++ (inner ++ after)), s.cursor.pos⟩
    ⟨choice inner, t.cursor.pos⟩ best none (hbounds inner) (evalEach call after) ht
    fun hnil => absurd hnil (evalEach_ne_nil call hinner)
  rw [evalEach, run_firstOf_cons, run_choice, ← run_firstOf_cons]
  exact hgroup

end Expr

/-! ## What choices report -/

/-- A choice among others may be replaced by its alternatives: the two come to the same value or
mismatch and leave the same state. Any choice of something that fails has had all alternatives
fail in turn, and reports the first of their failures that got furthest. -/
theorem nested_choice_flattens (rules : List Rule) (depth : Nat) (before inner after : List Expr)
    {s : MatchState} (hinner : inner ≠ []) (hs : s.cursor.pos ≤ s.cursor.input.length) :
    EStateM.run ((Expr.choice (before ++ .choice inner :: after)).eval (callRule rules depth)) s =
      EStateM.run ((Expr.choice (before ++ inner ++ after)).eval (callRule rules depth)) s ∧
    ∀ es : List Expr, es ≠ [] → ∀ x t,
      (EStateM.run ((Expr.choice es).eval (callRule rules depth)) s = .error (.mismatch x) t ↔
        ∃ failures, FailInTurn (Expr.evalEach (callRule rules depth) es) s failures t ∧
          x.IsFirstFurthest failures) :=
  ⟨Expr.run_choice_nested (callRule_inBounds rules depth) hinner before after hs,
    fun _ hes _ _ => Expr.run_choice_eq_mismatch_iff hes⟩

/-- Two alternatives for `abx` get as far as the third letter, one in front of the choice within
and one in it. The earlier of their failures is reported. -/
theorem nested_choice_flattens_with_tie :
    let c : Expr := .literal (.exact [0x63])
    let d : Expr := .literal (.exact [0x64])
    let ab : Expr := .literal (.exact [0x61, 0x62])
    let before : List Expr := [.seq [ab, c]]
    let inner : List Expr := [d, .seq [ab, d]]
    let s : MatchState := ⟨.start [0x61, 0x62, 0x78], .empty, #[]⟩
    inner ≠ [] ∧ s.cursor.pos ≤ s.cursor.input.length ∧
    ∃ t failures, FailInTurn (Expr.evalEach (callRule [] 0) (before ++ inner ++ [c])) s failures t ∧
      Mismatch.IsFirstFurthest ⟨c, 2⟩ failures ∧
      EStateM.run ((Expr.choice (before ++ .choice inner :: [c])).eval (callRule [] 0)) s =
        .error (.mismatch ⟨c, 2⟩) t := by
  intro c d ab before inner s
  have hinner : inner ≠ [] := List.cons_ne_nil _ _
  have hs : s.cursor.pos ≤ s.cursor.input.length := by decide
  obtain ⟨hsame, hreports⟩ := nested_choice_flattens [] 0 before inner [c] hinner hs
  obtain ⟨t, hrun⟩ :
      ∃ t, EStateM.run ((Expr.choice (before ++ .choice inner :: [c])).eval (callRule [] 0)) s =
        .error (.mismatch ⟨c, 2⟩) t := ⟨_, rfl⟩
  have hflat : before ++ inner ++ [c] ≠ [] := List.cons_ne_nil _ _
  obtain ⟨failures, hfail, hfirst⟩ := (hreports _ hflat _ t).mp (hsame.symm.trans hrun)
  exact ⟨hinner, hs, t, failures, hfail, hfirst, hrun⟩

end Peg
