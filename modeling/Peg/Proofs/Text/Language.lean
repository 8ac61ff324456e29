import Mathlib.Data.Nat.Bits
import Peg.Proofs.Outcomes
import Peg.Proofs.Text.Operand

/-!
What expressions with the same text match. The text leaves open in which order marks and
quantifiers were put on an operand. Labels and the like do not matter for where a match ends.
What looks ahead stays where it is, however it is repeated, and whether it matches is the same
in whatever order, but for one case: what may be left out cannot fail, so it matters whether
`!` was put on it or is inside. But for that, expressions with the same text match alike.
-/

namespace Peg

/-! ## Layers and outcomes -/

namespace Layer

/-- What a layer makes of the outcomes inside. -/
def outcomes : Layer → Outcomes → Outcomes
  | star => .star
  | plus => .plus
  | optional => .optional
  | ahead => .ahead
  | notAhead => .notAhead
  | _ => id

theorem Around.outcomes_eq {l : Layer} {e e' : Expr} (h : l.Around e' e)
    (calls : Nat → Outcomes) (input : Bytes) :
    e.outcomes calls input = l.outcomes (e'.outcomes calls input) := by
  cases h with
  | seq e => exact Outcomes.inTurn_singleton _
  | choice e => exact Outcomes.firstOf_singleton _
  | _ => rfl

variable {R R' : Outcomes}

theorem outcomes_compatible (l : Layer) (h : R.Compatible R') :
    (l.outcomes R).Compatible (l.outcomes R') := by
  cases l with
  | star => exact h.star
  | plus => exact h.plus
  | optional => exact h.optional
  | ahead => exact h.ahead
  | notAhead => exact h.notAhead
  | alone | discard | label | slice | concat => exact h

theorem outcomes_stays (l : Layer) (h : R.Stays) : (l.outcomes R).Stays := by
  cases l with
  | star => exact h.star
  | plus => exact h.plus
  | optional => exact h.optional
  | ahead => exact R.ahead_stays
  | notAhead => exact R.notAhead_stays
  | alone | discard | label | slice | concat => exact h

end Layer

/-- What the layers around a core make of its outcomes. -/
def outcomesWithin (layers : List Layer) (R : Outcomes) : Outcomes :=
  layers.foldr Layer.outcomes R

theorem Expr.outcomes_eq (calls : Nat → Outcomes) (input : Bytes) (e : Expr) :
    e.outcomes calls input = outcomesWithin e.layers (e.core.outcomes calls input) := by
  induction e using layers_induction with
  | bare e hlayers hcore =>
    rw [hlayers, hcore]
    rfl
  | layer l e' e h ih =>
    rw [h.outcomes_eq, h.layers_eq, h.core_eq, ih]
    rfl

/-- Some mark looks ahead. -/
def LooksAhead (marks : List Mark) : Prop :=
  .ahead ∈ marks ∨ .notAhead ∈ marks

theorem looksAhead_append {marks marks' : List Mark} :
    LooksAhead (marks ++ marks') ↔ LooksAhead marks ∨ LooksAhead marks' := by
  simp only [LooksAhead, List.mem_append]
  exact or_or_or_comm

theorem outcomesWithin_stays {layers : List Layer} (h : LooksAhead (marksOf layers))
    (R : Outcomes) : (outcomesWithin layers R).Stays := by
  induction layers with
  | nil => rcases h with h | h <;> cases h
  | cons l layers ih =>
    rw [marksOf, List.flatMap_cons, looksAhead_append] at h
    rcases h with hhere | hinner
    · cases l with
      | ahead => exact Outcomes.ahead_stays _
      | notAhead => exact Outcomes.notAhead_stays _
      | _ => simp [LooksAhead, Layer.marks] at hhere
    · exact l.outcomes_stays (ih hinner)

/-- A fold that only quantifiers and looking ahead can change needs no more of the layers than
the quantifiers where no mark looks ahead. -/
theorem foldr_quantifiersOf {α : Type} {f : Layer → α → α}
    (hf : ∀ l a, l.isQuantifier = false → ¬ LooksAhead l.marks → f l a = a) {layers : List Layer}
    (h : ¬ LooksAhead (marksOf layers)) (a : α) :
    (quantifiersOf layers).foldr f a = layers.foldr f a := by
  induction layers with
  | nil => rfl
  | cons l layers ih =>
    rw [marksOf, List.flatMap_cons, looksAhead_append, not_or] at h
    rw [List.foldr_cons, ← ih h.2, quantifiersOf, quantifiersOf]
    cases hquantifier : l.isQuantifier with
    | true => rw [List.filter_cons_of_pos hquantifier, List.foldr_cons]
    | false => rw [List.filter_cons_of_neg (by simp [hquantifier]), hf l _ hquantifier h.1]

theorem outcomesWithin_quantifiersOf {layers : List Layer} (h : ¬ LooksAhead (marksOf layers))
    (R : Outcomes) : outcomesWithin (quantifiersOf layers) R = outcomesWithin layers R := by
  refine foldr_quantifiersOf (fun l R hquantifier hmarks => ?_) h R
  cases l with
  | star | plus | optional => cases hquantifier
  | ahead | notAhead => simp [LooksAhead, Layer.marks] at hmarks
  | alone | discard | label | slice | concat => rfl

/-! ## What layers settle -/

/-- Whether there is a match, as far as that is settled by the layer or inside of it. -/
def Layer.settle : Layer → Option Bool → Option Bool
  | star, _ | optional, _ => some true
  | notAhead, inner? => inner?.map not
  | _, inner? => inner?

/-- Whether there is a match, if the layers settle that whatever is inside. -/
def settled? (layers : List Layer) : Option Bool :=
  layers.foldr Layer.settle none

theorem settled?_quantifiersOf {layers : List Layer} (h : ¬ LooksAhead (marksOf layers)) :
    settled? (quantifiersOf layers) = settled? layers := by
  refine foldr_quantifiersOf (fun l inner? hquantifier hmarks => ?_) h none
  cases l with
  | star | plus | optional => cases hquantifier
  | ahead | notAhead => simp [LooksAhead, Layer.marks] at hmarks
  | alone | discard | label | slice | concat => rfl

/-- Only what may be left out is settled. -/
theorem isSome_settled? (layers : List Layer) :
    (settled? layers).isSome = (quantifiersOf layers).any (· ≠ .plus) := by
  induction layers with
  | nil => rfl
  | cons l layers ih =>
    have hcons : settled? (l :: layers) = l.settle (settled? layers) := rfl
    rw [hcons, quantifiersOf, List.filter_cons]
    cases l <;> simp [Layer.settle, Layer.isQuantifier, ih, quantifiersOf]

/-- Whether the marks turn a match into none and the reverse. -/
def negated (marks : List Mark) : Bool :=
  (marks.count .notAhead).bodd

theorem negated_append (marks marks' : List Mark) :
    negated (marks ++ marks') = (negated marks ^^ negated marks') := by
  rw [negated, List.count_append, Nat.bodd_add]
  rfl

/-- There is a match or not as the layers settle it, or else as it comes from inside,
negated as often as the marks say. -/
def MatchesAsSettled (layers : List Layer) (R : Outcomes) (pos : Nat) (matched : Bool) : Prop :=
  match settled? layers with
  | some settled => matched = settled
  | none => ∃ inner? : Option Nat, R pos inner? ∧
      matched = (negated (marksOf layers) ^^ inner?.isSome)

section Settled

variable {l : Layer} {layers : List Layer} {R : Outcomes} {pos : Nat} {matched : Bool}

theorem MatchesAsSettled.cons (hsettle : ∀ inner?, l.settle inner? = inner?)
    (hmarks : negated l.marks = false) (h : MatchesAsSettled layers R pos matched) :
    MatchesAsSettled (l :: layers) R pos matched := by
  have hsettled : settled? (l :: layers) = settled? layers := hsettle _
  have hnegated : negated (marksOf (l :: layers)) = negated (marksOf layers) := by
    rw [marksOf, List.flatMap_cons, negated_append, hmarks, Bool.false_xor]
    rfl
  unfold MatchesAsSettled
  rwa [hsettled, hnegated]

theorem MatchesAsSettled.cons_notAhead (h : MatchesAsSettled layers R pos matched) :
    MatchesAsSettled (.notAhead :: layers) R pos !matched := by
  have hsettled : settled? (.notAhead :: layers) = (settled? layers).map not := rfl
  have hnegated : negated (marksOf (.notAhead :: layers)) = !negated (marksOf layers) := by
    rw [marksOf, List.flatMap_cons, negated_append]
    exact Bool.true_xor _
  unfold MatchesAsSettled at h ⊢
  rw [hsettled, hnegated]
  cases hinner : settled? layers with
  | some settled =>
    rw [hinner] at h
    exact congrArg not h
  | none =>
    rw [hinner] at h
    obtain ⟨inner?, hR, rfl⟩ := h
    exact ⟨inner?, hR, (Bool.not_xor _ _).symm⟩

theorem matchesAsSettled_of_outcomesWithin {stop? : Option Nat}
    (h : outcomesWithin layers R pos stop?) : MatchesAsSettled layers R pos stop?.isSome := by
  induction layers generalizing stop? with
  | nil => exact ⟨stop?, h, (Bool.false_xor _).symm⟩
  | cons l layers ih =>
    cases l with
    | star =>
      obtain ⟨stop, -, rfl⟩ := h
      rfl
    | optional =>
      rcases Outcomes.optional_iff.mp h with ⟨stop, -, rfl⟩ | ⟨-, rfl⟩
      · rfl
      · rfl
    | plus =>
      rcases Outcomes.plus_iff.mp h with ⟨hfail, rfl⟩ | ⟨mid, hmid, stop, -, rfl⟩
      · exact (ih hfail).cons (fun _ => rfl) rfl
      · exact (ih hmid).cons (fun _ => rfl) rfl
    | ahead =>
      rcases h with ⟨hfail, rfl⟩ | ⟨mid, hmid, rfl⟩
      · exact (ih hfail).cons (fun _ => rfl) rfl
      · exact (ih hmid).cons (fun _ => rfl) rfl
    | notAhead =>
      rcases h with ⟨hfail, rfl⟩ | ⟨mid, hmid, rfl⟩
      · exact (ih hfail).cons_notAhead
      · exact (ih hmid).cons_notAhead
    | alone | discard | slice | concat => exact (ih h).cons (fun _ => rfl) rfl
    | label name => exact (ih h).cons (fun _ => rfl) (by simp [negated, Layer.marks])

end Settled

section SameMarks

variable {layers layers' : List Layer} {R R' : Outcomes}

/-- Layers that are written alike, around cores that come to the same, come to the same if
they settle the same. -/
theorem outcomesWithin_compatible (hmarks : marksOf layers = marksOf layers')
    (hquantifiers : quantifiersOf layers = quantifiersOf layers')
    (hsettled : settled? layers = settled? layers') (h : R.Compatible R') :
    (outcomesWithin layers R).Compatible (outcomesWithin layers' R') := by
  by_cases hlooks : LooksAhead (marksOf layers)
  · intro pos stop? stop?' hstop hstop'
    have hmatches := matchesAsSettled_of_outcomesWithin hstop
    have hmatches' := matchesAsSettled_of_outcomesWithin hstop'
    have hmatched : stop?.isSome = stop?'.isSome := by
      unfold MatchesAsSettled at hmatches hmatches'
      rw [← hsettled, ← hmarks] at hmatches'
      cases hinner : settled? layers with
      | some settled =>
        rw [hinner] at hmatches hmatches'
        exact hmatches.trans hmatches'.symm
      | none =>
        rw [hinner] at hmatches hmatches'
        obtain ⟨inner?, hR, heq⟩ := hmatches
        obtain ⟨inner?', hR', heq'⟩ := hmatches'
        rw [heq, heq', h pos _ _ hR hR']
    have hstays := outcomesWithin_stays hlooks R
    have hstays' := outcomesWithin_stays (hmarks ▸ hlooks) R'
    rw [hstays.stop?_eq hstop, hmatched, ← hstays'.stop?_eq hstop']
  · have hlooks' : ¬ LooksAhead (marksOf layers') := hmarks ▸ hlooks
    rw [← outcomesWithin_quantifiersOf hlooks, ← outcomesWithin_quantifiersOf hlooks',
      ← hquantifiers]
    induction quantifiersOf layers with
    | nil => exact h
    | cons l layers ih => exact l.outcomes_compatible ih

/-- If they settle different things, then one of them fails wherever the other matches, and
matches nothing where the other fails. -/
theorem outcomesWithin_opposite (hmarks : marksOf layers = marksOf layers')
    (hquantifiers : quantifiersOf layers = quantifiersOf layers')
    (hsettled : settled? layers ≠ settled? layers') {pos : Nat} {stop? stop?' : Option Nat}
    (hstop : outcomesWithin layers R pos stop?) (hstop' : outcomesWithin layers' R' pos stop?') :
    (stop? = none ∧ stop?' = some pos) ∨ (stop? = some pos ∧ stop?' = none) := by
  have hlooks : LooksAhead (marksOf layers) := by
    by_contra hlooks
    have hlooks' : ¬ LooksAhead (marksOf layers') := hmarks ▸ hlooks
    rw [← settled?_quantifiersOf hlooks, ← settled?_quantifiersOf hlooks',
      hquantifiers] at hsettled
    exact hsettled rfl
  have hstays := outcomesWithin_stays hlooks R
  have hstays' := outcomesWithin_stays (hmarks ▸ hlooks) R'
  have hboth : (settled? layers).isSome = (settled? layers').isSome := by
    rw [isSome_settled?, isSome_settled?, hquantifiers]
  have hmatches := matchesAsSettled_of_outcomesWithin hstop
  have hmatches' := matchesAsSettled_of_outcomesWithin hstop'
  unfold MatchesAsSettled at hmatches hmatches'
  cases hinner : settled? layers with
  | none =>
    rw [hinner] at hboth hsettled
    exact absurd (Option.isNone_iff_eq_none.mp (by simpa using hboth.symm)).symm hsettled
  | some settled =>
    cases hinner' : settled? layers' with
    | none =>
      rw [hinner, hinner'] at hboth
      cases hboth
    | some settled' =>
      rw [hinner] at hmatches hsettled
      rw [hinner'] at hmatches' hsettled
      dsimp only at hmatches hmatches'
      rw [hstays.stop?_eq hstop, hstays'.stop?_eq hstop', hmatches, hmatches']
      cases settled <;> cases settled'
      · exact absurd rfl hsettled
      · exact Or.inl ⟨rfl, rfl⟩
      · exact Or.inr ⟨rfl, rfl⟩
      · exact absurd rfl hsettled

end SameMarks

/-! ## Expressions with the same text -/

/-- The references are bound to the rules with their names. -/
def Expr.BoundIn (rules : List Rule) (e : Expr) : Prop :=
  ∀ ref, (Expr.rule ref).Occurs e → ref.handle? = handleOf? rules ref.name

namespace Expr

variable {rules : List Rule} {input : Bytes} {e f : Expr}

theorem boundIn_iff :
    e.BoundIn rules ↔ ∀ ref ∈ e.references, ref.handle? = handleOf? rules ref.name := by
  simp only [mem_references_iff, BoundIn]

instance (rules : List Rule) (e : Expr) : Decidable (e.BoundIn rules) :=
  decidable_of_iff _ boundIn_iff.symm

theorem BoundIn.part {part : Expr} (h : e.BoundIn rules) (hpart : part ∈ e.children) :
    part.BoundIn rules :=
  fun ref href => h ref (.inside hpart href)

theorem BoundIn.core (h : e.BoundIn rules) : e.core.BoundIn rules :=
  core_of_part (fun _ _ h hpart => h.part hpart) h

/-- Each operand of the one settles what the operand in the same place of the other does. -/
inductive SettlesAlike : Expr → Expr → Prop
  | intro {e f : Expr} (hsettled : settled? e.layers = settled? f.layers)
    (hparts : List.Forall₂ SettlesAlike e.core.children f.core.children) : SettlesAlike e f

theorem SameKind.compatible (h : SameKind e f) (he : e.BoundIn rules) (hf : f.BoundIn rules)
    (hparts : List.Forall₂ (fun e f => (e.outcomes (callOutcomes rules input) input).Compatible
      (f.outcomes (callOutcomes rules input) input)) e.children f.children) :
    (e.outcomes (callOutcomes rules input) input).Compatible
      (f.outcomes (callOutcomes rules input) input) := by
  cases h with
  | literal l => exact .taking input l.width?
  | @charClass c c' hcontains =>
    have hwidth : c.width? = c'.width? := by
      funext rest
      rw [CharClass.width?, CharClass.width?, hcontains]
    rw [outcomes, outcomes, hwidth]
    exact .taking input c'.width?
  | anyChar => exact .taking input _
  | rule hname =>
    rintro pos stop? stop?' ⟨handle, hhandle, hcall⟩ ⟨handle', hhandle', hcall'⟩
    rw [he _ .self, hname, ← hf _ .self, hhandle'] at hhandle
    obtain rfl := Option.some.inj hhandle
    exact callOutcomes_compatible rules input _ pos _ _ hcall hcall'
  | seq es es' =>
    rw [outcomes, outcomes, outcomesOfAll_eq_map, outcomesOfAll_eq_map]
    exact .inTurn (List.forall₂_map_left_iff.mpr (List.forall₂_map_right_iff.mpr hparts))
  | choice es es' =>
    rw [outcomes, outcomes, outcomesOfAll_eq_map, outcomesOfAll_eq_map]
    exact .firstOf (List.forall₂_map_left_iff.mpr (List.forall₂_map_right_iff.mpr hparts))

theorem Alike.compatible (halike : Alike e f) (hsettles : SettlesAlike e f)
    (he : e.BoundIn rules) (hf : f.BoundIn rules) :
    (e.outcomes (callOutcomes rules input) input).Compatible
      (f.outcomes (callOutcomes rules input) input) := by
  induction e using core_induction generalizing f with
  | step e ih =>
    obtain ⟨hmarks, hquantifiers, hkind, hparts⟩ := halike
    obtain ⟨hsettled, hsettles⟩ := hsettles
    have hcore : (e.core.outcomes (callOutcomes rules input) input).Compatible
        (f.core.outcomes (callOutcomes rules input) input) := by
      refine hkind.compatible he.core hf.core ?_
      rw [List.forall₂_iff_zip] at hparts hsettles ⊢
      refine ⟨hparts.1, fun {part part'} hpair => ?_⟩
      obtain ⟨hpart, hpart'⟩ := List.of_mem_zip hpair
      exact ih part hpart (hparts.2 hpair) (hsettles.2 hpair) (he.core.part hpart)
        (hf.core.part hpart')
    rw [e.outcomes_eq, f.outcomes_eq]
    exact outcomesWithin_compatible hmarks hquantifiers hsettled hcore

end Expr

open Matcher

/-- Two expressions with the same text, made of what can be read, tried in the same place with
the same rules. If each operand of the one settles what that of the other does, and if both
come to an end, then they come to the same: both fail, or both match up to the same position.
If they themselves settle different things, then one fails and the other matches nothing. -/
theorem same_text_same_end (rules : List Rule) {e f : Expr} (he : e.Readable) (hf : f.Readable)
    (hbound : e.BoundIn rules) (hbound' : f.BoundIn rules)
    (htext : e.render false = f.render false) {s s' : MatchState}
    (hinput : s'.cursor.input = s.cursor.input) (hpos : s'.cursor.pos = s.cursor.pos)
    (hs : s.cursor.pos ≤ s.cursor.input.length) {depth depth' : Nat} {stop? stop?' : Option Nat}
    (hend : EndsAt (e.eval (callRule rules depth)) s stop?)
    (hend' : EndsAt (f.eval (callRule rules depth')) s' stop?') :
    (e.SettlesAlike f → stop? = stop?') ∧
    (settled? e.layers ≠ settled? f.layers →
      (stop? = none ∧ stop?' = some s.cursor.pos) ∨
        (stop? = some s.cursor.pos ∧ stop?' = none)) := by
  have halike := he.alike hf htext
  have hout := Expr.outcomes_of_endsAt hs hend
  have hout' := Expr.outcomes_of_endsAt (hinput ▸ hpos ▸ hs) hend'
  rw [hinput, hpos] at hout'
  constructor
  · intro hsettles
    exact halike.compatible hsettles hbound hbound' _ _ _ hout hout'
  · intro hsettled
    obtain ⟨hmarks, hquantifiers, -, -⟩ := halike
    rw [Expr.outcomes_eq] at hout hout'
    exact outcomesWithin_opposite hmarks hquantifiers hsettled hout hout'

/-- Looking ahead for a rule again and again, and looking ahead for it as often as it is there:
both are written `&x:A*`, and both stay where they are. -/
theorem same_text_same_end_of_repeated_lookahead :
    let rules : List Rule := [⟨"A", .plain, .expr (.literal (.exact [0x61]))⟩]
    let a : Expr := .label "x" (.rule ⟨"A", some 0⟩)
    let e : Expr := .star (.ahead a)
    let f : Expr := .ahead (.star a)
    let s := MatchState.fresh [0x61, 0x61] 0
    e.Readable ∧ f.Readable ∧ e.BoundIn rules ∧ f.BoundIn rules ∧
    e.render false = f.render false ∧ s.cursor.pos ≤ s.cursor.input.length ∧
    e.SettlesAlike f ∧ ∃ stop? stop?', EndsAt (e.eval (callRule rules 1)) s stop? ∧
      EndsAt (f.eval (callRule rules 1)) s stop?' ∧ stop? = stop?' := by
  intro rules a e f s
  have he : e.Readable := by decide
  have hf : f.Readable := by decide
  have hbound : e.BoundIn rules := by decide
  have hbound' : f.BoundIn rules := by decide
  have htext : e.render false = f.render false := by decide
  have hs : s.cursor.pos ≤ s.cursor.input.length := by decide
  have hend : EndsAt (e.eval (callRule rules 1)) s (some 0) := ⟨_, _, rfl, rfl⟩
  have hend' : EndsAt (f.eval (callRule rules 1)) s (some 0) := ⟨_, _, rfl, rfl⟩
  have hsettles : e.SettlesAlike f := ⟨rfl, .nil⟩
  have hsame := same_text_same_end rules he hf hbound hbound' htext rfl rfl hs hend hend'
  exact ⟨he, hf, hbound, hbound', htext, hs, hsettles, _, _, hend, hend', hsame.1 hsettles⟩

/-- What is not the letter again and again, and what is not the letter as often as it is
there: both are written `!"a"*`, the one always matches and the other never does. -/
theorem same_text_other_end :
    let letter : Expr := .literal (.exact [0x61])
    let e : Expr := .star (.notAhead letter)
    let f : Expr := .notAhead (.star letter)
    let s := MatchState.fresh [0x62] 0
    e.Readable ∧ f.Readable ∧ e.render false = f.render false ∧ e.render false = "!\"a\"*" ∧
    EndsAt (e.eval (callRule [] 0)) s (some 0) ∧ EndsAt (f.eval (callRule [] 0)) s none := by
  intro letter e f s
  exact ⟨by decide, by decide, by decide, by decide, ⟨_, _, rfl, rfl⟩, ⟨_, _, rfl⟩⟩

end Peg
