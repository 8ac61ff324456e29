import Peg.Proofs.Matcher.Bounds
import Peg.Proofs.Matcher.Counterparts

/-!
An expression matched again in the same place. By then other names may be bound, so actions
may come to other values; but no value has a say in where a match ends. Unless it ends in a
fault, the second match ends as the first did: in the same place, or in the same mismatch.
It also ends where the first did, as long as calls may nest no less deep.
-/

namespace Peg

open Matcher

/-- The states are in the same place of one input. -/
structure MatchState.SamePosition (s s' : MatchState) : Prop where
  input_eq : s.cursor.input = s'.cursor.input
  pos_eq : s.cursor.pos = s'.cursor.pos

theorem MatchState.SamePosition.lockstep : Lockstep Eq MatchState.SamePosition where
  input_eq h := h.input_eq
  pos_eq h := h.pos_eq
  setScope h _ _ := ⟨h.input_eq, h.pos_eq⟩
  jump h _ _ _ := ⟨h.input_eq, rfl⟩
  advance h size _ := ⟨h.input_eq, congrArg (· + size) h.pos_eq⟩
  push h _ := ⟨h.input_eq, h.pos_eq⟩
  pushIdle h _ _ _ _ := ⟨h.input_eq, h.pos_eq⟩

/-- Two runs in the same place, the first of which has ended. The second may still end in a
fault, and if it is not allowed to go as deep it may be cut short there. -/
def Correspondence.ofReplay (shallower : Prop) : Correspondence where
  node := Eq
  handle := Eq
  view := MatchState.SamePosition
  exact := False
  confined := False
  cutsFirst interrupt := ∀ x, interrupt ≠ .mismatch x
  cutsSecond interrupt :=
    (∃ fault, interrupt = .fault fault) ∨ shallower ∧ interrupt = .exhausted
  node_refl _ := rfl
  lockstep := MatchState.SamePosition.lockstep
  mismatch_not_cut x := by
    refine ⟨fun h => h x rfl, ?_⟩
    rintro (⟨fault, h⟩ | ⟨-, h⟩)
    · cases h
    · cases h
  fault_cut _ fault := by
    refine ⟨?_, Or.inl ⟨fault, rfl⟩⟩
    rintro x ⟨⟩

/-- Wherever else it is matched in this place of the input, the expression ends so unless it
ends in a fault: whatever names are bound and whatever has happened before. It does end if
calls may nest `depth` deep. -/
def Expr.AlwaysEnds (rules : List Rule) (depth : Nat) (e : Expr) (input : Bytes) (pos : Nat)
    (ok : Nat → Prop) (failed : Mismatch → Prop) : Prop :=
  ∀ (depth' : Nat) (s : MatchState), s.cursor.input = input → s.cursor.pos = pos →
    Ensures (e.eval (callRule rules depth')) s (fun _ t => ok t.cursor.pos) (fun x _ => failed x)
      (fun interrupt => interrupt = .exhausted → depth' < depth)

section Replay

variable {rules : List Rule} {depth depth' : Nat} {e : Expr} {s s' t : MatchState}

theorem Expr.eval_replays (rules : List Rule) (depth depth' : Nat) (e : Expr)
    (h : s.SamePosition s') :
    (Correspondence.ofReplay (depth' < depth)).Results []
      (Correspondence.ofReplay (depth' < depth)).Same
      (EStateM.run (e.eval (callRule rules depth)) s)
      (EStateM.run (e.eval (callRule rules depth')) s') := by
  have hrules : (Correspondence.ofReplay (depth' < depth)).Rules rules rules := by
    apply Correspondence.Rules.of_map id (rfl : rules.map id = rules.map id)
    rintro rule _ rfl
    exact .refl (fun _ => rfl) rule
  have hdepth : (Correspondence.ofReplay (depth' < depth)).Depths depth depth' :=
    ⟨fun _ _ => nofun, fun hlt => Or.inr ⟨hlt, rfl⟩⟩
  have he : e.Counterpart (.ofReplay (depth' < depth)) [] e := .refl (fun _ => rfl) False.elim
  exact he.eval_coupled (fun _ _ hh _ => callRule_coupled hrules hdepth hh) s s'
    ⟨h, False.elim, False.elim⟩

theorem Expr.alwaysEnds_of_run_ok {v : Value}
    (hrun : EStateM.run (e.eval (callRule rules depth)) s = .ok v t) :
    e.AlwaysEnds rules depth s.cursor.input s.cursor.pos (· = t.cursor.pos) (fun _ => False) := by
  intro depth' s' hinput hpos
  have hresults := e.eval_replays rules depth depth' ⟨hinput.symm, hpos.symm⟩
  rw [hrun] at hresults
  unfold Ensures
  generalize EStateM.run (e.eval (callRule rules depth')) s' = result' at hresults ⊢
  cases hresults with
  | ok _ ht => exact ht.view.pos_eq.symm
  | cutSecond hcut =>
    rcases hcut with ⟨fault, rfl⟩ | ⟨hlt, rfl⟩
    · exact nofun
    · exact fun _ => hlt

theorem Expr.alwaysEnds_of_run_mismatch {x : Mismatch}
    (hrun : EStateM.run (e.eval (callRule rules depth)) s = .error (.mismatch x) t) :
    e.AlwaysEnds rules depth s.cursor.input s.cursor.pos (fun _ => False) (· = x) := by
  intro depth' s' hinput hpos
  have hresults := e.eval_replays rules depth depth' ⟨hinput.symm, hpos.symm⟩
  rw [hrun] at hresults
  unfold Ensures
  generalize EStateM.run (e.eval (callRule rules depth')) s' = result' at hresults ⊢
  cases hresults with
  | error h _ =>
    cases h with
    | @mismatch _ x' h =>
      obtain ⟨expr, pos⟩ := x
      obtain ⟨expr', pos'⟩ := x'
      obtain ⟨rfl, rfl⟩ := h
      rfl
  | cutFirst hcut => exact absurd rfl (hcut x)
  | cutSecond hcut =>
    rcases hcut with ⟨fault, rfl⟩ | ⟨hlt, rfl⟩
    · exact nofun
    · exact fun _ => hlt

theorem Expr.AlwaysEnds.mono {input : Bytes} {pos : Nat} {ok ok' : Nat → Prop}
    {failed failed' : Mismatch → Prop} (h : e.AlwaysEnds rules depth input pos ok failed)
    (hdepth : depth ≤ depth') (hok : ∀ stop, ok stop → ok' stop)
    (hfailed : ∀ x, failed x → failed' x) :
    e.AlwaysEnds rules depth' input pos ok' failed' := by
  intro depth'' s hinput hpos
  have hends := (h depth'' s hinput hpos).mono (fun _ t => hok t.cursor.pos) fun x _ => hfailed x
  apply hends.imp_cut
  intro interrupt hcut hexhausted
  exact Nat.lt_of_lt_of_le (hcut hexhausted) hdepth

end Replay

end Peg
