import Peg.Cursor
import Peg.Event
import Peg.Mismatch

/-!
Matchers: computations that read an input through a cursor, bind names, and
note events. A matcher that does not match raises a mismatch and leaves the
cursor where it got to; going back is the business of whoever handles the
mismatch. The combinators here say what each way of putting matchers together
does with the cursor, the names and the mismatches; they know nothing of
expressions.
-/

namespace Peg

/-- What a match reads and changes. -/
structure MatchState where
  cursor : Cursor
  /-- The names bound so far in the rule or operator being matched. -/
  scope : Captures
  /-- What happened so far. -/
  events : Array Event

/-- Why a match came to no value. -/
inductive Interrupt where
  /-- The input is not what was asked for. -/
  | mismatch (mismatch : Mismatch)
  /-- A rule of use was broken; the match cannot go on. -/
  | fault (fault : Fault)
  /-- Rule calls nested deeper, or a loop went on for longer, than was allowed. -/
  | exhausted

/-- A computation with a cursor, a scope and a record of events, all of which
stay as they are when it is interrupted. -/
abbrev Matcher := EStateM Interrupt MatchState

namespace Matcher

/-! ## Single steps -/

def position : Matcher Nat :=
  return (← get).cursor.pos

/-- Goes back to a position. -/
def rewind (pos : Nat) : Matcher Unit :=
  modify fun s => { s with cursor := s.cursor.jump pos }

def note (event : Event) : Matcher Unit :=
  modify fun s => { s with events := s.events.push event }

/-- Binds a name in the current scope. -/
def bindName (name : String) (value : Value) : Matcher Unit :=
  modify fun s => { s with scope := s.scope.insert name value }

/-- Raises the mismatch of an expression at a position. -/
def mismatch {α : Type} (expr : Expr) (pos : Nat) : Matcher α :=
  throw (.mismatch ⟨expr, pos⟩)

/-- A result that may be a fault. -/
def ofFault {α : Type} : Except Fault α → Matcher α
  | .ok a => return a
  | .error fault => throw (.fault fault)

/-- Takes as many bytes as `width?` says, or raises the mismatch of `expr`. -/
def terminal (expr : Expr) (width? : Bytes → Option Nat) : Matcher Value := do
  let cursor := (← get).cursor
  match cursor.take? width? with
  | some (span, after) =>
    modify fun s => { s with cursor := after }
    return .token span
  | none => mismatch expr cursor.pos

/-! ## Handling mismatches -/

/-- Makes a mismatch a result. Cursor, scope and events stay as it left them. -/
def attempt {α : Type} (m : Matcher α) : Matcher (Except Mismatch α) := fun s =>
  match m s with
  | .ok a s => .ok (.ok a) s
  | .error (.mismatch mismatch) s => .ok (.error mismatch) s
  | .error interrupt s => .error interrupt s

/-- Tries a matcher. Where it does not match, the cursor goes back. -/
def probe {α : Type} (m : Matcher α) : Matcher (Except Mismatch α) := do
  let start ← position
  match ← attempt m with
  | .ok a => return .ok a
  | .error mismatch =>
    rewind start
    return .error mismatch

/-- Tries a matcher. The cursor goes back in any case. -/
def survey {α : Type} (m : Matcher α) : Matcher (Except Mismatch α) := do
  let start ← position
  let result ← attempt m
  rewind start
  return result

/-- The first matcher that matches. Where none does, the furthest of their
mismatches and `best` is raised, and `empty` where there is none at all. -/
def firstOf {α : Type} (empty : Mismatch) (best : Option Mismatch) :
    List (Matcher α) → Matcher α
  | [] => throw (.mismatch (best.getD empty))
  | m :: ms => do
    match ← probe m with
    | .ok a => return a
    | .error mismatch => firstOf empty (some (mismatch.mergeInto best)) ms

/-! ## Repetition -/

/-- Takes at most `bound` steps and is cut short where it would take more, see `iterate`. -/
def iterateWithin {α : Type} (idle : Nat → Event) (step : α → Matcher (Option α)) :
    (bound : Nat) → α → Matcher α
  | 0, _ => throw .exhausted
  | bound + 1, a => do
    let before := (← get).cursor
    match ← step a with
    | none => return a
    | some b =>
      if (← get).cursor.remaining.length < before.remaining.length then
        iterateWithin idle step bound b
      else
        note (idle before.pos)
        return b

/-- Steps on from `a` for as long as there is a next result and each step takes
some input. A step that takes none is the last; it is noted and its result is
kept. There cannot be more steps than bytes, but for the last, so that the bound
never cuts it short. -/
def iterate {α : Type} (idle : Nat → Event) (step : α → Matcher (Option α)) (a : α) :
    Matcher α := do
  let bound := (← get).cursor.remaining.length + 1
  iterateWithin idle step bound a

/-- Adds the values of a matcher to those before, as often as it matches. -/
def many (idle : Nat → Event) (m : Matcher Value) (before : List Value) :
    Matcher (List Value) :=
  iterate idle (fun values => do
    match ← probe m with
    | .ok value => return some (values ++ [value])
    | .error _ => return none) before

/-! ## Scopes -/

/-- Runs a matcher in a scope of its own and gives the names it bound there
beside its result. The scope around it stays as it was. -/
def withScope {α : Type} (scope : Captures) (m : Matcher α) : Matcher (α × Captures) := fun s =>
  match m { s with scope } with
  | .ok a after => .ok (a, after.scope) { after with scope := s.scope }
  | .error interrupt after => .error interrupt { after with scope := s.scope }

/-- What an action sees, given the names bound for it. -/
def context (captures : Captures) : Matcher ActionContext :=
  return ⟨(← get).cursor.input, captures⟩

/-! ## Rule calls -/

/-- Notes the beginning and the end of a rule call. -/
def traced (rule : String) (m : Matcher Value) : Matcher Value := do
  let start ← position
  note (.entered rule start)
  match ← attempt m with
  | .ok value =>
    note (.matched rule start (← position))
    return value
  | .error mismatch =>
    note (.failed rule mismatch.pos)
    throw (.mismatch mismatch)

end Matcher

end Peg
