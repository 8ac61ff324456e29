import Peg.Matcher

/-!
What each expression matches. Rule references go through a given `call`, so
that an expression has a meaning with or without a grammar around it.
-/

namespace Peg

/-- The stretch from the first to the last token or composite among the leaves
of a value, or nothing at `start` where there is none. -/
def Value.extent (start : Nat) (value : Value) : Except Fault Span :=
  match value.leaves.filterMap Value.span? with
  | [] => .ok (Span.empty start)
  | first :: rest => Span.between first.start (rest.getLast?.getD first).stop

namespace Expr

open Matcher

mutual
/-- Matches an expression. A sequence does not go back when a part fails; the
combinators that handle mismatches do. -/
def eval (call : Nat → Matcher Value) : Expr → Matcher Value
  | literal l => terminal (literal l) l.width?
  | charClass c => terminal (charClass c) c.width?
  | anyChar => terminal anyChar fun rest => (Utf8.first? rest).map Utf8.Segment.size
  | seq es => .list <$> evalParts call es
  | choice es => do
    let start ← position
    firstOf ⟨choice es, start⟩ none (evalEach call es)
  | star e => .list <$> many (.idleBody e) (e.eval call) []
  | plus e => do
    let before := (← get).cursor
    let first ← e.eval call
    if (← get).cursor.remaining.length < before.remaining.length then
      .list <$> many (.idleBody e) (e.eval call) [first]
    else
      note (.idleBody e before.pos)
      return .list [first]
  | optional e => do
    let start ← position
    match ← probe (e.eval call) with
    | .ok value => return value
    | .error _ => return .token (Span.empty start)
  | ahead e => do
    let start ← position
    match ← survey (e.eval call) with
    | .ok _ => return .token (Span.empty start)
    | .error mismatch => throw (.mismatch mismatch)
  | notAhead e => do
    let start ← position
    match ← survey (e.eval call) with
    | .ok _ => mismatch (notAhead e) start
    | .error _ => return .token (Span.empty start)
  | discard e => e.eval call
  | label name e => do
    let value ← e.eval call
    bindName name value
    return value
  | action e a => do
    let (value, captures) ← withScope (← get).scope (e.eval call)
    ofFault (a.run (← context captures) value)
  | slice e => do
    let start ← position
    let value ← e.eval call
    .token <$> ofFault (value.extent start)
  | concat e => do
    let start ← position
    let value ← e.eval call
    let cursor := (← get).cursor
    let content ← ofFault (value.bytes cursor.input)
    let span ← ofFault (cursor.spanSince start)
    return .composite ⟨span, content⟩
  | rule ref =>
    match ref.handle? with
    | some handle => call handle
    | none => throw (.fault (.unresolvedRule ref.name))

/-- Matches the parts of a sequence in turn and collects the values of all but
the discarded ones. -/
def evalParts (call : Nat → Matcher Value) : List Expr → Matcher (List Value)
  | [] => return []
  | e :: es => do
    let value ← e.eval call
    let values ← evalParts call es
    return if e.isDiscard then values else value :: values

/-- The matcher of each expression. -/
def evalEach (call : Nat → Matcher Value) : List Expr → List (Matcher Value)
  | [] => []
  | e :: es => e.eval call :: evalEach call es
end

theorem evalEach_eq_map (call : Nat → Matcher Value) (es : List Expr) :
    evalEach call es = es.map (eval call) := by
  induction es with
  | nil => rfl
  | cons e es ih => simp [evalEach, ih]

end Expr

end Peg
