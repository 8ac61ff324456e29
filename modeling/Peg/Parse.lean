import Peg.Grammar
import Peg.Matcher.Rule

/-!
Parsing: an expression on its own, or the rules of a grammar, matched on a
cursor from an empty scope.
-/

namespace Peg

/-- What a parse came to, where it left the cursor, and what happened. -/
structure Run where
  outcome : Except Interrupt Value
  cursor : Cursor
  events : Array Event

/-- Runs a matcher on a cursor, from an empty scope. -/
def Matcher.runOn (m : Matcher Value) (cursor : Cursor) : Run :=
  match m ⟨cursor, .empty, #[]⟩ with
  | .ok value s => ⟨.ok value, s.cursor, s.events⟩
  | .error interrupt s => ⟨.error interrupt, s.cursor, s.events⟩

/-- Matches an expression on its own. References to rules are faults. -/
def Expr.parse (e : Expr) (cursor : Cursor) : Run :=
  (e.eval fun handle => throw (.fault (.noGrammar handle))).runOn cursor

namespace Grammar

/-- How deep rule calls can nest from a cursor without calling the same rule
twice at the same position. -/
def callDepth (grammar : Grammar) (cursor : Cursor) : Nat :=
  (cursor.remaining.length + 1) * grammar.size + 1

/-- Calls the rule with a handle. -/
def parseHandle (grammar : Grammar) (handle : Nat) (cursor : Cursor) : Run :=
  (callRule grammar.rules (grammar.callDepth cursor) handle).runOn cursor

/-- Parses from the rule to start with. -/
def parse (grammar : Grammar) (cursor : Cursor) : Run :=
  grammar.parseHandle grammar.entry cursor

/-- Parses from the rule with a name, if there is one. -/
def parseRule (grammar : Grammar) (name : String) (cursor : Cursor) :
    Except GrammarError Run :=
  match grammar.handle? name with
  | some handle => .ok (grammar.parseHandle handle cursor)
  | none => .error (.unknownEntry name)

end Grammar

end Peg
