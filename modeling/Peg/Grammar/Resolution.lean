import Peg.Grammar.Rule

/-!
Names in a list of rules: binding references to the rules they name, and
checking that every action has labels around it for the names it expects.
-/

namespace Peg

/-- Binds a reference whose name has a handle. Others stay as they are. -/
def RuleRef.bind (handle? : String → Option Nat) (ref : RuleRef) : RuleRef :=
  match handle? ref.name with
  | some handle => { ref with handle? := some handle }
  | none => ref

namespace Expr

/-- Binds a node that is a reference. -/
def bindNode (handle? : String → Option Nat) : Expr → Expr
  | rule ref => rule (ref.bind handle?)
  | e => e

/-- Binds all references inside. -/
def bind (handle? : String → Option Nat) (e : Expr) : Expr :=
  e.mapNodes (bindNode handle?)

mutual
/-- The names that actions expect and no label provides, each with the source
of the action. An action sees the names in `visible`, which come from around
it, and those bound in its own expression. -/
def missingCaptures (visible : List String) : Expr → List (String × String)
  | action e a =>
    let scope := visible ++ e.labels
    (a.captures.filter fun name => !scope.contains name).map (a.source, ·) ++
      e.missingCaptures scope
  | seq es | choice es => missingCapturesInAll visible es
  | star e | plus e | optional e | ahead e | notAhead e | discard e | label _ e | slice e
  | concat e => e.missingCaptures visible
  | literal _ | charClass _ | anyChar | rule _ => []

/-- The missing names of each expression in turn. -/
def missingCapturesInAll (visible : List String) : List Expr → List (String × String)
  | [] => []
  | e :: es => e.missingCaptures visible ++ missingCapturesInAll visible es
end

end Expr

namespace Rule

/-- Binds all references in a rule. -/
def bind (handle? : String → Option Nat) (rule : Rule) : Rule :=
  rule.mapExprs (·.bind handle?)

/-- An error for each reference to a name without a handle. -/
def unknownRules (handle? : String → Option Nat) (rule : Rule) : List GrammarError :=
  (rule.exprs.flatMap Expr.references).filterMap fun ref =>
    if (handle? ref.name).isNone then some (.unknownRule ref.name rule.name) else none

/-- An error for each name that an action expects in vain. The body of a rule,
and each operator, starts with no names but those it binds itself. -/
def unknownCaptures (rule : Rule) : List GrammarError :=
  rule.exprs.flatMap fun e =>
    (e.missingCaptures e.labels).map fun (source, name) =>
      .unknownCapture rule.name source name

end Rule

/-- The handle of a name: the first rule that has it. -/
def handleOf? (rules : List Rule) (name : String) : Option Nat :=
  rules.findIdx? (·.name = name)

/-- The names that an earlier rule has already, once for each time. -/
def repeatedNames (rules : List Rule) : List String :=
  let names := rules.map Rule.name
  (names.zipIdx.filter fun (name, i) => names.idxOf name < i).map Prod.fst

theorem lt_length_of_handleOf? {rules : List Rule} {name : String} {handle : Nat}
    (h : handleOf? rules name = some handle) : handle < rules.length := by
  obtain ⟨lt, _⟩ := List.findIdx?_eq_some_iff_getElem.1 h
  exact lt

end Peg
