import Peg.Event
import Peg.Grammar.Resolution

/-!
Grammars and how they are built. A blueprint lists definitions and says with
which rule to start; it becomes a grammar only when nothing is wrong with it,
and otherwise all that is wrong is reported together.
-/

namespace Peg

/-- Rules whose references are bound, and the rule to start with. -/
structure Grammar where
  name? : Option String
  rules : List Rule
  entry : Nat
  entry_lt : entry < rules.length

namespace Grammar

def handle? (grammar : Grammar) (name : String) : Option Nat :=
  handleOf? grammar.rules name

/-- The rule with a name. -/
def rule? (grammar : Grammar) (name : String) : Option Rule :=
  (grammar.handle? name).bind (grammar.rules[·]?)

def size (grammar : Grammar) : Nat :=
  grammar.rules.length

/-- The rule to start with. -/
def entryRule (grammar : Grammar) : Rule :=
  grammar.rules.get ⟨grammar.entry, grammar.entry_lt⟩

/-- How many rules are levels of precedence rules. -/
def levelCount (grammar : Grammar) : Nat :=
  grammar.rules.countP (·.kind = .precedenceLevel)

end Grammar

/-- The definitions of a grammar, its name, and the rule to start with if that
is not the first. -/
structure Blueprint where
  definitions : List Definition
  name? : Option String := none
  entry? : Option String := none

namespace Blueprint

/-- The rules of all definitions, with references as they were written. -/
def rules (blueprint : Blueprint) : List Rule :=
  Definition.expandAll 0 blueprint.definitions

/-- The handle of the rule to start with, if there is such a rule. -/
def entryHandle? (blueprint : Blueprint) : Option Nat :=
  match blueprint.entry? with
  | some name => handleOf? blueprint.rules name
  | none => if blueprint.rules = [] then none else some 0

theorem lt_length_of_entryHandle? {blueprint : Blueprint} {handle : Nat}
    (h : blueprint.entryHandle? = some handle) : handle < blueprint.rules.length := by
  unfold entryHandle? at h
  split at h
  · exact lt_length_of_handleOf? h
  · split at h
    · cases h
    · next nonempty =>
      cases h
      exact List.length_pos_iff.2 nonempty

/-- The errors that concern more than one definition: no definitions at all,
names defined twice, references to no rule, names that actions expect in vain,
and a start that is no rule. -/
def jointErrors (blueprint : Blueprint) : List GrammarError :=
  let rules := blueprint.rules
  (if rules = [] then [.empty] else []) ++
    (repeatedNames rules).map .duplicateRule ++
    rules.flatMap (Rule.unknownRules (handleOf? rules)) ++
    rules.flatMap Rule.unknownCaptures ++
    match blueprint.entry? with
    | some name => if (handleOf? rules name).isNone then [.unknownEntry name] else []
    | none => []

/-- All errors, in the order in which they are reported. -/
def errors (blueprint : Blueprint) : List GrammarError :=
  blueprint.definitions.flatMap Definition.errors ++ blueprint.jointErrors

/-- The grammar, or everything that is wrong with the blueprint. -/
def build (blueprint : Blueprint) : Except (List GrammarError) Grammar :=
  match blueprint.errors, h : blueprint.entryHandle? with
  | [], some entry =>
    .ok {
      name? := blueprint.name?
      rules := blueprint.rules.map (Rule.bind (handleOf? blueprint.rules))
      entry := entry
      entry_lt := by simpa using lt_length_of_entryHandle? h }
  | errors, _ => .error errors

/-- What is noted while a definition is split into rules. -/
def definitionEvents : Definition → List Event
  | .plain _ _ => []
  | .precedence rule =>
    if rule.errors = [] then [.levelsMade rule.name (rule.levels.length + 1)]
    else rule.errors.map .mistake

/-- What is noted while the grammar is built: precedence rules split into
levels, every error, and the grammar if there is one. -/
def events (blueprint : Blueprint) : List Event :=
  blueprint.definitions.flatMap definitionEvents ++ blueprint.jointErrors.map .mistake ++
    match blueprint.build with
    | .ok grammar =>
      [.built (grammar.name?.getD "") grammar.size grammar.levelCount grammar.entryRule.name]
    | .error _ => []

end Blueprint

end Peg
