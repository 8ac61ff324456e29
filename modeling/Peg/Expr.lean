import Peg.Action
import Peg.CharClass
import Peg.Literal

/-!
Parsing expressions, and what can be read off them without matching: their
parts, the rules they refer to, and the names they bind.
-/

namespace Peg

/-- A reference to a rule by name. A grammar binds it to the handle of the rule. -/
structure RuleRef where
  name : String
  handle? : Option Nat := none
deriving DecidableEq

/-- A parsing expression. -/
inductive Expr where
  /-- The bytes of the literal. -/
  | literal (literal : Literal)
  /-- One character of the class. -/
  | charClass (cls : CharClass)
  /-- Any one character. -/
  | anyChar
  /-- The parts one after another. -/
  | seq (parts : List Expr)
  /-- The first alternative that matches. -/
  | choice (alternatives : List Expr)
  /-- The body as often as it matches. -/
  | star (body : Expr)
  /-- The body as often as it matches, at least once. -/
  | plus (body : Expr)
  /-- The body, or nothing. -/
  | optional (body : Expr)
  /-- Nothing, where the body would match. -/
  | ahead (body : Expr)
  /-- Nothing, where the body would not match. -/
  | notAhead (body : Expr)
  /-- The body; its value is left out of the sequence around it. -/
  | discard (body : Expr)
  /-- The body; its value is bound to the name. -/
  | label (name : String) (body : Expr)
  /-- The body, with the value that the action makes of it. -/
  | action (body : Expr) (action : Action)
  /-- The body, as the span of what it matched. -/
  | slice (body : Expr)
  /-- The body, as its content joined into one composite. -/
  | concat (body : Expr)
  /-- What the rule matches. -/
  | rule (ref : RuleRef)

namespace Expr

/-- The literal with the bytes of a text. -/
def text (text : String) : Expr :=
  literal (.exact (Utf8.encode text))

/-- A reference to a rule that no grammar has bound yet. -/
def ruleNamed (name : String) : Expr :=
  rule ⟨name, none⟩

/-- Whether a sequence leaves out the value of this part. -/
def isDiscard : Expr → Bool
  | discard _ => true
  | _ => false

/-! ## Parts -/

/-- The expressions directly inside. References are not followed. -/
def children : Expr → List Expr
  | literal _ | charClass _ | anyChar | rule _ => []
  | seq es | choice es => es
  | star e | plus e | optional e | ahead e | notAhead e | discard e | label _ e
  | action e _ | slice e | concat e => [e]

mutual
/-- All expressions inside, each after those inside it. -/
def inner : Expr → List Expr
  | literal _ | charClass _ | anyChar | rule _ => []
  | seq es | choice es => postorderAll es
  | star e | plus e | optional e | ahead e | notAhead e | discard e | label _ e
  | action e _ | slice e | concat e => e.inner ++ [e]

/-- Each expression in turn, after those inside it. -/
def postorderAll : List Expr → List Expr
  | [] => []
  | e :: es => e.inner ++ e :: postorderAll es
end

/-- The expression and all inside it, children before their parent. -/
def postorder (e : Expr) : List Expr :=
  e.inner ++ [e]

mutual
/-- Applies `f` to every node, to the children before their parent. The result
of `f` is not looked into again. -/
def mapNodes (f : Expr → Expr) : Expr → Expr
  | literal l => f (literal l)
  | charClass c => f (charClass c)
  | anyChar => f anyChar
  | seq es => f (seq (mapAllNodes f es))
  | choice es => f (choice (mapAllNodes f es))
  | star e => f (star (e.mapNodes f))
  | plus e => f (plus (e.mapNodes f))
  | optional e => f (optional (e.mapNodes f))
  | ahead e => f (ahead (e.mapNodes f))
  | notAhead e => f (notAhead (e.mapNodes f))
  | discard e => f (discard (e.mapNodes f))
  | label name e => f (label name (e.mapNodes f))
  | action e a => f (action (e.mapNodes f) a)
  | slice e => f (slice (e.mapNodes f))
  | concat e => f (concat (e.mapNodes f))
  | rule ref => f (rule ref)

/-- Applies `f` to every node of each expression. -/
def mapAllNodes (f : Expr → Expr) : List Expr → List Expr
  | [] => []
  | e :: es => e.mapNodes f :: mapAllNodes f es
end

theorem mapAllNodes_eq_map (f : Expr → Expr) (es : List Expr) :
    mapAllNodes f es = es.map (mapNodes f) := by
  induction es with
  | nil => rfl
  | cons e es ih => simp [mapAllNodes, ih]

theorem postorderAll_eq_flatMap (es : List Expr) : postorderAll es = es.flatMap postorder := by
  induction es with
  | nil => rfl
  | cons e es ih => simp [postorderAll, postorder, ih]

/-! ## References and names -/

/-- The reference that a node is. -/
def ref? : Expr → Option RuleRef
  | rule ref => some ref
  | _ => none

/-- All rule references inside, in the order of their nodes. -/
def references (e : Expr) : List RuleRef :=
  e.postorder.filterMap ref?

mutual
/-- The names bound by the labels inside, outer labels first. What an action
encloses is bound only for that action and is left out. -/
def bound : Expr → List String
  | literal _ | charClass _ | anyChar | rule _ | action _ _ => []
  | label name e => name :: e.bound
  | seq es | choice es => boundByAll es
  | star e | plus e | optional e | ahead e | notAhead e | discard e | slice e
  | concat e => e.bound

/-- The names bound by each expression in turn. -/
def boundByAll : List Expr → List String
  | [] => []
  | e :: es => e.bound ++ boundByAll es
end

/-- The names that an action around this expression sees, each once. -/
def labels (e : Expr) : List String :=
  e.bound.eraseDups

theorem mem_labels {e : Expr} {name : String} : name ∈ e.labels ↔ name ∈ e.bound := by
  simp [labels, List.mem_eraseDups]

end Expr

end Peg
