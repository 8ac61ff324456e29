import Peg.Proofs.Precedence.Folding
import Peg.Proofs.Precedence.Scopes

/-!
Operators on one side of their operand. A level of prefix operators calls itself behind an
operator, a level of postfix operators is a loop behind its operand. What they read is a chain
of operators before an operand or behind it; the operator that stands next to the operand is
applied first, and each of the others to what the one inside it has made.
-/

namespace Peg

open Matcher OperatorLevel

/-! ## Operators in one place -/

/-- From the cursor, the operators before this one fail, and take nothing; this one matches and
takes the cursor there, with the names that are bound then. -/
def FirstMatch {α : Type} (rules : List Rule) (operators : List (Expr × α)) (start : Cursor)
    (operator : Value) (action : α) (captures : Captures) (stop : Cursor) : Prop :=
  ∃ before e after depth s t u, operators = before ++ (e, action) :: after ∧
    s.cursor = start ∧ s.scope = .empty ∧ AllFail (callRule rules depth) before s t ∧
    t.cursor.input = start.input ∧ t.cursor.pos = start.pos ∧
    EStateM.run (e.eval (callRule rules depth)) t = .ok operator u ∧
    u.cursor = stop ∧ u.scope = captures

/-- From the cursor, all operators fail, and take nothing. -/
def NoMatch {α : Type} (rules : List Rule) (operators : List (Expr × α)) (start stop : Cursor) :
    Prop :=
  ∃ depth s t, s.cursor = start ∧ s.scope = .empty ∧
    AllFail (callRule rules depth) operators s t ∧ t.cursor = stop ∧
    stop.input = start.input ∧ stop.pos = start.pos

namespace Finds

variable {α : Type} {rules : List Rule} {operators : List (Expr × α)} {start stop : Cursor}
  {captures : Captures}

theorem firstMatch {operator : Value} {action : α}
    (h : Finds rules operators start (some (operator, action)) captures stop)
    (hs : start.pos ≤ start.input.length) :
    FirstMatch rules operators start operator action captures stop := by
  obtain ⟨depth, s, u, rfl, hscope, rfl, rfl, hrun⟩ := h
  obtain ⟨before, e, after, t, rfl, hfail, hmatch⟩ := exists_split_of_firstOperator hrun
  obtain ⟨hinput, hpos⟩ := hfail.cursor_eq (callRule_inBounds rules depth) hs
  exact ⟨before, e, after, depth, s, t, u, rfl, rfl, hscope, hfail, hinput, hpos, hmatch, rfl, rfl⟩

theorem noMatch (h : Finds rules operators start none captures stop)
    (hs : start.pos ≤ start.input.length) : NoMatch rules operators start stop := by
  obtain ⟨depth, s, t, rfl, hscope, rfl, -, hrun⟩ := h
  have hfail := allFail_of_firstOperator hrun
  obtain ⟨hinput, hpos⟩ := hfail.cursor_eq (callRule_inBounds rules depth) hs
  exact ⟨depth, s, t, rfl, hscope, hfail, rfl, hinput, hpos⟩

end Finds

/-! ## Chains -/

/-- An operator that stands before or behind an operand, with its action and the names that it
has bound. -/
structure UnaryLink where
  operator : Value
  action : UnaryAction
  captures : Captures

/-- What the action makes of what stands behind the operator. -/
def UnaryLink.applyBefore (input : Bytes) (link : UnaryLink) (x : Value) : Except Fault Value :=
  link.action.run ⟨input, link.captures⟩ (.list [link.operator, x]) x

/-- What the action makes of what stands before the operator. -/
def UnaryLink.applyBehind (input : Bytes) (link : UnaryLink) (x : Value) : Except Fault Value :=
  link.action.run ⟨input, link.captures⟩ (.list [x, link.operator]) x

/-- Operators before an operand: the last is applied first. -/
def nestBefore (input : Bytes) : List UnaryLink → Value → Except Fault Value
  | [], x => .ok x
  | link :: links, x => do
    let y ← nestBefore input links x
    link.applyBefore input y

/-- Operators behind an operand: the first is applied first. -/
def nestBehind (input : Bytes) (x : Value) (links : List UnaryLink) : Except Fault Value :=
  links.foldlM (fun y link => link.applyBehind input y) x

variable {rules : List Rule} {operators : List (Expr × UnaryAction)} {operand : Nat}

/-- Operators from the cursor on, each the first that matches in its place, and behind them an
operand, in a place where none of them matches. -/
inductive PrefixChain (rules : List Rule) (operators : List (Expr × UnaryAction))
    (operand : Nat) : Cursor → List UnaryLink → Value → Cursor → Prop where
  | operand {start mid stop : Cursor} {x : Value} (hnone : NoMatch rules operators start mid)
    (hcalls : Calls rules operand mid (.ok x) stop) :
    PrefixChain rules operators operand start [] x stop
  | operator {start mid stop : Cursor} {operator x : Value} {action : UnaryAction}
    {captures : Captures} {links : List UnaryLink}
    (hfirst : FirstMatch rules operators start operator action captures mid)
    (hrest : PrefixChain rules operators operand mid links x stop) :
    PrefixChain rules operators operand start (⟨operator, action, captures⟩ :: links) x stop

/-- Operators from the cursor on, each the first that matches in its place. There are no more
where none of them matches, and behind one that has taken nothing. -/
inductive PostfixChain (rules : List Rule) (operators : List (Expr × UnaryAction)) :
    Cursor → List UnaryLink → Cursor → Prop where
  | stops {start stop : Cursor} (hnone : NoMatch rules operators start stop) :
    PostfixChain rules operators start [] stop
  | idles {start stop : Cursor} {operator : Value} {action : UnaryAction} {captures : Captures}
    (hfirst : FirstMatch rules operators start operator action captures stop)
    (hidle : stop.pos = start.pos) :
    PostfixChain rules operators start [⟨operator, action, captures⟩] stop
  | operator {start mid stop : Cursor} {operator : Value} {action : UnaryAction}
    {captures : Captures} {links : List UnaryLink}
    (hfirst : FirstMatch rules operators start operator action captures mid)
    (htakes : start.pos < mid.pos) (hrest : PostfixChain rules operators mid links stop) :
    PostfixChain rules operators start (⟨operator, action, captures⟩ :: links) stop

/-! ## Levels -/

/-- A run that comes to a value reads operators and an operand behind them, and comes to what
the operators make of it. -/
def Matcher.NestsBefore (rules : List Rule) (operators : List (Expr × UnaryAction))
    (operand : Nat) (m : Matcher Value) (s : MatchState) : Prop :=
  Ensures m s
    (fun v t => ∃ links x, PrefixChain rules operators operand s.cursor links x t.cursor ∧
      nestBefore s.cursor.input links x = .ok v)
    (fun _ _ => True) (fun _ => True)

/-- A run that comes to a value reads an operand and operators behind it, and comes to what the
operators make of it. -/
def Matcher.NestsBehind (rules : List Rule) (operators : List (Expr × UnaryAction))
    (operand : Nat) (m : Matcher Value) (s : MatchState) : Prop :=
  Ensures m s
    (fun v t => ∃ x mid links, Calls rules operand s.cursor (.ok x) mid ∧
      PostfixChain rules operators mid links t.cursor ∧
      nestBehind s.cursor.input x links = .ok v)
    (fun _ _ => True) (fun _ => True)

section Levels

variable {depth : Nat} {s : MatchState}

/-- What the level itself makes of the rest is what the first operator is applied to. -/
theorem prefixOps_nests {self : Matcher Value} (hs : s.cursor.pos ≤ s.cursor.input.length)
    (hbounds : InBounds self) (hself : ∀ t : MatchState, s.cursor.Advances t.cursor →
      NestsBefore rules operators operand self t) :
    NestsBefore rules operators operand ((prefixOps operators).eval (callRule rules depth) self
      (callRule rules depth operand)) s := by
  apply ensures_prefixOps
  apply (ensures_finds rules depth operators hs).imp_total
  rintro found t ⟨hfinds, ht⟩
  match found with
  | some (op, a) =>
    have hrest := hself { t with scope := s.scope } ht
    apply (hrest.also (hbounds { t with scope := s.scope } ht.pos_le_input)).mono
    · rintro y u ⟨⟨links, x, hchain, hy⟩, hu⟩
      refine Settled.intro (fun v hv => ?_) fun _ => trivial
      refine ⟨⟨op, a, t.scope⟩ :: links, x, .operator (hfinds.firstMatch hs) hchain, ?_⟩
      have hy' : nestBefore s.cursor.input links x = .ok y := by
        rw [← ht.input_eq]
        exact hy
      rw [nestBefore, hy', ← ht.input_eq, ← hu.input_eq]
      exact hv
    · exact fun _ _ _ => trivial
  | none =>
    have hoperand := ensures_calls rules depth operand (s := { t with scope := s.scope })
      ht.pos_le_input
    apply hoperand.mono
    · exact fun x u hx => ⟨[], x, .operand (hfinds.noMatch hs) hx.1, rfl⟩
    · exact fun _ _ _ => trivial

/-- The loop has read operators up to where it is, and holds what they make of the operand. -/
theorem postfixOps_nests (self : Matcher Value) (hs : s.cursor.pos ≤ s.cursor.input.length) :
    NestsBehind rules operators operand ((postfixOps operators).eval (callRule rules depth) self
      (callRule rules depth operand)) s := by
  apply ensures_postfixOps fun y t => s.cursor.Advances t.cursor ∧
    ∃ x mid before, Calls rules operand s.cursor (.ok x) mid ∧
      nestBehind s.cursor.input x before = .ok y ∧
      ∀ links stop, PostfixChain rules operators t.cursor links stop →
        PostfixChain rules operators mid (before ++ links) stop
  · apply (ensures_calls rules depth operand hs).mono
    · rintro x t ⟨hcalls, ht⟩
      exact ⟨ht, x, t.cursor, [], hcalls, rfl, fun _ _ h => h⟩
    · exact fun _ _ _ => trivial
  rintro y t ⟨ht, x, mid, before, hcalls, hy, hbefore⟩
  apply (ensures_finds rules depth operators ht.pos_le_input).imp_total
  rintro found u ⟨hfinds, hu⟩
  match found with
  | some (op, a) =>
    have hfirst := hfinds.firstMatch ht.pos_le_input
    rw [found_some]
    refine Settled.intro (fun z hz => ?_) fun _ => trivial
    have hnest : nestBehind s.cursor.input x (before ++ [⟨op, a, u.scope⟩]) = .ok z := by
      rw [nestBehind, foldlM_snoc hy, UnaryLink.applyBehind, ← ht.input_eq, ← hu.input_eq]
      exact hz
    split
    · next hless =>
      have hne : u.cursor.pos ≠ t.cursor.pos := hu.pos_ne_of_remaining_lt hless
      have htakes : t.cursor.pos < u.cursor.pos := Nat.lt_of_le_of_ne hu.pos_le hne.symm
      refine ⟨ht.trans hu, x, mid, before ++ [⟨op, a, u.scope⟩], hcalls, hnest, ?_⟩
      intro links stop hlinks
      rw [List.append_assoc]
      exact hbefore _ _ (.operator hfirst htakes hlinks)
    · next hidle =>
      have heq : u.cursor.pos = t.cursor.pos := hu.pos_eq_of_idle hidle
      exact ⟨x, mid, _, hcalls, hbefore _ _ (.idles hfirst heq), hnest⟩
  | none =>
    have hchain := hbefore _ _ (.stops (hfinds.noMatch ht.pos_le_input))
    rw [List.append_nil] at hchain
    exact ⟨x, mid, before, hcalls, hchain, hy⟩

variable {handle : Nat} {name : String} {kind : RuleKind}

theorem callRule_prefixOps_nests
    (hrule : rules[handle]? = some ⟨name, kind, .level (.prefixOps operators) operand⟩)
    (hs : s.cursor.pos ≤ s.cursor.input.length) :
    NestsBefore rules operators operand (callRule rules depth handle) s := by
  induction depth generalizing s with
  | zero => trivial
  | succ depth ih =>
    rw [NestsBefore, ensures_callRule_succ, hrule]
    exact prefixOps_nests (s := ⟨s.cursor, .empty, _⟩) hs (callRule_inBounds rules depth handle)
      fun t ht => ih ht.pos_le_input

theorem callRule_postfixOps_nests
    (hrule : rules[handle]? = some ⟨name, kind, .level (.postfixOps operators) operand⟩)
    (hs : s.cursor.pos ≤ s.cursor.input.length) :
    NestsBehind rules operators operand (callRule rules depth handle) s := by
  cases depth with
  | zero => trivial
  | succ depth =>
    rw [NestsBehind, ensures_callRule_succ, hrule]
    exact postfixOps_nests (callRule rules depth handle) (s := ⟨s.cursor, .empty, _⟩) hs

end Levels

/-- A level of operators before their operand that comes to a value has read operators and then
an operand; a level of operators behind their operand has read an operand and then operators. In
both, the cursor is where the last of them ended. The value is what the operators make of the
operand, applied from the one next to it outwards, each to what was made before. -/
theorem unary_chains_nest {handle : Nat} {name : String} {kind : RuleKind} {depth : Nat}
    {s t : MatchState} {v : Value} (hs : s.cursor.pos ≤ s.cursor.input.length)
    (hrun : EStateM.run (callRule rules depth handle) s = .ok v t) :
    (rules[handle]? = some ⟨name, kind, .level (.prefixOps operators) operand⟩ →
      ∃ links x, PrefixChain rules operators operand s.cursor links x t.cursor ∧
        nestBefore s.cursor.input links x = .ok v) ∧
    (rules[handle]? = some ⟨name, kind, .level (.postfixOps operators) operand⟩ →
      ∃ x mid links, Calls rules operand s.cursor (.ok x) mid ∧
        PostfixChain rules operators mid links t.cursor ∧
        nestBehind s.cursor.input x links = .ok v) :=
  ⟨fun hrule => (callRule_prefixOps_nests hrule hs).of_ok hrun,
    fun hrule => (callRule_postfixOps_nests hrule hs).of_ok hrun⟩

/-- Two marks before a letter, and two behind it: the one next to the letter is inside. -/
theorem unary_chains_nest_of_marked_letters :
    let keep : UnaryAction := ⟨"keep", fun _ matched _ => .ok matched⟩
    let marks : List (Expr × UnaryAction) :=
      [(.literal (.exact [0x21]), keep), (.literal (.exact [0x3F]), keep)]
    let rules : List Rule := [⟨"E_2", .precedenceLevel, .expr (.literal (.exact [0x61]))⟩,
      ⟨"E_1", .precedenceLevel, .level (.prefixOps marks) 0⟩,
      ⟨"E_0", .precedenceLevel, .level (.postfixOps marks) 1⟩]
    let s := MatchState.fresh [0x21, 0x3F, 0x61] 0
    let s' := MatchState.fresh [0x61, 0x21, 0x3F] 0
    let first : Value := .token ⟨0, 1, by decide⟩
    let second : Value := .token ⟨1, 2, by decide⟩
    let third : Value := .token ⟨2, 3, by decide⟩
    s.cursor.pos ≤ s.cursor.input.length ∧ s'.cursor.pos ≤ s'.cursor.input.length ∧
    (∃ v t links x, EStateM.run (callRule rules 4 1) s = .ok v t ∧
      PrefixChain rules marks 0 s.cursor links x t.cursor ∧ t.cursor.pos = 3 ∧
      nestBefore s.cursor.input links x = .ok v ∧
      v.beq (.list [first, .list [second, third]]) = true) ∧
    ∃ v t x mid links, EStateM.run (callRule rules 4 2) s' = .ok v t ∧
      Calls rules 1 s'.cursor (.ok x) mid ∧ PostfixChain rules marks mid links t.cursor ∧
      t.cursor.pos = 3 ∧ nestBehind s'.cursor.input x links = .ok v ∧
      v.beq (.list [.list [first, second], third]) = true := by
  intro keep marks rules s s' first second third
  have hs : s.cursor.pos ≤ s.cursor.input.length := by decide
  have hs' : s'.cursor.pos ≤ s'.cursor.input.length := by decide
  have hpasses : passes (callRule rules 4 1) s (fun v t =>
      t.cursor.pos == 3 && v.beq (.list [first, .list [second, third]])) = true := by
    decide +kernel
  have hpasses' : passes (callRule rules 4 2) s' (fun v t =>
      t.cursor.pos == 3 && v.beq (.list [.list [first, second], third])) = true := by
    decide +kernel
  obtain ⟨v, t, hrun, hcheck⟩ := exists_of_passes hpasses
  obtain ⟨w, u, hrun', hcheck'⟩ := exists_of_passes hpasses'
  rw [Bool.and_eq_true, beq_iff_eq] at hcheck hcheck'
  obtain ⟨links, x, hchain, hnest⟩ := (unary_chains_nest hs hrun).1 rfl
  obtain ⟨x', mid, links', hcalls, hchain', hnest'⟩ := (unary_chains_nest hs' hrun').2 rfl
  exact ⟨hs, hs', ⟨v, t, links, x, hrun, hchain, hcheck.1, hnest, hcheck.2⟩, w, u, x', mid, links',
    hrun', hcalls, hchain', hcheck'.1, hnest', hcheck'.2⟩

end Peg
