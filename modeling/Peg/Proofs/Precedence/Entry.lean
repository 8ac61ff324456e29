import Peg.Proofs.CallDepth
import Peg.Proofs.Grammar.Blocks

/-!
Entering a precedence rule at one of its levels. A level knows no more of the rule than the
tighter levels below it, so that from level `i` on a rule parses as one that has been written
without its first `i` levels. The two have rules of their own, under other names and in other
places; but counted from the atoms upwards each level of the one stands for a level of the other
with the same operators, and all that can be told apart is the names in the record.
-/

namespace Peg

open Matcher

/-! ## What a run comes to -/

namespace Matcher

variable {α : Type}

/-- What the run comes to, and where it leaves the cursor. -/
def verdict (m : Matcher α) (s : MatchState) : Except Interrupt α × Cursor :=
  match EStateM.run m s with
  | .ok a t => (.ok a, t.cursor)
  | .error interrupt t => (.error interrupt, t.cursor)

theorem verdict_traced (rule : String) (m : Matcher Value) (s : MatchState) :
    (traced rule m).verdict s =
      m.verdict { s with events := s.events.push (.entered rule s.cursor.pos) } := by
  unfold verdict traced
  rw [EStateM.run_bind, run_position]
  dsimp only
  rw [EStateM.run_bind, run_note]
  dsimp only
  rw [EStateM.run_bind, run_attempt]
  cases EStateM.run m { s with events := s.events.push (.entered rule s.cursor.pos) } with
  | ok a t => rfl
  | error interrupt t => cases interrupt <;> rfl

/-- A call comes to what the body of its rule comes to in a scope of its own. -/
theorem verdict_callRule_succ {rules : List Rule} {handle : Nat} {rule : Rule}
    (hrule : rules[handle]? = some rule) (depth : Nat) (s : MatchState) :
    (callRule rules (depth + 1) handle).verdict s =
      (rule.evalBody (callRule rules depth) handle).verdict
        ⟨s.cursor, .empty, s.events.push (.entered rule.name s.cursor.pos)⟩ := by
  rw [callRule, hrule]
  dsimp only
  rw [verdict_traced]
  unfold verdict
  rw [EStateM.run_bind, run_withScope]
  dsimp only
  cases EStateM.run (rule.evalBody (callRule rules depth) handle)
    ⟨s.cursor, .empty, s.events.push (.entered rule.name s.cursor.pos)⟩ with
  | ok a t => rfl
  | error interrupt t => rfl

theorem runOn_eq_verdict (m : Matcher Value) (cursor : Cursor) :
    ((m.runOn cursor).outcome, (m.runOn cursor).cursor) =
      m.verdict ⟨cursor, .empty, #[]⟩ := by
  unfold runOn verdict EStateM.run
  cases m ⟨cursor, .empty, #[]⟩ <;> rfl

end Matcher

/-! ## Rules under other names -/

theorem lockstep_sameCursor : Lockstep Eq fun s s' => s.cursor = s'.cursor where
  input_eq h := congrArg Cursor.input h
  pos_eq h := congrArg Cursor.pos h
  setScope h _ _ := h
  jump h u _ _ := congrArg (Cursor.jump · u.cursor.pos) h
  advance h size _ := congrArg (Cursor.advance · size) h
  push h _ := h
  pushIdle h _ _ _ _ := h

/-- Nothing but the cursor is compared, and neither run may be cut short: the two are alike up to
their records. The relation of handles is left open. -/
def Correspondence.upToRecords (handle : Nat → Nat → Prop) : Correspondence where
  node := Eq
  handle := handle
  view s s' := s.cursor = s'.cursor
  exact := True
  confined := False
  cutsFirst := Function.const _ False
  cutsSecond := Function.const _ False
  node_refl := Eq.refl
  lockstep := lockstep_sameCursor
  mismatch_not_cut _ := ⟨id, id⟩
  fault_cut h _ := absurd trivial h

section Apart

variable {related : Nat → Nat → Prop} {visible : List String} {rules rules' : List Rule}

theorem coupled_noteApart (event event' : Event) :
    Coupled (.upToRecords related) visible Eq (note event) (note event') :=
  fun _ _ hs => .ok rfl ⟨hs.view, hs.scopes⟩

/-- Calls of rules with other names are alike up to their records. -/
theorem coupled_tracedApart (rule rule' : String) {m m' : Matcher Value}
    (hm : Coupled (.upToRecords related) visible (Correspondence.upToRecords related).Same m m') :
    Coupled (.upToRecords related) visible (Correspondence.upToRecords related).Same
      (traced rule m) (traced rule' m') := by
  apply coupled_bind coupled_position
  intro start start' _
  apply coupled_bind (coupled_noteApart _ _)
  intro _ _ _
  apply coupled_bind (coupled_attempt hm)
  rintro _ _ (hvalue | hx)
  · apply coupled_bind coupled_position
    intro stop stop' _
    exact coupled_bind (coupled_noteApart _ _) fun _ _ _ => coupled_pure hvalue
  · exact coupled_bind (coupled_noteApart _ _) fun _ _ _ => coupled_throw (.mismatch hx)

/-- The handles lead to rules that match the same, whatever the names of the rules are; or both
lead to none. -/
def Correspondence.Bodies (C : Correspondence) (rules rules' : List Rule) : Prop :=
  ∀ handle handle', C.handle handle handle' →
    (handle = handle' ∧ rules[handle]? = none ∧ rules'[handle']? = none) ∨
      ∃ rule rule', rules[handle]? = some rule ∧ rules'[handle']? = some rule' ∧
        rule.body.Counterpart C rule'.body ∧ (rule.body = .precedence [] → rule.name = rule'.name)

/-- The name of a rule is told only where the rule has nothing to match. -/
theorem Rule.evalBody_rename {call : Nat → Matcher Value} {handle : Nat} {rule : Rule}
    {name : String} (h : rule.body = .precedence [] → name = rule.name) :
    Rule.evalBody call handle { rule with name } = rule.evalBody call handle := by
  obtain ⟨name', kind, body⟩ := rule
  cases body with
  | expr e => rfl
  | precedence levels =>
    cases levels with
    | nil => rw [h rfl]
    | cons first rest => rfl
  | level operators operand => rfl

/-- Calls of rules with bodies that match the same come to the same, and so do the calls that
they make. -/
theorem callRule_coupledApart (hbodies : (Correspondence.upToRecords related).Bodies rules rules')
    (depth : Nat) {handle handle' : Nat} (hhandle : related handle handle') :
    Coupled (.upToRecords related) visible (Correspondence.upToRecords related).Same
      (callRule rules depth handle) (callRule rules' depth handle') := by
  induction depth generalizing handle handle' visible with
  | zero => exact coupled_throw .exhausted
  | succ depth ih =>
    rw [callRule, callRule]
    rcases hbodies handle handle' hhandle with
      ⟨rfl, hnone, hnone'⟩ | ⟨rule, rule', hrule, hrule', hbody, hname⟩
    · rw [hnone, hnone']
      exact coupled_throw (.fault _)
    · rw [hrule, hrule']
      have hrenamed :
          Rule.Counterpart (.upToRecords related) { rule with name := rule'.name } rule' :=
        ⟨rfl, hbody⟩
      obtain ⟨names, hcoupled⟩ := hrenamed.evalBody_coupled (fun _ _ hh _ => ih hh) hhandle
      rw [Rule.evalBody_rename fun hnil => (hname hnil).symm] at hcoupled
      apply coupled_tracedApart
      apply coupled_bind (coupled_withScope (.empty names) hcoupled)
      exact fun _ _ hresult => coupled_pure hresult.1

/-- What is alike up to the record comes to the same. -/
theorem Matcher.Coupled.verdict_eq {m m' : Matcher Value}
    (h : Coupled (.upToRecords related) [] (Correspondence.upToRecords related).Same m m')
    (cursor : Cursor) (events events' : Array Event) :
    m.verdict ⟨cursor, .empty, events⟩ = m'.verdict ⟨cursor, .empty, events'⟩ := by
  have hresults := h ⟨cursor, .empty, events⟩ ⟨cursor, .empty, events'⟩ ⟨rfl, .empty []⟩
  unfold verdict
  generalize EStateM.run m _ = result at hresults ⊢
  generalize EStateM.run m' _ = result' at hresults ⊢
  cases hresults with
  | ok ha ht => exact Prod.ext (congrArg Except.ok (ha trivial)) ht.view
  | error hinterrupt ht =>
    refine Prod.ext (congrArg Except.error ?_) ht.view
    cases hinterrupt with
    | @mismatch x x' hx =>
      obtain ⟨expr, pos⟩ := x
      obtain ⟨rfl, rfl⟩ := hx
      rfl
    | fault fault => rfl
    | exhausted => rfl
  | cutFirst hcut => exact hcut.elim
  | cutSecond hcut => exact hcut.elim

end Apart

/-! ## The tighter levels of a rule -/

namespace PrecedenceRule

variable {p q : PrecedenceRule} {i : Nat}

theorem parts_of_items_eq {levels : List OperatorLevel} {atoms : List Expr}
    (h : q.items = levels.map .operators ++ atoms.map .atom) :
    q.levels = levels ∧ q.atoms = atoms := by
  rw [PrecedenceRule.levels, PrecedenceRule.atoms, h]
  constructor
  · simp [List.filterMap_append, List.filterMap_map, Function.comp_def, PrecedenceItem.level?]
  · simp [List.filterMap_append, List.filterMap_map, Function.comp_def, PrecedenceItem.atom?]

/-- Without some of its first levels a rule keeps the other levels and the atoms. -/
theorem parts_of_drop (hp : p.WellFormed) (hi : i ≤ p.levels.length)
    (hitems : q.items = p.items.drop i) : q.levels = p.levels.drop i ∧ q.atom = p.atom := by
  have hlength : i ≤ (p.levels.map PrecedenceItem.operators).length := by
    rwa [List.length_map]
  rw [hp.items_eq, List.drop_append_of_le_length hlength, ← List.map_drop] at hitems
  obtain ⟨hlevels, hatoms⟩ := parts_of_items_eq hitems
  refine ⟨hlevels, ?_⟩
  rw [atom, hatoms, ← atom]

end PrecedenceRule

/-- The handles are the same, or lead equally far up from the atoms of two precedence rules, no
further than to the level with number `count` of them. -/
def SameHeight (head head' count handle handle' : Nat) : Prop :=
  handle = handle' ∨ ∃ height ≤ count, handle = head + 1 + height ∧ handle' = head' + 1 + height

namespace PrecedenceRule.LaidOut

variable {p q : PrecedenceRule} {grammar : Grammar} {head head' i : Nat}

/-- Level by level from the atoms upwards, the rules of the one match what those of the other
do. -/
theorem bodies (hp : p.LaidOut grammar head) (hq : q.LaidOut grammar head')
    (hi : i ≤ p.levels.length) (hlevels : q.levels = p.levels.drop i) (hatom : q.atom = p.atom) :
    (Correspondence.upToRecords (SameHeight head head' q.levels.length)).Bodies grammar.rules
      grammar.rules := by
  have hrefl (handle : Nat) : SameHeight head head' q.levels.length handle handle := Or.inl rfl
  rintro handle _ (rfl | ⟨height, hheight, rfl, rfl⟩)
  · cases hrule : grammar.rules[handle]? with
    | none => exact Or.inl ⟨rfl, rfl, rfl⟩
    | some rule =>
      exact Or.inr ⟨rule, rule, rfl, rfl, (Rule.Counterpart.refl hrefl rule).body, fun _ => rfl⟩
  · refine Or.inr ?_
    cases height with
    | zero =>
      refine ⟨_, _, hp.atom_rule, hq.atom_rule, ?_, fun hnil => by cases hnil⟩
      rw [hatom]
      exact .expr (.refl hrefl fun _ => List.Subset.refl _)
    | succ height =>
      have hlength : q.levels.length = p.levels.length - i := by rw [hlevels, List.length_drop]
      -- counted from the loosest of each, one and the same level
      obtain ⟨j, hj⟩ : ∃ j, j + (height + 1) = q.levels.length := ⟨_, Nat.sub_add_cancel hheight⟩
      obtain ⟨level, hlevel⟩ : ∃ level, q.levels[j]? = some level :=
        ⟨_, List.getElem?_eq_getElem (by omega)⟩
      have hlevel' : p.levels[i + j]? = some level := by
        rw [← List.getElem?_drop, ← hlevels, hlevel]
      have hrule := hp.level_rule (i + j) level hlevel'
      have hrule' := hq.level_rule j level hlevel
      rw [show p.levels.length - (i + j) = height + 1 by omega,
        show p.levels.length - (i + j + 1) = height by omega] at hrule
      rw [show q.levels.length - j = height + 1 by omega,
        show q.levels.length - (j + 1) = height by omega] at hrule'
      refine ⟨_, _, hrule, hrule', ?_, fun hnil => by cases hnil⟩
      exact .level (.refl hrefl _) (Or.inr ⟨height, by omega, rfl, rfl⟩)

/-- The head of a rule comes to what its first level comes to. -/
theorem verdict_callRule_head (hq : q.LaidOut grammar head') (depth : Nat) (s : MatchState) :
    (callRule grammar.rules (depth + 1) head').verdict s =
      (callRule grammar.rules depth (head' + 1 + q.levels.length)).verdict
        ⟨s.cursor, .empty, s.events.push (.entered q.name s.cursor.pos)⟩ := by
  obtain ⟨tighter, htighter⟩ := q.levelHandles_eq_cons head'
  have hhead := hq.head_rule
  rw [htighter] at hhead
  rw [verdict_callRule_succ hhead]
  rfl

end PrecedenceRule.LaidOut

/-! ## Parses that cannot be told apart by what they come to -/

/-- The runs came to one value, mismatch or fault and left the cursor alike, having got equally
far; or both ran out of depth. -/
structure Run.SameEnd (run run' : Run) : Prop where
  outcome_eq : run.outcome = run'.outcome
  cursor_eq : run.outcome ≠ .error .exhausted → run.cursor = run'.cursor

/-- A parse from a level and one from the head of the rule that starts there. -/
theorem Grammar.parseHandle_sameEnd {p q : PrecedenceRule} {grammar : Grammar}
    {head head' i : Nat} (hp : p.LaidOut grammar head) (hq : q.LaidOut grammar head')
    (hi : i ≤ p.levels.length) (hlevels : q.levels = p.levels.drop i) (hatom : q.atom = p.atom)
    (cursor : Cursor) :
    (grammar.parseHandle (head + 1 + (p.levels.length - i)) cursor).SameEnd
      (grammar.parseHandle head' cursor) := by
  have hlength : q.levels.length = p.levels.length - i := by rw [hlevels, List.length_drop]
  have hheight : SameHeight head head' q.levels.length (head + 1 + (p.levels.length - i))
      (head' + 1 + q.levels.length) := Or.inr ⟨_, Nat.le_refl _, by rw [hlength], rfl⟩
  -- the head takes one call more, so its parse is taken one call deeper
  have hverdict : ((grammar.parseHandle (head + 1 + (p.levels.length - i)) cursor).outcome,
        (grammar.parseHandle (head + 1 + (p.levels.length - i)) cursor).cursor) =
      (((callRule grammar.rules (grammar.callDepth cursor + 1) head').runOn cursor).outcome,
        ((callRule grammar.rules (grammar.callDepth cursor + 1) head').runOn cursor).cursor) := by
    rw [Grammar.parseHandle, runOn_eq_verdict, runOn_eq_verdict, hq.verdict_callRule_head]
    exact (callRule_coupledApart (hp.bodies hq hi hlevels hatom) _ hheight).verdict_eq _ _ _
  obtain ⟨houtcome, hcursor⟩ := Prod.mk.inj hverdict
  rcases grammar.parseHandle_eq_or_exhausted (Nat.le_succ _) head' with heq | ⟨hout, hout'⟩
  · rw [heq]
    exact ⟨houtcome, fun _ => hcursor⟩
  · rw [hout'] at houtcome
    exact ⟨houtcome.trans hout.symm, fun hends => absurd houtcome hends⟩

/-- In a grammar with a precedence rule and with a rule of another name that has the same items
but for some of the first levels, a parse from the first level that both have is the same as one
from the other rule. In particular a precedence rule parses as its first level does. -/
theorem level_parses_as_rule_without_looser {blueprint : Blueprint} {grammar : Grammar}
    (h : blueprint.build = .ok grammar) {p q : PrecedenceRule}
    (hp : .precedence p ∈ blueprint.definitions) (hq : .precedence q ∈ blueprint.definitions)
    {i : Nat} (hi : i ≤ p.levels.length) (hitems : q.items = p.items.drop i) (cursor : Cursor) :
    (∃ run run', grammar.parseRule (PrecedenceRule.levelName p.name i) cursor = .ok run ∧
      grammar.parseRule q.name cursor = .ok run' ∧ run.SameEnd run') ∧
    ∃ run run', grammar.parseRule (PrecedenceRule.levelName p.name 0) cursor = .ok run ∧
      grammar.parseRule p.name cursor = .ok run' ∧ run.SameEnd run' := by
  have hwell := (Blueprint.wellFormed_of_build h).precedence p hp
  obtain ⟨place, hplace⟩ := List.mem_iff_getElem?.mp hp
  obtain ⟨place', hplace'⟩ := List.mem_iff_getElem?.mp hq
  have hlaid := PrecedenceRule.laidOut_of_build h hplace
  have hlaid' := PrecedenceRule.laidOut_of_build h hplace'
  have hparse (name : String) (handle : Nat) (hhandle : grammar.handle? name = some handle) :
      grammar.parseRule name cursor = .ok (grammar.parseHandle handle cursor) := by
    rw [Grammar.parseRule, hhandle]
  refine ⟨⟨_, _, hparse _ _ (hlaid.level_handle i hi), hparse _ _ hlaid'.head_handle, ?_⟩,
    _, _, hparse _ _ (hlaid.level_handle 0 (Nat.zero_le _)), hparse _ _ hlaid.head_handle, ?_⟩
  · obtain ⟨hlevels, hatom⟩ := PrecedenceRule.parts_of_drop hwell hi hitems
    exact Grammar.parseHandle_sameEnd hlaid hlaid' hi hlevels hatom cursor
  · exact Grammar.parseHandle_sameEnd hlaid hlaid (Nat.zero_le _) rfl rfl cursor

/-- Sums of signed digits and of sums in parentheses, and beside them a rule for what is signed
or in parentheses, with whole sums between the parentheses. -/
theorem level_parses_as_rule_without_looser_of_sums :
    let plus : BinaryAction := ⟨"l + r", fun _ matched _ _ => .ok matched⟩
    let minus : UnaryAction := ⟨"-x", fun _ matched _ => .ok matched⟩
    let signed : List PrecedenceItem :=
      [.operators (.prefixOps [(.literal (.exact [0x2D]), minus)]),
        .atom (.charClass ⟨[], [('0', '9')]⟩),
        .atom (.seq [.literal (.exact [0x28]), .ruleNamed "Sum", .literal (.exact [0x29])])]
    let sum : PrecedenceRule :=
      ⟨"Sum", .operators (.leftAssoc [(.literal (.exact [0x2B]), plus)]) :: signed⟩
    let blueprint : Blueprint :=
      { definitions := [.precedence sum, .precedence ⟨"Signed", signed⟩] }
    let cursor : Cursor := .start (Utf8.encode "-(1+2)+3")
    ∃ grammar, blueprint.build = .ok grammar ∧ ∃ run run',
      grammar.parseRule (PrecedenceRule.levelName "Sum" 1) cursor = .ok run ∧
      grammar.parseRule "Signed" cursor = .ok run' ∧ run.SameEnd run' ∧
      run.outcome.isOk = true ∧ run.cursor.pos = 6 := by
  intro plus minus signed sum blueprint cursor
  let grammar : Grammar := ⟨none, blueprint.rules.map (Rule.bind (handleOf? blueprint.rules)), 0,
    by decide⟩
  have h : blueprint.build = .ok grammar :=
    Blueprint.build_eq_ok_iff.mpr ⟨by decide, by decide, rfl, rfl⟩
  obtain ⟨⟨run, run', hrun, hrun', hsame⟩, -⟩ := level_parses_as_rule_without_looser h
    (p := sum) (q := ⟨"Signed", signed⟩) (i := 1) (by simp [blueprint]) (by simp [blueprint])
    (by decide) rfl cursor
  have hends : (grammar.parseRule (PrecedenceRule.levelName "Sum" 1) cursor).toOption.map
      (fun run => (run.outcome.isOk, run.cursor.pos)) = some (true, 6) := by
    decide +kernel
  change grammar.parseRule (PrecedenceRule.levelName "Sum" 1) cursor = .ok run at hrun
  rw [hrun] at hends
  obtain ⟨hok, hpos⟩ := Prod.mk.inj (Option.some.inj hends)
  exact ⟨grammar, h, run, run', hrun, hrun', hsame, hok, hpos⟩

end Peg
