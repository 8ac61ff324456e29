import Peg.Proofs.Grammar.Binding

/-!
Where a grammar keeps the rules of its definitions. Each definition has a block of its own,
and the blocks follow one another as the definitions do. In the block of a precedence rule the
levels are found from their names as well as from their handles, and operands lead from each
level to the next tighter one: from the loosest over all of them down to the atoms.
-/

namespace Peg

/-! ## Blocks -/

/-- The handle at which the block of the definition with number `i` begins. -/
def Blueprint.blockStart (blueprint : Blueprint) (i : Nat) : Nat :=
  ((blueprint.definitions.take i).map Definition.ruleCount).sum

namespace Definition

theorem expandAll_append (base : Nat) (ds ds' : List Definition) :
    expandAll base (ds ++ ds') =
      expandAll base ds ++ expandAll (base + (expandAll base ds).length) ds' := by
  induction ds generalizing base with
  | nil => rfl
  | cons d ds ih =>
    rw [List.cons_append, expandAll, expandAll, ih, List.append_assoc, List.length_append,
      Nat.add_assoc]

end Definition

namespace Blueprint

variable {blueprint : Blueprint} {grammar : Grammar}

/-- The rules before the block of a definition are those of the definitions before it. -/
theorem exists_rules_eq (h : blueprint.WellFormed) {i : Nat} {d : Definition}
    (hd : blueprint.definitions[i]? = some d) :
    ∃ before after, blueprint.rules = before ++ d.expand before.length ++ after ∧
      before.length = blueprint.blockStart i := by
  have herrors := Definition.errors_eq_nil_iff.mpr h.precedence
  obtain ⟨hi, rfl⟩ := List.getElem?_eq_some_iff.mp hd
  have hsplit : blueprint.definitions.take i ++ blueprint.definitions[i] ::
      blueprint.definitions.drop (i + 1) = blueprint.definitions := by
    rw [← List.drop_eq_getElem_cons hi, List.take_append_drop]
  have hrules := congrArg (Definition.expandAll 0) hsplit
  rw [Definition.expandAll_append, Definition.expandAll, Nat.zero_add, ← List.append_assoc]
    at hrules
  refine ⟨_, _, hrules.symm, ?_⟩
  exact Definition.length_expandAll (fun d hd => herrors d (List.mem_of_mem_take hd)) 0

theorem size_of_build (h : blueprint.build = .ok grammar) :
    grammar.size = (blueprint.definitions.map Definition.ruleCount).sum := by
  have hlength := congrArg List.length (map_name_rules_of_build h)
  rw [List.length_map, List.length_map] at hlength
  rw [Grammar.size, hlength]
  exact Definition.length_expandAll
    (Definition.errors_eq_nil_iff.mpr (wellFormed_of_build h).precedence) 0

/-- The grammar has the rules of the definitions, with their references bound. -/
theorem getElem?_rules_of_build (h : blueprint.build = .ok grammar) (handle : Nat) :
    grammar.rules[handle]? = (blueprint.rules[handle]?).map (Rule.bind grammar.handle?) := by
  obtain ⟨-, -, hrules, -⟩ := build_eq_ok_iff.mp h
  have hhandle : grammar.handle? = handleOf? blueprint.rules := funext (handle?_of_build h)
  rw [hhandle, hrules, List.getElem?_map]

end Blueprint

/-! ## Precedence rules -/

namespace PrecedenceRule

variable {rule : PrecedenceRule} {head : Nat}

/-- The grammar has the rules of the precedence rule from `head` on, their references bound, and
finds them by their names. -/
structure LaidOut (rule : PrecedenceRule) (grammar : Grammar) (head : Nat) : Prop where
  head_handle : grammar.handle? rule.name = some head
  level_handle : ∀ i ≤ rule.levels.length,
    grammar.handle? (levelName rule.name i) = some (head + 1 + (rule.levels.length - i))
  head_rule : grammar.rules[head]? =
    some ⟨rule.name, .precedence, .precedence (rule.levelHandles head)⟩
  atom_rule : grammar.rules[head + 1]? =
    some ⟨levelName rule.name rule.levels.length, .precedenceLevel,
      .expr (rule.atom.bind grammar.handle?)⟩
  level_rule : ∀ i level, rule.levels[i]? = some level →
    grammar.rules[head + 1 + (rule.levels.length - i)]? =
      some ⟨levelName rule.name i, .precedenceLevel,
        .level (level.mapExprs (·.bind grammar.handle?))
          (head + 1 + (rule.levels.length - (i + 1)))⟩

theorem levelHandle_length (rule : PrecedenceRule) (head : Nat) :
    rule.levelHandle head rule.levels.length = head + 1 := by
  rw [levelHandle, Nat.sub_self, Nat.add_zero]

theorem laidOut_of_build {blueprint : Blueprint} {grammar : Grammar}
    (h : blueprint.build = .ok grammar) {i : Nat}
    (hi : blueprint.definitions[i]? = some (.precedence rule)) :
    rule.LaidOut grammar (blueprint.blockStart i) := by
  have hwell := Blueprint.wellFormed_of_build h
  have herrors : rule.errors = [] :=
    errors_eq_nil_iff.mpr (hwell.precedence rule (List.mem_of_getElem? hi))
  obtain ⟨before, after, heq, hstart⟩ := Blueprint.exists_rules_eq hwell hi
  have hplaced : rule.PlacedAt blueprint.rules (blueprint.blockStart i) := by
    rw [heq, ← hstart]
    exact placedAt_expand herrors before after
  have hatom := hplaced.atom_rule
  rw [levelHandle_length] at hatom
  constructor
  · rw [Blueprint.handle?_of_build h, handleOf?_eq_some_iff hwell.nodup_rules, hplaced.head_rule]
    rfl
  · intro j hj
    rw [Blueprint.handle?_of_build h, handleOf?_eq_some_iff hwell.nodup_rules]
    exact hplaced.name_level hj
  · rw [Blueprint.getElem?_rules_of_build h, hplaced.head_rule]
    rfl
  · rw [Blueprint.getElem?_rules_of_build h, hatom]
    rfl
  · intro j level hlevel
    have hplace := hplaced.level_rule j level hlevel
    unfold levelHandle at hplace
    rw [Blueprint.getElem?_rules_of_build h, hplace]
    rfl

/-- A well-formed rule has its levels in front and its atoms behind them. -/
theorem WellFormed.items_eq (h : rule.WellFormed) :
    rule.items = rule.levels.map .operators ++ rule.atoms.map .atom := by
  have hfirst := h.levels_first
  unfold levels atoms
  generalize rule.items = items at hfirst ⊢
  induction items with
  | nil => rfl
  | cons item items ih =>
    rw [List.pairwise_cons] at hfirst
    have hrest := ih hfirst.2
    cases item with
    | operators level =>
      simp only [List.filterMap_cons, PrecedenceItem.level?, PrecedenceItem.atom?, List.map_cons,
        List.cons_append, ← hrest]
    | atom e =>
      have hnone : items.filterMap PrecedenceItem.level? = [] :=
        List.filterMap_eq_nil_iff.mpr fun later hlater => hfirst.1 later hlater rfl
      rw [hnone, List.map_nil, List.nil_append] at hrest
      simp only [List.filterMap_cons, PrecedenceItem.level?, PrecedenceItem.atom?, List.map_cons,
        hnone, List.map_nil, List.nil_append, ← hrest]

end PrecedenceRule

/-! ## Operands -/

/-- The rule that matches the operands, for a rule that is a level. -/
def RuleBody.operand? : RuleBody → Option Nat
  | .level _ operand => some operand
  | .expr _ | .precedence _ => none

/-- From the first of the handles operands lead over all of them, down to a rule that has no
operand. -/
inductive OperandsLead (rules : List Rule) : Nat → List Nat → Prop
  | ends {handle : Nat} {rule : Rule} (hrule : rules[handle]? = some rule)
    (hnone : rule.body.operand? = none) : OperandsLead rules handle [handle]
  | step {handle operand : Nat} {rule : Rule} {path : List Nat}
    (hrule : rules[handle]? = some rule) (hoperand : rule.body.operand? = some operand)
    (hpath : OperandsLead rules operand path) : OperandsLead rules handle (handle :: path)

/-- There is one way to follow operands. -/
theorem OperandsLead.unique {rules : List Rule} {handle : Nat} {path path' : List Nat}
    (h : OperandsLead rules handle path) (h' : OperandsLead rules handle path') :
    path = path' := by
  induction h generalizing path' with
  | ends hrule hnone =>
    cases h' with
    | ends => rfl
    | step hrule' hoperand' =>
      obtain rfl := Option.some.inj (hrule.symm.trans hrule')
      rw [hnone] at hoperand'
      cases hoperand'
  | step hrule hoperand _ ih =>
    cases h' with
    | ends hrule' hnone' =>
      obtain rfl := Option.some.inj (hrule.symm.trans hrule')
      rw [hoperand] at hnone'
      cases hnone'
    | step hrule' hoperand' hpath' =>
      obtain rfl := Option.some.inj (hrule.symm.trans hrule')
      obtain rfl := Option.some.inj (hoperand.symm.trans hoperand')
      rw [ih hpath']

namespace PrecedenceRule

variable {rule : PrecedenceRule} {grammar : Grammar} {head : Nat}

theorem levelHandles_eq_map (rule : PrecedenceRule) (head : Nat) :
    rule.levelHandles head =
      (List.range' 0 (rule.levels.length + 1)).map (rule.levelHandle head) := by
  rw [levelHandles, List.range_eq_range']
  rfl

/-- Operands lead from each level over the tighter ones to the atoms. -/
theorem LaidOut.operandsLead (h : rule.LaidOut grammar head) {i more : Nat}
    (hi : i + more = rule.levels.length) :
    OperandsLead grammar.rules (rule.levelHandle head i)
      ((List.range' i (more + 1)).map (rule.levelHandle head)) := by
  induction more generalizing i with
  | zero =>
    obtain rfl : i = rule.levels.length := hi
    have hatom := h.atom_rule
    rw [← levelHandle_length] at hatom
    exact .ends hatom rfl
  | succ more ih =>
    have hlt : i < rule.levels.length := by omega
    rw [List.range'_succ, List.map_cons]
    exact .step (h.level_rule i _ (List.getElem?_eq_getElem hlt)) rfl (ih (by omega))

theorem nodup_levelHandles (rule : PrecedenceRule) (head : Nat) :
    (rule.levelHandles head).Nodup := by
  rw [levelHandles, List.Nodup, List.pairwise_map]
  refine List.nodup_range.imp_of_mem fun {i j} hi hj hne heq => hne ?_
  rw [List.mem_range] at hi hj
  omega

end PrecedenceRule

/-- A grammar that has been built keeps its definitions in blocks, one behind the other in the
order of the definitions, and nothing else. The block of a plain definition is one rule. That of
a precedence rule with `n` levels and some atoms behind them has `n + 2`: the head; then the one
atom, or the choice of all of them, under the name with number `n`; then the levels, the one
with number `i` at place `1 + (n - i)`, with its operators and with the handle of the name with
number `i + 1` as its operand. The head lists the handles of all these names in order. They are
what operands lead over from the first of them, and they end with the atoms. -/
theorem definitions_lie_in_blocks {blueprint : Blueprint} {grammar : Grammar}
    (h : blueprint.build = .ok grammar) :
    grammar.size = (blueprint.definitions.map Definition.ruleCount).sum ∧
    (∀ i name e, blueprint.definitions[i]? = some (.plain name e) →
      grammar.rules[blueprint.blockStart i]? =
        some ⟨name, .plain, .expr (e.bind grammar.handle?)⟩) ∧
    ∀ i rule, blueprint.definitions[i]? = some (.precedence rule) →
      rule.LaidOut grammar (blueprint.blockStart i) ∧
      rule.items = rule.levels.map .operators ++ rule.atoms.map .atom ∧
      (rule.atoms = [rule.atom] ∨ 2 ≤ rule.atoms.length ∧ rule.atom = .choice rule.atoms) ∧
      ∃ levels, grammar.rules[blueprint.blockStart i]? =
          some ⟨rule.name, .precedence, .precedence levels⟩ ∧
        levels.map some = (List.range (rule.levels.length + 1)).map
          (fun j => grammar.handle? (PrecedenceRule.levelName rule.name j)) ∧
        levels.Nodup ∧ levels.getLast? = some (blueprint.blockStart i + 1) ∧
        ∀ first ∈ levels.head?, ∀ path,
          OperandsLead grammar.rules first path ↔ path = levels := by
  have hwell := Blueprint.wellFormed_of_build h
  refine ⟨Blueprint.size_of_build h, ?_, ?_⟩
  · intro i name e hi
    obtain ⟨before, after, heq, hstart⟩ := Blueprint.exists_rules_eq hwell hi
    rw [Blueprint.getElem?_rules_of_build h, heq, ← hstart, List.append_assoc,
      List.getElem?_append_right (Nat.le_refl _), Nat.sub_self]
    rfl
  · intro i rule hi
    have hrule := hwell.precedence rule (List.mem_of_getElem? hi)
    have hlaid := PrecedenceRule.laidOut_of_build h hi
    refine ⟨hlaid, hrule.items_eq, ?_, rule.levelHandles (blueprint.blockStart i),
      hlaid.head_rule, ?_, rule.nodup_levelHandles _, ?_, ?_⟩
    · have hsome : rule.atoms ≠ [] := fun hnil =>
        PrecedenceRule.atoms_eq_nil_iff.mp hnil hrule.has_atom
      unfold PrecedenceRule.atom
      match hatoms : rule.atoms with
      | [] => exact absurd hatoms hsome
      | [e] => exact Or.inl rfl
      | e :: e' :: es => exact Or.inr ⟨by simp, rfl⟩
    · rw [PrecedenceRule.levelHandles, List.map_map]
      refine List.map_congr_left fun j hj => ?_
      rw [List.mem_range] at hj
      exact (hlaid.level_handle j (by omega)).symm
    · simp [PrecedenceRule.levelHandles, List.range_succ]
    · intro first hfirst path
      have hlead := hlaid.operandsLead (Nat.zero_add rule.levels.length)
      rw [← PrecedenceRule.levelHandles_eq_map] at hlead
      obtain ⟨tighter, htighter⟩ := rule.levelHandles_eq_cons (blueprint.blockStart i)
      rw [htighter] at hfirst
      obtain rfl := Option.some.inj hfirst
      exact ⟨fun hpath => hpath.unique hlead, fun heq => heq ▸ hlead⟩

/-- Signed sums behind a plain definition: two levels, which stand between the head and the end
in the order opposite to that of the rule, and two atoms. -/
theorem definitions_lie_in_blocks_of_signed_sums :
    let plus : BinaryAction := ⟨"l + r", fun _ matched _ _ => .ok matched⟩
    let minus : UnaryAction := ⟨"-x", fun _ matched _ => .ok matched⟩
    let sum : PrecedenceRule :=
      ⟨"Sum", [.operators (.leftAssoc [(.literal (.exact [0x2B]), plus)]),
        .operators (.prefixOps [(.literal (.exact [0x2D]), minus)]),
        .atom (.ruleNamed "Digit"), .atom (.literal (.exact [0x78]))]⟩
    let blueprint : Blueprint :=
      { definitions := [.plain "Digit" (.charClass ⟨[], [('0', '9')]⟩), .precedence sum] }
    ∃ grammar, blueprint.build = .ok grammar ∧ grammar.size = 5 ∧ blueprint.blockStart 1 = 1 ∧
      grammar.rules[1]? = some ⟨"Sum", .precedence, .precedence [4, 3, 2]⟩ ∧
      grammar.handle? (PrecedenceRule.levelName "Sum" 1) = some 3 ∧
      OperandsLead grammar.rules 4 [4, 3, 2] := by
  intro plus minus sum blueprint
  have herrors : blueprint.errors = [] := by decide
  obtain ⟨grammar, hbuild⟩ := (Blueprint.errors_eq_nil_iff.mp herrors).exists_build
  obtain ⟨hsize, -, hprecedence⟩ := definitions_lie_in_blocks hbuild
  obtain ⟨hlaid, -, -, levels, hlevels, -, -, -, hpath⟩ := hprecedence 1 sum rfl
  have hhead : grammar.rules[1]? = some ⟨"Sum", .precedence, .precedence [4, 3, 2]⟩ :=
    hlaid.head_rule
  obtain rfl : levels = [4, 3, 2] := by
    rw [show blueprint.blockStart 1 = 1 from rfl, hhead] at hlevels
    cases hlevels
    rfl
  exact ⟨grammar, hbuild, hsize, rfl, hhead, hlaid.level_handle 1 (by decide),
    (hpath 4 rfl _).mpr rfl⟩

end Peg
