import Mathlib.Data.List.Nodup
import Peg.Parse
import Peg.Proofs.Grammar.Layout

/-!
Which definitions make a grammar. A blueprint is well formed when its precedence
rules are, when no two rules have one name, and when every name that is used is
one that is made: those of references and of the start among the rules, those
that actions expect among the labels around them. The errors that are collected
while a grammar is built come to nothing just for the well-formed blueprints.
-/

namespace Peg

/-! ## Precedence rules -/

namespace PrecedenceRule

/-- There is an atom, and after an atom there is no level. -/
structure WellFormed (rule : PrecedenceRule) : Prop where
  has_atom : ∃ e, PrecedenceItem.atom e ∈ rule.items
  levels_first : rule.items.Pairwise fun item later =>
    item.atom?.isSome → later.level? = none

theorem atoms_eq_nil_iff {rule : PrecedenceRule} :
    rule.atoms = [] ↔ ¬ ∃ e, PrecedenceItem.atom e ∈ rule.items := by
  rw [atoms, List.filterMap_eq_nil_iff]
  constructor
  · rintro hnone ⟨e, hmem⟩
    cases hnone _ hmem
  · intro hnot item hmem
    cases item with
    | operators level => rfl
    | atom e => exact absurd ⟨e, hmem⟩ hnot

/-- Once the levels in front are dropped, the first item left is an atom. -/
theorem any_level_dropWhile_eq_false_iff {items : List PrecedenceItem} :
    (items.dropWhile (·.level?.isSome)).any (·.level?.isSome) = false ↔
      items.Pairwise fun item later => item.atom?.isSome → later.level? = none := by
  induction items with
  | nil => simp
  | cons item items ih =>
    cases item with
    | operators level =>
      rw [List.dropWhile_cons_of_pos rfl, ih, List.pairwise_cons]
      simp [PrecedenceItem.atom?]
    | atom e =>
      rw [List.dropWhile_cons_of_neg (by simp [PrecedenceItem.level?]), List.pairwise_cons]
      simp only [List.any_cons, PrecedenceItem.level?, PrecedenceItem.atom?, Option.isSome_none,
        Bool.false_or, List.any_eq_false, Option.not_isSome_iff_eq_none, Option.isSome_some,
        forall_const]
      constructor
      · intro hnone
        exact ⟨hnone, List.pairwise_of_forall_mem_list fun _ _ later hlater _ => hnone later hlater⟩
      · exact fun h => h.1

theorem errors_eq_nil_iff {rule : PrecedenceRule} : rule.errors = [] ↔ rule.WellFormed := by
  have hnil : rule.errors = [] ↔ rule.hasMisplacedAtom = false ∧ rule.atoms ≠ [] := by
    simp [errors]
  rw [hnil, hasMisplacedAtom, any_level_dropWhile_eq_false_iff, ne_eq, atoms_eq_nil_iff, not_not]
  constructor
  · rintro ⟨hfirst, hatom⟩
    exact ⟨hatom, hfirst⟩
  · intro h
    exact ⟨h.levels_first, h.has_atom⟩

end PrecedenceRule

theorem Definition.errors_eq_nil_iff {ds : List Definition} :
    (∀ d ∈ ds, d.errors = []) ↔ ∀ rule, .precedence rule ∈ ds → rule.WellFormed := by
  constructor
  · intro h rule hmem
    exact PrecedenceRule.errors_eq_nil_iff.mp (h _ hmem)
  · intro h d hmem
    cases d with
    | plain name e => rfl
    | precedence rule => exact PrecedenceRule.errors_eq_nil_iff.mpr (h rule hmem)

/-! ## Names and handles -/

theorem isSome_handleOf?_iff {rules : List Rule} {name : String} :
    (handleOf? rules name).isSome ↔ name ∈ rules.map Rule.name := by
  simp [handleOf?, List.findIdx?_isSome]

theorem isNone_handleOf?_iff {rules : List Rule} {name : String} :
    (handleOf? rules name).isNone ↔ name ∉ rules.map Rule.name := by
  rw [← isSome_handleOf?_iff, Option.not_isSome_iff_eq_none, Option.isNone_iff_eq_none]

/-- Where no name is used twice, the handle of a name is wherever a rule has it. -/
theorem handleOf?_eq_some_iff {rules : List Rule} (h : (rules.map Rule.name).Nodup)
    {name : String} {handle : Nat} :
    handleOf? rules name = some handle ↔ (rules[handle]?).map Rule.name = some name := by
  rw [handleOf?, List.findIdx?_eq_some_iff_getElem]
  constructor
  · rintro ⟨hlt, hname, -⟩
    rw [List.getElem?_eq_getElem hlt]
    simpa using hname
  · intro hname
    obtain ⟨rule, hrule, rfl⟩ := Option.map_eq_some_iff.mp hname
    obtain ⟨hlt, rfl⟩ := List.getElem?_eq_some_iff.mp hrule
    refine ⟨hlt, by simp, fun earlier hearlier => ?_⟩
    have hne := List.pairwise_iff_getElem.mp h earlier handle (by simpa using by omega)
      (by simpa using hlt) hearlier
    simpa using hne

/-- The first place of a name is before another just where the name is repeated. -/
theorem repeatedNames_eq_nil_iff {rules : List Rule} :
    repeatedNames rules = [] ↔ (rules.map Rule.name).Nodup := by
  simp only [repeatedNames, List.map_eq_nil_iff, List.filter_eq_nil_iff, decide_eq_true_eq,
    Prod.forall, List.mk_mem_zipIdx_iff_getElem?]
  constructor
  · intro hfirst
    rw [List.Nodup, List.pairwise_iff_getElem]
    intro i j hi hj hij heq
    have hle := hfirst _ j (List.getElem?_eq_getElem hj)
    rw [← heq] at hle
    have hidx : (rules.map Rule.name).idxOf (rules.map Rule.name)[i] ≤ i := by
      by_contra hlt
      have hne := List.not_of_lt_findIdx (Nat.lt_of_not_le hlt)
      simp at hne
    omega
  · intro hnodup name i hname
    obtain ⟨hi, rfl⟩ := List.getElem?_eq_some_iff.mp hname
    rw [hnodup.idxOf_getElem i hi]
    exact Nat.lt_irrefl i

/-- A rule refers to an unknown name just where a reference in it has a name that no
rule has. -/
theorem mem_unknownRules_iff {rules : List Rule} {rule : Rule} {error : GrammarError} :
    error ∈ rule.unknownRules (handleOf? rules) ↔
      ∃ root ∈ rule.exprs, ∃ ref, (Expr.rule ref).Occurs root ∧
        ref.name ∉ rules.map Rule.name ∧ .unknownRule ref.name rule.name = error := by
  simp only [Rule.unknownRules, List.mem_filterMap, List.mem_flatMap, Expr.mem_references_iff,
    isNone_handleOf?_iff, Option.ite_none_right_eq_some, Option.some.injEq]
  constructor
  · rintro ⟨ref, ⟨root, hroot, hoccurs⟩, hunknown, herror⟩
    exact ⟨root, hroot, ref, hoccurs, hunknown, herror⟩
  · rintro ⟨root, hroot, ref, hoccurs, hunknown, herror⟩
    exact ⟨ref, ⟨root, hroot, hoccurs⟩, hunknown, herror⟩

theorem unknownRules_eq_nil_iff {rules : List Rule} {rule : Rule} :
    rule.unknownRules (handleOf? rules) = [] ↔
      ∀ root ∈ rule.exprs, ∀ ref, (Expr.rule ref).Occurs root → ref.name ∈ rules.map Rule.name := by
  simp only [List.eq_nil_iff_forall_not_mem, mem_unknownRules_iff]
  constructor
  · intro hnone root hroot ref hoccurs
    by_contra hunknown
    exact hnone _ ⟨root, hroot, ref, hoccurs, hunknown, rfl⟩
  · rintro hknown error ⟨root, hroot, ref, hoccurs, hunknown, -⟩
    exact hunknown (hknown root hroot ref hoccurs)

theorem unknownCaptures_eq_nil_iff {rule : Rule} :
    rule.unknownCaptures = [] ↔ ∀ root ∈ rule.exprs, root.CapturesProvided := by
  simp only [Rule.unknownCaptures, List.flatMap_eq_nil_iff, List.map_eq_nil_iff,
    Expr.missingCaptures_labels_eq_nil_iff]

/-! ## Blueprints -/

namespace Blueprint

/-- The names of all rules that the definitions make. -/
def names (blueprint : Blueprint) : List String :=
  blueprint.definitions.flatMap Definition.names

/-- Nothing keeps the blueprint from being a grammar. -/
structure WellFormed (blueprint : Blueprint) : Prop where
  nonempty : blueprint.definitions ≠ []
  precedence : ∀ rule, .precedence rule ∈ blueprint.definitions → rule.WellFormed
  distinct : blueprint.names.Nodup
  references : ∀ d ∈ blueprint.definitions, ∀ root ∈ d.roots, ∀ ref,
    (Expr.rule ref).Occurs root → ref.name ∈ blueprint.names
  captures : ∀ d ∈ blueprint.definitions, ∀ root ∈ d.roots, root.CapturesProvided
  entry : ∀ name ∈ blueprint.entry?, name ∈ blueprint.names

variable {blueprint : Blueprint}

/-- A statement about the expressions of all rules is one about those of the
definitions. -/
theorem forall_exprs_iff (h : ∀ d ∈ blueprint.definitions, d.errors = []) {p : Expr → Prop} :
    (∀ rule ∈ blueprint.rules, ∀ root ∈ rule.exprs, p root) ↔
      ∀ d ∈ blueprint.definitions, ∀ root ∈ d.roots, p root := by
  have hmem := fun root => Definition.mem_exprs_expandAll h 0 (e := root)
  constructor
  · intro hrules d hd root hroot
    obtain ⟨rule, hrule, hexpr⟩ := (hmem root).mpr ⟨d, hd, hroot⟩
    exact hrules rule hrule root hexpr
  · intro hdefinitions rule hrule root hexpr
    obtain ⟨d, hd, hroot⟩ := (hmem root).mp ⟨rule, hrule, hexpr⟩
    exact hdefinitions d hd root hroot

theorem perm_names (h : ∀ d ∈ blueprint.definitions, d.errors = []) :
    (blueprint.rules.map Rule.name).Perm blueprint.names :=
  Definition.map_name_expandAll h 0

/-- Of each kind of error that concerns more than one definition there is none. -/
theorem jointErrors_eq_nil_iff :
    blueprint.jointErrors = [] ↔
      blueprint.rules ≠ [] ∧ repeatedNames blueprint.rules = [] ∧
        (∀ rule ∈ blueprint.rules, rule.unknownRules (handleOf? blueprint.rules) = []) ∧
        (∀ rule ∈ blueprint.rules, rule.unknownCaptures = []) ∧
        ∀ name ∈ blueprint.entry?, (handleOf? blueprint.rules name).isSome := by
  cases hentry : blueprint.entry? with
  | none =>
    simp [jointErrors, hentry]
  | some name =>
    simp [jointErrors, hentry, Option.isSome_iff_ne_none]

theorem errors_eq_nil_iff : blueprint.errors = [] ↔ blueprint.WellFormed := by
  have hsplit : blueprint.errors = [] ↔
      (∀ d ∈ blueprint.definitions, d.errors = []) ∧ blueprint.jointErrors = [] := by
    simp only [errors, List.append_eq_nil_iff, List.flatMap_eq_nil_iff]
  -- only where each precedence rule is well formed do the rules stand for the definitions
  have hjoint (h : ∀ d ∈ blueprint.definitions, d.errors = []) : blueprint.jointErrors = [] ↔
      blueprint.definitions ≠ [] ∧ blueprint.names.Nodup ∧
        (∀ d ∈ blueprint.definitions, ∀ root ∈ d.roots, ∀ ref,
          (Expr.rule ref).Occurs root → ref.name ∈ blueprint.names) ∧
        (∀ d ∈ blueprint.definitions, ∀ root ∈ d.roots, root.CapturesProvided) ∧
        ∀ name ∈ blueprint.entry?, name ∈ blueprint.names := by
    have hnames := perm_names h
    have hempty : blueprint.rules = [] ↔ blueprint.definitions = [] :=
      Definition.expandAll_eq_nil_iff
    simp only [jointErrors_eq_nil_iff, repeatedNames_eq_nil_iff, unknownRules_eq_nil_iff,
      unknownCaptures_eq_nil_iff, isSome_handleOf?_iff, forall_exprs_iff h, hnames.nodup_iff,
      hnames.mem_iff, hempty, ne_eq]
  rw [hsplit]
  constructor
  · rintro ⟨hdefinitions, herrors⟩
    obtain ⟨hnonempty, hdistinct, hreferences, hcaptures, hentry⟩ :=
      (hjoint hdefinitions).mp herrors
    exact ⟨hnonempty, Definition.errors_eq_nil_iff.mp hdefinitions, hdistinct, hreferences,
      hcaptures, hentry⟩
  · intro h
    have hdefinitions := Definition.errors_eq_nil_iff.mpr h.precedence
    exact ⟨hdefinitions, (hjoint hdefinitions).mpr
      ⟨h.nonempty, h.distinct, h.references, h.captures, h.entry⟩⟩

/-- There is a rule to start with wherever nothing else is wrong. -/
theorem WellFormed.exists_entryHandle (h : blueprint.WellFormed) :
    ∃ entry, blueprint.entryHandle? = some entry := by
  have hdefinitions := Definition.errors_eq_nil_iff.mpr h.precedence
  unfold entryHandle?
  cases hentry : blueprint.entry? with
  | none =>
    have hrules : blueprint.rules ≠ [] := fun hnil =>
      h.nonempty (Definition.expandAll_eq_nil_iff.mp hnil)
    exact ⟨0, if_neg hrules⟩
  | some name =>
    have hmem := h.entry name hentry
    rw [← (perm_names hdefinitions).mem_iff, ← isSome_handleOf?_iff] at hmem
    exact Option.isSome_iff_exists.mp hmem

theorem build_eq_ok_iff {grammar : Grammar} :
    blueprint.build = .ok grammar ↔
      blueprint.errors = [] ∧ blueprint.entryHandle? = some grammar.entry ∧
        grammar.rules = blueprint.rules.map (Rule.bind (handleOf? blueprint.rules)) ∧
        grammar.name? = blueprint.name? := by
  unfold build
  constructor
  · intro h
    split at h
    · next herrors hentry =>
      cases h
      exact ⟨herrors, hentry, rfl, rfl⟩
    · cases h
  · rintro ⟨herrors, hentry, hrules, hname⟩
    split
    · next entry _ hentry' =>
      rw [hentry] at hentry'
      cases hentry'
      cases grammar
      simp_all
    · next hnot => exact (hnot _ herrors hentry).elim

/-- Binding references changes no name, and so no handle. -/
theorem handle?_of_build {grammar : Grammar} (h : blueprint.build = .ok grammar) (name : String) :
    grammar.handle? name = handleOf? blueprint.rules name := by
  obtain ⟨-, -, hrules, -⟩ := build_eq_ok_iff.mp h
  rw [Grammar.handle?, hrules, handleOf?, List.findIdx?_map]
  rfl

theorem map_name_rules_of_build {grammar : Grammar} (h : blueprint.build = .ok grammar) :
    grammar.rules.map Rule.name = blueprint.rules.map Rule.name := by
  obtain ⟨-, -, hrules, -⟩ := build_eq_ok_iff.mp h
  rw [hrules, List.map_map]
  rfl

theorem WellFormed.nodup_rules (h : blueprint.WellFormed) :
    (blueprint.rules.map Rule.name).Nodup :=
  (perm_names (Definition.errors_eq_nil_iff.mpr h.precedence)).nodup_iff.mpr h.distinct

theorem name_entryRule_of_build {grammar : Grammar} (h : blueprint.build = .ok grammar) :
    (blueprint.rules[grammar.entry]?).map Rule.name = some grammar.entryRule.name := by
  have hentry : grammar.rules[grammar.entry]? = some grammar.entryRule :=
    List.getElem?_eq_getElem grammar.entry_lt
  rw [← List.getElem?_map, ← map_name_rules_of_build h, List.getElem?_map, hentry]
  rfl

theorem WellFormed.exists_build (h : blueprint.WellFormed) :
    ∃ grammar, blueprint.build = .ok grammar := by
  obtain ⟨entry, hentry⟩ := h.exists_entryHandle
  have hlt : entry < (blueprint.rules.map (Rule.bind (handleOf? blueprint.rules))).length := by
    simpa using lt_length_of_entryHandle? hentry
  exact ⟨⟨blueprint.name?, _, entry, hlt⟩,
    build_eq_ok_iff.mpr ⟨errors_eq_nil_iff.mpr h, hentry, rfl, rfl⟩⟩

theorem wellFormed_of_build {grammar : Grammar} (h : blueprint.build = .ok grammar) :
    blueprint.WellFormed :=
  errors_eq_nil_iff.mp (build_eq_ok_iff.mp h).1

end Blueprint

/-- Just the well-formed blueprints make a grammar. It starts with the rule that
has the configured name, or else with that of the first definition, and it has
one rule for a plain definition and two more than levels for a precedence rule. -/
theorem build_succeeds_iff_wellFormed (blueprint : Blueprint) :
    ((∃ grammar, blueprint.build = .ok grammar) ↔ blueprint.WellFormed) ∧
    ∀ grammar, blueprint.build = .ok grammar →
      grammar.handle? grammar.entryRule.name = some grammar.entry ∧
      some grammar.entryRule.name =
        blueprint.entry?.or (blueprint.definitions.head?.map Definition.name) ∧
      grammar.size = (blueprint.definitions.map Definition.ruleCount).sum := by
  constructor
  · constructor
    · rintro ⟨grammar, h⟩
      exact Blueprint.wellFormed_of_build h
    · exact Blueprint.WellFormed.exists_build
  · intro grammar h
    have hwell := Blueprint.wellFormed_of_build h
    have hdefinitions := Definition.errors_eq_nil_iff.mpr hwell.precedence
    obtain ⟨-, hentry, hrules, -⟩ := Blueprint.build_eq_ok_iff.mp h
    have hname := Blueprint.name_entryRule_of_build h
    refine ⟨?_, ?_, ?_⟩
    · rw [Blueprint.handle?_of_build h, handleOf?_eq_some_iff hwell.nodup_rules]
      exact hname
    · rw [← hname]
      cases hconfigured : blueprint.entry? with
      | some name =>
        simp only [Blueprint.entryHandle?, hconfigured] at hentry
        exact (handleOf?_eq_some_iff hwell.nodup_rules).mp hentry
      | none =>
        obtain ⟨-, hzero⟩ : blueprint.rules ≠ [] ∧ 0 = grammar.entry := by
          simpa [Blueprint.entryHandle?, hconfigured] using hentry
        rw [← hzero, ← List.head?_eq_getElem?]
        exact Definition.head?_expandAll 0 blueprint.definitions
    · rw [Grammar.size, hrules, List.length_map]
      exact Definition.length_expandAll hdefinitions 0

/-- Sums of digits start with the rule that is configured, and have a rule for
their head, one for their level and one for their atoms. -/
theorem build_succeeds_for_sums :
    let digit : Expr := .label "d" (.charClass ⟨[], [('0', '9')]⟩)
    let plus : BinaryAction := ⟨"l + r", fun _ matched _ _ => .ok matched⟩
    let blueprint : Blueprint :=
      { definitions :=
          [.plain "Digit" (.action digit ⟨"d", ["d"], fun _ matched => .ok matched⟩),
            .precedence ⟨"Sum", [.operators (.leftAssoc [(.literal (.exact [0x2B]), plus)]),
              .atom (.ruleNamed "Digit")]⟩]
        entry? := some "Sum" }
    ∃ grammar, blueprint.build = .ok grammar ∧ grammar.entryRule.name = "Sum" ∧
      grammar.size = 4 := by
  intro digit plus blueprint
  have hwell : blueprint.WellFormed := by
    constructor
    · exact List.cons_ne_nil _ _
    · intro rule hmem
      obtain rfl : rule = _ := by simpa [blueprint] using hmem
      exact PrecedenceRule.errors_eq_nil_iff.mp rfl
    · decide
    · simp only [← Expr.mem_references_iff]
      decide
    · simp only [← Expr.missingCaptures_labels_eq_nil_iff]
      decide
    · decide
  have hbuild := build_succeeds_iff_wellFormed blueprint
  obtain ⟨grammar, h⟩ := hbuild.1.mpr hwell
  obtain ⟨-, hname, hsize⟩ := hbuild.2 grammar h
  exact ⟨grammar, h, Option.some.inj hname, hsize⟩

/-! ## Rules without references -/

/-- Neither the operators nor the atoms refer to rules. -/
def PrecedenceRule.Closed (rule : PrecedenceRule) : Prop :=
  ∀ root ∈ (Definition.precedence rule).roots, root.Closed

theorem OperatorLevel.bind_eq {level : OperatorLevel} (h : ∀ e ∈ level.exprs, e.Closed)
    (handle? : String → Option Nat) : level.mapExprs (·.bind handle?) = level := by
  have hops {α : Type} (ops : List (Expr × α)) (hclosed : ∀ e ∈ ops.map Prod.fst, e.Closed) :
      ops.map (fun (e, a) => (e.bind handle?, a)) = ops := by
    refine Eq.trans (List.map_congr_left fun op hop => ?_) (List.map_id ops)
    have hbind := (hclosed op.1 (List.mem_map_of_mem hop)).bind_eq handle?
    simp only [hbind, id]
  cases level with
  | prefixOps ops | postfixOps ops | leftAssoc ops | rightAssoc ops =>
    rw [mapExprs, hops ops h]

namespace PrecedenceRule

variable {rule : PrecedenceRule} {rules : List Rule} {head : Nat}

theorem Closed.level (h : rule.Closed) {i : Nat} {level : OperatorLevel}
    (hlevel : rule.levels[i]? = some level) : ∀ e ∈ level.exprs, e.Closed := by
  intro e he
  have hmem : level ∈ rule.levels := List.mem_of_getElem? hlevel
  exact h e (List.mem_cons_of_mem _ (List.mem_flatMap.mpr ⟨level, hmem, he⟩))

/-- Binding references does nothing to a precedence rule that has none. -/
theorem PlacedAt.bind (h : rule.PlacedAt rules head) (hclosed : rule.Closed)
    (handle? : String → Option Nat) :
    rule.PlacedAt (rules.map (Rule.bind handle?)) head := by
  constructor
  · rw [List.getElem?_map, h.head_rule]
    rfl
  · have hatom : rule.atom.bind handle? = rule.atom :=
      (hclosed rule.atom List.mem_cons_self).bind_eq handle?
    rw [List.getElem?_map, h.atom_rule]
    simp [Rule.bind, Rule.mapExprs, RuleBody.mapExprs, atomRule, hatom]
  · intro i level hlevel
    have hbind := OperatorLevel.bind_eq (hclosed.level hlevel) handle?
    rw [List.getElem?_map, h.level_rule i level hlevel]
    simp [Rule.bind, Rule.mapExprs, RuleBody.mapExprs, hbind]

/-- The handle of a placed level, or of the atoms, has the rule with its name. -/
theorem PlacedAt.name_level (h : rule.PlacedAt rules head) {i : Nat}
    (hi : i ≤ rule.levels.length) :
    (rules[rule.levelHandle head i]?).map Rule.name = some (levelName rule.name i) := by
  rcases Nat.lt_or_eq_of_le hi with hlt | rfl
  · rw [h.level_rule i _ (List.getElem?_eq_getElem hlt)]
    rfl
  · rw [h.atom_rule]
    rfl

theorem PlacedAt.length_le (h : rule.PlacedAt rules head) :
    head + rule.levels.length + 2 ≤ rules.length := by
  obtain ⟨loosest, hrule, -⟩ := Option.map_eq_some_iff.mp (h.name_level (Nat.zero_le _))
  have hlt := (List.getElem?_eq_some_iff.mp hrule).1
  unfold levelHandle at hlt
  omega

/-- Calls may nest deep enough for each level of a placed rule at each position. -/
theorem PlacedAt.le_callDepth {grammar : Grammar} (h : rule.PlacedAt grammar.rules head)
    (cursor : Cursor) :
    (cursor.remaining.length + 1) * (rule.levels.length + 2) < grammar.callDepth cursor := by
  have hsize := h.length_le
  have hmul : (cursor.remaining.length + 1) * (rule.levels.length + 2) ≤
      (cursor.remaining.length + 1) * grammar.rules.length :=
    Nat.mul_le_mul_left _ (by omega)
  rw [Grammar.callDepth, Grammar.size]
  omega

/-- In a grammar with the precedence rule, its rules lie side by side and have the
handles of their names. -/
theorem exists_placedAt_of_build {blueprint : Blueprint} {grammar : Grammar}
    (h : blueprint.build = .ok grammar) (hmem : .precedence rule ∈ blueprint.definitions)
    (hclosed : rule.Closed) :
    ∃ head, rule.PlacedAt grammar.rules head ∧ grammar.handle? rule.name = some head ∧
      ∀ i ≤ rule.levels.length,
        grammar.handle? (levelName rule.name i) = some (rule.levelHandle head i) := by
  have hwell := Blueprint.wellFormed_of_build h
  have herrors : rule.errors = [] :=
    PrecedenceRule.errors_eq_nil_iff.mpr (hwell.precedence rule hmem)
  obtain ⟨-, -, hrules, -⟩ := Blueprint.build_eq_ok_iff.mp h
  obtain ⟨before, after, heq⟩ := Definition.exists_expandAll_eq hmem 0
  have hplaced : rule.PlacedAt blueprint.rules before.length := by
    rw [Blueprint.rules, heq, Nat.zero_add]
    exact placedAt_expand herrors before after
  refine ⟨before.length, hrules ▸ hplaced.bind hclosed _, ?_, ?_⟩
  · rw [Blueprint.handle?_of_build h, handleOf?_eq_some_iff hwell.nodup_rules, hplaced.head_rule]
    rfl
  · intro i hi
    rw [Blueprint.handle?_of_build h, handleOf?_eq_some_iff hwell.nodup_rules]
    exact hplaced.name_level hi

theorem closed_of_leaves (h : ∀ root ∈ (Definition.precedence rule).roots, root.Leaf) :
    rule.Closed :=
  fun root hroot => (h root hroot).closed

/-- A well-formed precedence rule whose operators and atoms take bytes themselves makes
a grammar on its own. -/
theorem WellFormed.exists_build (h : rule.WellFormed)
    (hleaves : ∀ root ∈ (Definition.precedence rule).roots, root.Leaf) :
    ∃ grammar, Blueprint.build { definitions := [.precedence rule] } = .ok grammar := by
  apply Blueprint.WellFormed.exists_build
  constructor
  · exact List.cons_ne_nil _ _
  · intro other hother
    obtain rfl : other = rule := by simpa using hother
    exact h
  · simpa [Blueprint.names] using rule.nodup_names
  · intro d hd root hroot ref hoccurs
    obtain rfl := List.mem_singleton.mp hd
    exact absurd hoccurs ((hleaves root hroot).closed ref)
  · intro d hd root hroot
    obtain rfl := List.mem_singleton.mp hd
    exact (hleaves root hroot).capturesProvided
  · intro name hname
    cases hname

end PrecedenceRule

end Peg
