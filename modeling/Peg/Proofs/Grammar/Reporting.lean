import Peg.Proofs.Grammar.WellFormed

/-!
What is reported of a blueprint that makes no grammar. References to unknown names
and captures that no label provides are looked for in the rules that the definitions
make, all of them, whatever else is wrong. A precedence rule that is not well formed
makes its head only, so nothing is reported of its operators and atoms.
-/

namespace Peg

/-- A plain definition is well formed, a precedence rule where its items are. -/
def Definition.WellFormed : Definition → Prop
  | plain _ _ => True
  | precedence rule => rule.WellFormed

theorem Definition.errors_eq_nil_iff_wellFormed {d : Definition} :
    d.errors = [] ↔ d.WellFormed := by
  cases d with
  | plain name e => simp [errors, WellFormed]
  | precedence rule => exact PrecedenceRule.errors_eq_nil_iff

/-- What is wrong with a precedence rule on its own concerns no reference and no
capture. -/
theorem PrecedenceRule.mem_errors {rule : PrecedenceRule} {error : GrammarError}
    (h : error ∈ rule.errors) :
    error = .misplacedAtom rule.name ∨ error = .missingAtoms rule.name := by
  unfold errors at h
  split at h <;> split at h <;> simp_all

namespace Blueprint

variable {blueprint : Blueprint}

/-- Some rule has the name, whether the blueprint makes a grammar or not. -/
def Makes (blueprint : Blueprint) (name : String) : Prop :=
  ∃ d ∈ blueprint.definitions, name = d.name ∨ (d.WellFormed ∧ name ∈ d.names)

theorem mem_name_rules_iff {name : String} :
    name ∈ blueprint.rules.map Rule.name ↔ blueprint.Makes name := by
  simp only [rules, Definition.mem_name_expandAll, Makes,
    Definition.errors_eq_nil_iff_wellFormed]

theorem exists_rule_iff {name : String} {e : Expr} :
    (∃ rule ∈ blueprint.rules, rule.name = name ∧ e ∈ rule.exprs) ↔
      ∃ d ∈ blueprint.definitions, d.WellFormed ∧ (name, e) ∈ d.namedRoots := by
  simp only [rules, Definition.mem_namedRoots_expandAll,
    Definition.errors_eq_nil_iff_wellFormed]

/-- What is reported when a blueprint makes no grammar is all of its errors. -/
theorem exists_reported_iff {error : GrammarError} :
    (∃ errors, blueprint.build = .error errors ∧ error ∈ errors) ↔ error ∈ blueprint.errors := by
  constructor
  · rintro ⟨errors, hbuild, hmem⟩
    unfold build at hbuild
    split at hbuild
    · cases hbuild
    · obtain rfl := Except.error.inj hbuild
      exact hmem
  · intro hmem
    refine ⟨blueprint.errors, ?_, hmem⟩
    unfold build
    split
    · next hnil _ =>
      rw [hnil] at hmem
      cases hmem
    · rfl

theorem mem_errors_of_joint {error : GrammarError}
    (h : ∀ name, error ≠ .misplacedAtom name ∧ error ≠ .missingAtoms name) :
    error ∈ blueprint.errors ↔ error ∈ blueprint.jointErrors := by
  have hown : error ∉ blueprint.definitions.flatMap Definition.errors := by
    intro hmem
    obtain ⟨d, -, hd⟩ := List.mem_flatMap.mp hmem
    cases d with
    | plain name e => cases hd
    | precedence rule =>
      rcases PrecedenceRule.mem_errors hd with heq | heq
      · exact (h rule.name).1 heq
      · exact (h rule.name).2 heq
  rw [errors, List.mem_append, or_iff_right hown]

theorem mem_jointErrors_iff {error : GrammarError} :
    error ∈ blueprint.jointErrors ↔
      (blueprint.rules = [] ∧ error = .empty) ∨
      (∃ name ∈ repeatedNames blueprint.rules, .duplicateRule name = error) ∨
      (∃ rule ∈ blueprint.rules, error ∈ rule.unknownRules (handleOf? blueprint.rules)) ∨
      (∃ rule ∈ blueprint.rules, error ∈ rule.unknownCaptures) ∨
      ∃ name ∈ blueprint.entry?, (handleOf? blueprint.rules name).isNone ∧
        error = .unknownEntry name := by
  cases hentry : blueprint.entry? with
  | none => simp [jointErrors, hentry]
  | some name => simp [jointErrors, hentry]

/-- References to unknown names are reported of all well-formed definitions. -/
theorem mem_unknownRule_iff {name referrer : String} :
    .unknownRule name referrer ∈ blueprint.errors ↔
      ¬ blueprint.Makes name ∧ ∃ d ∈ blueprint.definitions, d.WellFormed ∧
        ∃ root, (referrer, root) ∈ d.namedRoots ∧
          ∃ ref, (Expr.rule ref).Occurs root ∧ ref.name = name := by
  have hjoint : .unknownRule name referrer ∈ blueprint.jointErrors ↔
      ∃ rule ∈ blueprint.rules, .unknownRule name referrer ∈
        rule.unknownRules (handleOf? blueprint.rules) := by
    simp [mem_jointErrors_iff, Rule.unknownCaptures]
  rw [mem_errors_of_joint (by simp), hjoint]
  simp only [mem_unknownRules_iff, mem_name_rules_iff, GrammarError.unknownRule.injEq]
  constructor
  · rintro ⟨rule, hrule, root, hroot, ref, hoccurs, hunknown, rfl, rfl⟩
    obtain ⟨d, hd, hwell, hnamed⟩ := exists_rule_iff.mp ⟨rule, hrule, rfl, hroot⟩
    exact ⟨hunknown, d, hd, hwell, root, hnamed, ref, hoccurs, rfl⟩
  · rintro ⟨hunknown, d, hd, hwell, root, hnamed, ref, hoccurs, rfl⟩
    obtain ⟨rule, hrule, rfl, hroot⟩ := exists_rule_iff.mpr ⟨d, hd, hwell, hnamed⟩
    exact ⟨rule, hrule, root, hroot, ref, hoccurs, hunknown, rfl, rfl⟩

/-- Captures that no label provides are reported of all well-formed definitions. -/
theorem mem_unknownCapture_iff {owner source name : String} :
    .unknownCapture owner source name ∈ blueprint.errors ↔
      ∃ d ∈ blueprint.definitions, d.WellFormed ∧
        ∃ root, (owner, root) ∈ d.namedRoots ∧ root.Unprovided source name := by
  have hjoint : .unknownCapture owner source name ∈ blueprint.jointErrors ↔
      ∃ rule ∈ blueprint.rules, .unknownCapture owner source name ∈ rule.unknownCaptures := by
    simp [mem_jointErrors_iff, Rule.unknownRules]
  rw [mem_errors_of_joint (by simp), hjoint]
  simp only [Rule.unknownCaptures, List.mem_flatMap, List.mem_map, Prod.exists,
    GrammarError.unknownCapture.injEq, Expr.mem_missingCaptures_labels_iff]
  constructor
  · rintro ⟨rule, hrule, root, hroot, _, _, hmissing, rfl, rfl, rfl⟩
    obtain ⟨d, hd, hwell, hnamed⟩ := exists_rule_iff.mp ⟨rule, hrule, rfl, hroot⟩
    exact ⟨d, hd, hwell, root, hnamed, hmissing⟩
  · rintro ⟨d, hd, hwell, root, hnamed, hmissing⟩
    obtain ⟨rule, hrule, rfl, hroot⟩ := exists_rule_iff.mpr ⟨d, hd, hwell, hnamed⟩
    exact ⟨rule, hrule, root, hroot, source, name, hmissing, rfl, rfl, rfl⟩

end Blueprint

/-- Whatever else is wrong with a blueprint, the errors that come of building it tell of
a reference to a name that no rule has, and of a capture that no label provides, just if
it stands in a well-formed definition. Nothing that stands among the operators and
atoms of a precedence rule that is not well formed is reported. -/
theorem reported_iff_definition_wellFormed (blueprint : Blueprint) :
    (∀ name referrer,
      (∃ errors, blueprint.build = .error errors ∧ .unknownRule name referrer ∈ errors) ↔
        ¬ blueprint.Makes name ∧ ∃ d ∈ blueprint.definitions, d.WellFormed ∧
          ∃ root, (referrer, root) ∈ d.namedRoots ∧
            ∃ ref, (Expr.rule ref).Occurs root ∧ ref.name = name) ∧
    ∀ owner source name,
      (∃ errors, blueprint.build = .error errors ∧
        .unknownCapture owner source name ∈ errors) ↔
        ∃ d ∈ blueprint.definitions, d.WellFormed ∧
          ∃ root, (owner, root) ∈ d.namedRoots ∧ root.Unprovided source name := by
  constructor
  · intro name referrer
    rw [Blueprint.exists_reported_iff, Blueprint.mem_unknownRule_iff]
  · intro owner source name
    rw [Blueprint.exists_reported_iff, Blueprint.mem_unknownCapture_iff]

/-- An atom stands before a level, so neither the reference in it nor what the action of
the next atom expects is reported. -/
theorem malformed_rule_hides_errors :
    let keep : Action := ⟨"x", ["x"], fun _ matched => .ok matched⟩
    let negate : UnaryAction := ⟨"-x", fun _ matched _ => .ok matched⟩
    let missing : Expr := .ruleNamed "Missing"
    let expecting : Expr := .action (.literal (.exact [0x61])) keep
    let blueprint : Blueprint :=
      { definitions := [.precedence ⟨"P", [.atom missing, .atom expecting,
          .operators (.prefixOps [(.literal (.exact [0x2D]), negate)])]⟩] }
    (∃ ref, (Expr.rule ref).Occurs missing ∧ ref.name = "Missing" ∧
      "Missing" ∉ blueprint.names) ∧
    (Expr.choice [missing, expecting]).Unprovided "x" "x" ∧
    blueprint.build = .error [.misplacedAtom "P"] := by
  intro keep negate missing expecting blueprint
  refine ⟨⟨_, .self, rfl, by decide⟩, ?_, rfl⟩
  exact Expr.mem_missingCaptures_labels_iff.mp (by decide)

end Peg
