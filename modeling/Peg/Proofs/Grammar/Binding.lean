import Peg.Proofs.Grammar.WellFormed
import Peg.Proofs.Matcher.Faults

/-!
References of a grammar that has been built. Every reference in it is bound, to
the rule that it names; a name leads to one handle and a handle to one name; the
handles of levels and operands lead to rules. That holds of all rules at once,
and matching only ever goes from a rule to one that a handle in it leads to, so
no match looks for a rule that is not there.
-/

namespace Peg

/-! ## Bound references -/

namespace Expr

theorem children_bind (handle? : String → Option Nat) (e : Expr) :
    (e.bind handle?).children = e.children.map (·.bind handle?) := by
  cases e <;> simp [bind, mapNodes, bindNode, children, mapAllNodes_eq_map]

theorem bind_eq_rule_iff {handle? : String → Option Nat} {e : Expr} {ref : RuleRef} :
    e.bind handle? = .rule ref ↔ ∃ original, e = .rule original ∧ original.bind handle? = ref := by
  cases e <;> simp [bind, mapNodes, bindNode]

/-- Binding changes references where they stand. -/
theorem occurs_bind_iff {handle? : String → Option Nat} {e : Expr} {ref : RuleRef} :
    (rule ref).Occurs (e.bind handle?) ↔
      ∃ original, (rule original).Occurs e ∧ original.bind handle? = ref := by
  constructor
  · induction e using children_induction with
    | step e ih =>
      intro h
      generalize heq : e.bind handle? = bound at h
      cases h with
      | self =>
        obtain ⟨original, rfl, hbind⟩ := bind_eq_rule_iff.mp heq
        exact ⟨original, .self, hbind⟩
      | inside hpart h =>
        rw [← heq, children_bind] at hpart
        obtain ⟨part, hmem, rfl⟩ := List.mem_map.mp hpart
        obtain ⟨original, hoccurs, hbind⟩ := ih part hmem h
        exact ⟨original, .inside hmem hoccurs, hbind⟩
  · rintro ⟨original, hoccurs, rfl⟩
    induction hoccurs with
    | self => exact .self
    | inside hpart _ ih =>
      refine .inside ?_ ih
      rw [children_bind]
      exact List.mem_map_of_mem hpart

end Expr

/-! ## Where a rule comes from -/

theorem Definition.exists_block_of_mem {ds : List Definition} {base : Nat} {rule : Rule}
    (h : rule ∈ expandAll base ds) :
    ∃ d ∈ ds, ∃ before after,
      expandAll base ds = before ++ d.expand (base + before.length) ++ after ∧
        rule ∈ d.expand (base + before.length) := by
  induction ds generalizing base with
  | nil => cases h
  | cons d ds ih =>
    rw [expandAll] at h ⊢
    rcases List.mem_append.mp h with hhead | htail
    · exact ⟨d, List.mem_cons_self, [], _, rfl, hhead⟩
    · obtain ⟨d', hd', before, after, heq, hmem⟩ := ih htail
      refine ⟨d', List.mem_cons_of_mem _ hd', d.expand base ++ before, after, ?_, ?_⟩
      · rw [heq]
        simp [Nat.add_assoc]
      · simpa [Nat.add_assoc] using hmem

/-- The handles that calling a rule follows, beside those of references. -/
def RuleBody.handles : RuleBody → List Nat
  | expr _ => []
  | precedence levels => levels
  | level _ operand => [operand]

theorem RuleBody.handles_mapExprs (f : Expr → Expr) (body : RuleBody) :
    (body.mapExprs f).handles = body.handles := by
  cases body <;> rfl

/-- A precedence rule has levels, and its handles lead to its own rules. -/
theorem PrecedenceRule.handles_of_mem_expand {rule : PrecedenceRule} (h : rule.errors = [])
    {head : Nat} {made : Rule} (hmem : made ∈ rule.expand head) :
    made.body ≠ .precedence [] ∧
      ∀ handle ∈ made.body.handles, handle < head + rule.levels.length + 2 := by
  rw [expand_of_errors_eq_nil h] at hmem
  simp only [List.mem_cons, List.mem_map, List.mem_reverse, Prod.exists] at hmem
  rcases hmem with rfl | rfl | ⟨level, i, -, rfl⟩
  · constructor
    · obtain ⟨tighter, heq⟩ := rule.levelHandles_eq_cons head
      simp [heq]
    · intro handle hhandle
      obtain ⟨i, -, rfl⟩ := List.mem_map.mp hhandle
      omega
  · exact ⟨by simp [atomRule], by simp [atomRule, RuleBody.handles]⟩
  · constructor
    · simp [levelRule]
    · intro handle hhandle
      obtain rfl := List.mem_singleton.mp hhandle
      omega

/-! ## Grammars -/

/-- Every name and every handle in the grammar leads to a rule. -/
structure Grammar.Bound (grammar : Grammar) : Prop where
  /-- Names and handles belong to each other one by one. -/
  names : ∀ name handle, grammar.handle? name = some handle ↔
    (grammar.rules[handle]?).map Rule.name = some name
  references : ∀ rule ∈ grammar.rules, ∀ root ∈ rule.exprs, ∀ ref,
    (Expr.rule ref).Occurs root →
      ∃ handle, ref.handle? = some handle ∧
        (grammar.rules[handle]?).map Rule.name = some ref.name
  levels : ∀ rule ∈ grammar.rules, rule.body ≠ .precedence []
  handles : ∀ rule ∈ grammar.rules, ∀ handle ∈ rule.body.handles, handle < grammar.size

/-- Some action of the grammar raises the fault. -/
def Grammar.Raises (grammar : Grammar) (fault : Fault) : Prop :=
  ∃ rule ∈ grammar.rules, rule.Raises fault

theorem RuleRef.name_bind (handle? : String → Option Nat) (ref : RuleRef) :
    (ref.bind handle?).name = ref.name := by
  rw [bind]
  split <;> rfl

theorem RuleRef.bind_of_handle {handle? : String → Option Nat} {ref : RuleRef} {handle : Nat}
    (h : handle? ref.name = some handle) : ref.bind handle? = ⟨ref.name, some handle⟩ := by
  simp only [bind, h]

namespace Blueprint

variable {blueprint : Blueprint} {grammar : Grammar}

/-- A rule of the grammar is one that a definition makes, with its references bound. -/
theorem exists_rule_of_build (h : blueprint.build = .ok grammar) {rule : Rule}
    (hrule : rule ∈ grammar.rules) :
    ∃ written ∈ blueprint.rules, written.bind (handleOf? blueprint.rules) = rule := by
  obtain ⟨-, -, hrules, -⟩ := build_eq_ok_iff.mp h
  rw [hrules] at hrule
  exact List.mem_map.mp hrule

theorem handles_of_mem_rules (h : blueprint.WellFormed) {rule : Rule}
    (hrule : rule ∈ blueprint.rules) :
    rule.body ≠ .precedence [] ∧
      ∀ handle ∈ rule.body.handles, handle < blueprint.rules.length := by
  obtain ⟨d, hd, before, after, heq, hmem⟩ := Definition.exists_block_of_mem hrule
  rw [Nat.zero_add] at heq hmem
  cases d with
  | plain name e =>
    obtain rfl := List.mem_singleton.mp hmem
    exact ⟨by simp, by simp [RuleBody.handles]⟩
  | precedence precedence =>
    have herrors := PrecedenceRule.errors_eq_nil_iff.mpr (h.precedence precedence hd)
    have hplaced : precedence.PlacedAt blueprint.rules before.length := by
      rw [rules, heq]
      exact PrecedenceRule.placedAt_expand herrors before after
    obtain ⟨hlevels, hhandles⟩ := PrecedenceRule.handles_of_mem_expand herrors hmem
    exact ⟨hlevels, fun handle hhandle =>
      Nat.lt_of_lt_of_le (hhandles handle hhandle) hplaced.length_le⟩

theorem bound_of_build (h : blueprint.build = .ok grammar) : grammar.Bound := by
  have hwell := wellFormed_of_build h
  have herrors := Definition.errors_eq_nil_iff.mpr hwell.precedence
  have hnames : ∀ name handle, grammar.handle? name = some handle ↔
      (grammar.rules[handle]?).map Rule.name = some name := by
    intro name handle
    rw [handle?_of_build h, handleOf?_eq_some_iff hwell.nodup_rules, ← List.getElem?_map,
      ← List.getElem?_map, map_name_rules_of_build h]
  have hsize : grammar.size = blueprint.rules.length := by
    simpa [Grammar.size] using congrArg List.length (map_name_rules_of_build h)
  refine ⟨hnames, ?_, ?_, ?_⟩
  · intro rule hrule root hroot ref hoccurs
    obtain ⟨written, hwritten, rfl⟩ := exists_rule_of_build h hrule
    obtain ⟨original, horiginal, rfl⟩ : ∃ original ∈ written.exprs,
        original.bind (handleOf? blueprint.rules) = root := by
      simpa [Rule.bind, Rule.mapExprs, Rule.exprs] using hroot
    obtain ⟨unbound, hunbound, rfl⟩ := Expr.occurs_bind_iff.mp hoccurs
    have hknown : unbound.name ∈ blueprint.names :=
      (forall_exprs_iff herrors).mpr hwell.references written hwritten original horiginal
        unbound hunbound
    rw [← (perm_names herrors).mem_iff, ← isSome_handleOf?_iff] at hknown
    obtain ⟨handle, hhandle⟩ := Option.isSome_iff_exists.mp hknown
    refine ⟨handle, ?_, ?_⟩
    · rw [RuleRef.bind_of_handle hhandle]
    · rw [RuleRef.bind_of_handle hhandle]
      exact (hnames _ _).mp ((handle?_of_build h _).trans hhandle)
  · intro rule hrule
    obtain ⟨written, hwritten, rfl⟩ := exists_rule_of_build h hrule
    have hlevels := (handles_of_mem_rules hwell hwritten).1
    cases hbody : written.body <;> simp_all [Rule.bind, Rule.mapExprs, RuleBody.mapExprs]
  · intro rule hrule handle hhandle
    obtain ⟨written, hwritten, rfl⟩ := exists_rule_of_build h hrule
    rw [hsize]
    apply (handles_of_mem_rules hwell hwritten).2
    rwa [← RuleBody.handles_mapExprs]

end Blueprint

/-! ## Calls -/

section Calls

open Matcher

/-- Where every handle leads to a rule, so does every call, however deep calls nest. -/
theorem callRule_accounted {grammar : Grammar} (h : grammar.Bound) (depth : Nat) {handle : Nat}
    (hhandle : handle < grammar.size) :
    Accounted grammar.Raises (callRule grammar.rules depth handle) := by
  induction depth generalizing handle with
  | zero =>
    intro s
    rw [ensures_callRule_zero]
    exact .exhausted
  | succ depth ih =>
    intro s
    have hrule : grammar.rules[handle]? = some grammar.rules[handle] :=
      List.getElem?_eq_getElem hhandle
    generalize grammar.rules[handle] = rule at hrule
    have hmem : rule ∈ grammar.rules := List.mem_of_getElem? hrule
    have hguarded (root : Expr) (hroot : root ∈ rule.exprs)
        (hraises : ∀ fault, root.Raises fault → rule.Raises fault) :
        root.Guarded (callRule grammar.rules depth) grammar.Raises := by
      constructor
      · intro ref hoccurs
        obtain ⟨callee, hcallee, hname⟩ := h.references rule hmem root hroot ref hoccurs
        obtain ⟨found, hfound, -⟩ := Option.map_eq_some_iff.mp hname
        exact ⟨callee, hcallee, ih (List.getElem?_eq_some_iff.mp hfound).1⟩
      · intro fault hroots
        exact ⟨rule, hmem, hraises fault hroots⟩
    rw [ensures_callRule_succ, hrule]
    dsimp only
    unfold Rule.evalBody
    split
    · next e hbody =>
      refine Expr.eval_accounted (hguarded e ?_ ?_) _
      · simp [Rule.exprs, hbody, RuleBody.exprs]
      · intro fault hraises
        rwa [Rule.Raises, hbody]
    · next first rest hbody =>
      exact ih (h.handles rule hmem first (by simp [hbody, RuleBody.handles])) _
    · next hbody => exact absurd hbody (h.levels rule hmem)
    · next operators operand hbody =>
      have hoperand := h.handles rule hmem operand (by simp [hbody, RuleBody.handles])
      refine OperatorLevel.eval_accounted (fun e he => hguarded e ?_ ?_) ?_ (ih hhandle)
        (ih hoperand) _
      · simpa [Rule.exprs, hbody, RuleBody.exprs] using he
      · intro fault hraises
        rw [Rule.Raises, hbody]
        exact Or.inl ⟨e, he, hraises⟩
      · intro fault hraises
        refine ⟨rule, hmem, ?_⟩
        rwa [Rule.Raises, hbody]

/-- What a parse comes to is what the call of its rule comes to. -/
theorem Grammar.raises_of_parseHandle {grammar : Grammar} (h : grammar.Bound) {handle : Nat}
    (hhandle : handle < grammar.size) {cursor : Cursor} {fault : Fault}
    (hfault : (grammar.parseHandle handle cursor).outcome = .error (.fault fault))
    (habout : fault.isAboutRule = true) : grammar.Raises fault := by
  have hcall := callRule_accounted h (grammar.callDepth cursor) hhandle ⟨cursor, .empty, #[]⟩
  unfold parseHandle runOn at hfault
  split at hfault
  · cases hfault
  · next interrupt t hrun =>
    obtain rfl := Except.error.inj hfault
    exact hcall.of_fault hrun fault rfl habout

/-- In a grammar that has been built, whatever the handles in its definitions were,
every reference is bound to the rule with its name, and names, levels and operands
lead to rules. So no call, and no parse from whichever rule and of whichever input,
ends because a rule is not there, unless an action of the grammar says so itself. -/
theorem built_grammar_misses_no_rule {blueprint : Blueprint} {grammar : Grammar}
    (h : blueprint.build = .ok grammar) :
    grammar.Bound ∧
    (∀ depth handle, handle < grammar.size →
      Accounted grammar.Raises (callRule grammar.rules depth handle)) ∧
    (∀ cursor fault, (grammar.parse cursor).outcome = .error (.fault fault) →
      fault.isAboutRule = true → grammar.Raises fault) ∧
    ∀ name cursor run fault, grammar.parseRule name cursor = .ok run →
      run.outcome = .error (.fault fault) → fault.isAboutRule = true →
      grammar.Raises fault := by
  have hbound := Blueprint.bound_of_build h
  refine ⟨hbound, ?_, ?_, ?_⟩
  · intro depth handle hhandle
    exact callRule_accounted hbound depth hhandle
  · intro cursor fault hfault habout
    exact Grammar.raises_of_parseHandle hbound grammar.entry_lt hfault habout
  · intro name cursor run fault hrun hfault habout
    unfold Grammar.parseRule at hrun
    split at hrun
    · next handle hhandle =>
      obtain rfl := Except.ok.inj hrun
      have hlt := lt_length_of_handleOf? hhandle
      exact Grammar.raises_of_parseHandle hbound hlt hfault habout
    · cases hrun

/-- A sum whose atom is a reference with the handle of another grammar. -/
theorem built_grammar_misses_no_rule_of_stale_handle :
    let plus : BinaryAction := ⟨"l + r", fun _ _ left _ => .ok left⟩
    let blueprint : Blueprint :=
      { definitions :=
          [.precedence ⟨"Sum", [.operators (.leftAssoc [(.literal (.exact [0x2B]), plus)]),
              .atom (.rule ⟨"Digit", some 9⟩)]⟩,
            .plain "Digit" (.literal (.exact [0x64]))] }
    ∃ grammar, blueprint.build = .ok grammar ∧ grammar.Bound ∧
      ∀ cursor fault, (grammar.parse cursor).outcome = .error (.fault fault) →
        fault.isAboutRule = false := by
  intro plus blueprint
  have herrors : blueprint.errors = [] := by decide
  obtain ⟨grammar, hbuild⟩ := (Blueprint.errors_eq_nil_iff.mp herrors).exists_build
  have hmisses := built_grammar_misses_no_rule hbuild
  refine ⟨grammar, hbuild, hmisses.1, ?_⟩
  intro cursor fault hfault
  by_contra habout
  obtain ⟨rule, hrule, hraises⟩ :=
    hmisses.2.2.1 cursor fault hfault (Bool.not_eq_false _ ▸ habout)
  obtain ⟨written, hwritten, rfl⟩ := Blueprint.exists_rule_of_build hbuild hrule
  have hwritten : written ∈
      [⟨"Sum", .precedence, .precedence [2, 1]⟩,
        ⟨PrecedenceRule.levelName "Sum" 1, .precedenceLevel, .expr (.rule ⟨"Digit", some 9⟩)⟩,
        ⟨PrecedenceRule.levelName "Sum" 0, .precedenceLevel,
          .level (.leftAssoc [(.literal (.exact [0x2B]), plus)]) 1⟩,
        ⟨"Digit", .plain, .expr (.literal (.exact [0x64]))⟩] := hwritten
  simp only [List.mem_cons, List.not_mem_nil, or_false] at hwritten
  rcases hwritten with rfl | rfl | rfl | rfl
  · exact hraises
  · exact hraises.children_ne_nil rfl
  · rcases hraises with ⟨e, he, hraises⟩ | ⟨op, hop, context, matched, left, right, hrun⟩
    · obtain rfl : e = .literal (.exact [0x2B]) := List.mem_singleton.mp he
      exact hraises.children_ne_nil rfl
    · obtain rfl : op = (.literal (.exact [0x2B]), plus) := List.mem_singleton.mp hop
      cases hrun
  · exact hraises.children_ne_nil rfl

end Calls

end Peg
