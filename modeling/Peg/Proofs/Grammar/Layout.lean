import Mathlib.Algebra.GroupWithZero.Nat
import Peg.Grammar
import Peg.Proofs.Expr

/-!
Where the rules of a definition lie. The rules of all definitions stand in one
list, in the order of the definitions, and a handle is a place in it. A
precedence rule whose head has handle `head` has its atoms right behind, and
then its levels from the tightest to the loosest, so that the level with number
`i` of `n` has handle `head + 1 + (n - i)`, and its operand the handle below.
-/

namespace Peg

/-! ## What a definition makes -/

namespace Definition

/-- The names that a definition makes: its own, and for a precedence rule one for
each level and one for the atoms. -/
def names : Definition → List String
  | plain name _ => [name]
  | precedence rule =>
    rule.name :: (List.range (rule.levels.length + 1)).map (PrecedenceRule.levelName rule.name)

/-- How many rules a definition makes. -/
def ruleCount : Definition → Nat
  | plain _ _ => 1
  | precedence rule => rule.levels.length + 2

/-- The expressions that a definition is made of, each with a scope of its own:
the body of a rule, or the operators and the atoms of a precedence rule, where
several atoms make one choice. -/
def roots : Definition → List Expr
  | plain _ e => [e]
  | precedence rule => rule.atom :: rule.levels.flatMap OperatorLevel.exprs

/-- The expressions that a definition is made of, each with the name of the rule that
it goes to. -/
def namedRoots : Definition → List (String × Expr)
  | plain name e => [(name, e)]
  | precedence rule =>
    (PrecedenceRule.levelName rule.name rule.levels.length, rule.atom) ::
      rule.levels.zipIdx.flatMap fun (level, i) =>
        level.exprs.map (PrecedenceRule.levelName rule.name i, ·)

theorem map_snd_namedRoots (d : Definition) : d.namedRoots.map Prod.snd = d.roots := by
  cases d with
  | plain name e => rfl
  | precedence rule =>
    have hlevels : rule.levels.zipIdx.flatMap (fun (level, _) => level.exprs) =
        rule.levels.flatMap OperatorLevel.exprs := by
      rw [← List.flatMap_map (f := Prod.fst) (g := OperatorLevel.exprs), List.zipIdx_map_fst]
    simp [namedRoots, roots, List.map_flatMap, Function.comp_def, hlevels]

theorem length_names (d : Definition) : d.names.length = d.ruleCount := by
  cases d <;> simp [names, ruleCount]

theorem expand_ne_nil (base : Nat) (d : Definition) : d.expand base ≠ [] := by
  cases d with
  | plain name e => simp [expand]
  | precedence rule =>
    rw [expand, PrecedenceRule.expand]
    split <;> simp

/-- The rule with the name of the definition comes first. -/
theorem head?_expand (base : Nat) (d : Definition) :
    (d.expand base).head?.map Rule.name = some d.name := by
  cases d with
  | plain name e => rfl
  | precedence rule =>
    rw [expand, PrecedenceRule.expand]
    split <;> rfl

end Definition

namespace PrecedenceRule

variable {rule : PrecedenceRule}

theorem expand_of_errors_eq_nil (h : rule.errors = []) (head : Nat) :
    rule.expand head =
      ⟨rule.name, .precedence, .precedence (rule.levelHandles head)⟩ :: rule.atomRule ::
        rule.levels.zipIdx.reverse.map fun (level, i) => rule.levelRule head level i := by
  rw [expand, if_pos h]

/-- The levels are numbered as the list has them. -/
theorem map_name_levelRules (head : Nat) :
    (rule.levels.zipIdx.map fun (level, i) => rule.levelRule head level i).map Rule.name =
      (List.range rule.levels.length).map (levelName rule.name) := by
  apply List.ext_getElem
  · simp
  · intro i _ _
    simp [levelRule]

theorem map_name_expand (h : rule.errors = []) (head : Nat) :
    ((rule.expand head).map Rule.name).Perm (Definition.precedence rule).names := by
  rw [expand_of_errors_eq_nil h, Definition.names, List.range_succ, List.map_append]
  simp only [List.map_cons, List.map_reverse, map_name_levelRules, List.map_nil, atomRule]
  refine List.Perm.cons _ ((List.perm_append_singleton _ _).symm.trans ?_)
  exact (List.reverse_perm _).append_right _

/-- The rules have the expressions of the precedence rule, under their names. -/
theorem mem_namedRoots_iff (h : rule.errors = []) (head : Nat) {name : String} {e : Expr} :
    (∃ r ∈ rule.expand head, r.name = name ∧ e ∈ r.exprs) ↔
      (name, e) ∈ (Definition.precedence rule).namedRoots := by
  have hhead (e : Expr) : e ∉ Rule.exprs
      ⟨rule.name, .precedence, .precedence (rule.levelHandles head)⟩ := List.not_mem_nil
  have hatom : rule.atomRule.name = name ∧ e ∈ rule.atomRule.exprs ↔
      (name, e) = (levelName rule.name rule.levels.length, rule.atom) := by
    simp [atomRule, Rule.exprs, RuleBody.exprs, eq_comm]
  have hlevels : (∃ r ∈ rule.levels.zipIdx.reverse.map
      (fun (level, i) => rule.levelRule head level i), r.name = name ∧ e ∈ r.exprs) ↔
      (name, e) ∈ rule.levels.zipIdx.flatMap
        fun (level, i) => level.exprs.map (levelName rule.name i, ·) := by
    simp only [List.mem_map, List.mem_reverse, List.mem_flatMap, Prod.exists, Prod.mk.injEq]
    constructor
    · rintro ⟨_, ⟨level, i, hmem, rfl⟩, hname, he⟩
      exact ⟨level, i, hmem, e, he, hname, rfl⟩
    · rintro ⟨level, i, hmem, _, he, hname, rfl⟩
      exact ⟨_, ⟨level, i, hmem, rfl⟩, hname, he⟩
  rw [expand_of_errors_eq_nil h, Definition.namedRoots]
  simp only [List.mem_cons, exists_eq_or_imp, hhead, and_false, false_or, hatom, hlevels]

/-- The handle of the level with number `i`, and of the atoms for the number after
the last, when the head has handle `head`. -/
def levelHandle (rule : PrecedenceRule) (head i : Nat) : Nat :=
  head + 1 + (rule.levels.length - i)

/-- The head calls the loosest level. -/
theorem levelHandles_eq_cons (rule : PrecedenceRule) (head : Nat) :
    ∃ tighter, rule.levelHandles head = rule.levelHandle head 0 :: tighter := by
  rw [levelHandles, List.range_succ_eq_map]
  exact ⟨_, rfl⟩

/-- The rules have those of the precedence rule from `head` on. -/
structure PlacedAt (rule : PrecedenceRule) (rules : List Rule) (head : Nat) : Prop where
  head_rule : rules[head]? =
    some ⟨rule.name, .precedence, .precedence (rule.levelHandles head)⟩
  atom_rule : rules[rule.levelHandle head rule.levels.length]? = some rule.atomRule
  level_rule : ∀ i level, rule.levels[i]? = some level →
    rules[rule.levelHandle head i]? =
      some ⟨levelName rule.name i, .precedenceLevel,
        .level level (rule.levelHandle head (i + 1))⟩

theorem placedAt_expand (h : rule.errors = []) (before after : List Rule) :
    rule.PlacedAt (before ++ rule.expand before.length ++ after) before.length := by
  rw [expand_of_errors_eq_nil h]
  constructor
  · simp
  · simp [levelHandle]
  · intro i level hlevel
    obtain ⟨hi, rfl⟩ := List.getElem?_eq_some_iff.mp hlevel
    have hplace : rule.levelHandle before.length i =
        before.length + (rule.levels.length - 1 - i + 2) := by
      unfold levelHandle
      omega
    have hback : rule.levels.length - 1 - (rule.levels.length - 1 - i) = i := by omega
    rw [hplace, List.append_assoc, List.getElem?_append_right (by omega)]
    simp only [Nat.add_sub_cancel_left, List.cons_append, List.getElem?_cons_succ]
    rw [List.getElem?_append_left (by simp; omega), List.getElem?_map,
      List.getElem?_reverse (by simp; omega), List.length_zipIdx, hback,
      List.getElem?_eq_getElem (by simpa using hi), List.getElem_zipIdx]
    simp only [Option.map_some, levelRule, levelHandle, Nat.zero_add, Option.some.injEq]
    congr 2
    omega

end PrecedenceRule

/-! ## The names of levels -/

namespace PrecedenceRule

theorem levelName_eq (name : String) (i : Nat) : levelName name i = name ++ ("_" ++ i.repr) := by
  have h : levelName name i = name ++ "_" ++ i.repr := rfl
  rw [h, String.append_assoc]

theorem levelName_ne (name : String) (i : Nat) : levelName name i ≠ name := by
  simp [levelName_eq]

theorem levelName_inj {name : String} {i j : Nat} :
    levelName name i = levelName name j ↔ i = j := by
  constructor
  · intro h
    have hdigits : Nat.toDigits 10 i = Nat.toDigits 10 j := by
      simpa [levelName_eq, Nat.repr_eq_ofList_toDigits, String.ofList_inj] using h
    rw [← Nat.ofDigitChars_toDigits (b := 10) (n := i) (by decide) (by decide), hdigits,
      Nat.ofDigitChars_toDigits (by decide) (by decide)]
  · rintro rfl
    rfl

/-- A precedence rule alone makes no name twice. -/
theorem nodup_names (rule : PrecedenceRule) : (Definition.precedence rule).names.Nodup := by
  rw [Definition.names, List.nodup_cons]
  constructor
  · intro hmem
    obtain ⟨i, -, hi⟩ := List.mem_map.mp hmem
    exact levelName_ne rule.name i hi
  · rw [List.Nodup, List.pairwise_map]
    exact List.nodup_range.imp fun hne heq => hne (levelName_inj.mp heq)

end PrecedenceRule

/-! ## The rules of several definitions -/

namespace Definition

theorem exists_expandAll_eq {d : Definition} {ds : List Definition} (hmem : d ∈ ds)
    (base : Nat) :
    ∃ before after, expandAll base ds = before ++ d.expand (base + before.length) ++ after := by
  induction ds generalizing base with
  | nil => cases hmem
  | cons first ds ih =>
    rcases List.mem_cons.mp hmem with rfl | hmem
    · exact ⟨[], expandAll (base + (d.expand base).length) ds, by simp [expandAll]⟩
    · obtain ⟨before, after, heq⟩ := ih hmem (base + (first.expand base).length)
      refine ⟨first.expand base ++ before, after, ?_⟩
      simp [expandAll, heq, Nat.add_assoc]

theorem expandAll_eq_nil_iff {base : Nat} {ds : List Definition} :
    expandAll base ds = [] ↔ ds = [] := by
  cases ds with
  | nil => simp [expandAll]
  | cons d ds => simp [expandAll, expand_ne_nil]

theorem head?_expandAll (base : Nat) (ds : List Definition) :
    (expandAll base ds).head?.map Rule.name = ds.head?.map name := by
  cases ds with
  | nil => rfl
  | cons d ds =>
    obtain ⟨first, rest, heq⟩ := List.exists_cons_of_ne_nil (expand_ne_nil base d)
    have hname := head?_expand base d
    rw [heq] at hname
    simpa [expandAll, heq] using hname

theorem map_name_expand {d : Definition} (h : d.errors = []) (base : Nat) :
    ((d.expand base).map Rule.name).Perm d.names := by
  cases d with
  | plain name e => exact List.Perm.refl _
  | precedence rule => exact PrecedenceRule.map_name_expand h base

/-- The rules have the names that the definitions make. -/
theorem map_name_expandAll {ds : List Definition} (h : ∀ d ∈ ds, d.errors = [])
    (base : Nat) : ((expandAll base ds).map Rule.name).Perm (ds.flatMap names) := by
  induction ds generalizing base with
  | nil => exact List.Perm.refl _
  | cons d ds ih =>
    rw [expandAll, List.map_append, List.flatMap_cons]
    exact (map_name_expand (h d List.mem_cons_self) base).append
      (ih (fun d hd => h d (List.mem_cons_of_mem _ hd)) _)

theorem length_expandAll {ds : List Definition} (h : ∀ d ∈ ds, d.errors = []) (base : Nat) :
    (expandAll base ds).length = (ds.map ruleCount).sum := by
  have hlength := (map_name_expandAll h base).length_eq
  simpa [List.length_flatMap, length_names] using hlength

/-- Of a definition with errors no expression goes to any rule. -/
theorem mem_namedRoots_iff {d : Definition} (base : Nat) {name : String} {e : Expr} :
    (∃ r ∈ d.expand base, r.name = name ∧ e ∈ r.exprs) ↔
      d.errors = [] ∧ (name, e) ∈ d.namedRoots := by
  cases d with
  | plain name' body =>
    simp [expand, errors, namedRoots, Rule.exprs, RuleBody.exprs, eq_comm]
  | precedence rule =>
    by_cases h : rule.errors = []
    · rw [expand, PrecedenceRule.mem_namedRoots_iff h base, errors]
      simp [h]
    · simp [expand, PrecedenceRule.expand, errors, h, Rule.exprs, RuleBody.exprs]

/-- The rules have the expressions of the definitions without errors, under their
names. -/
theorem mem_namedRoots_expandAll {ds : List Definition} (base : Nat) {name : String}
    {e : Expr} :
    (∃ r ∈ expandAll base ds, r.name = name ∧ e ∈ r.exprs) ↔
      ∃ d ∈ ds, d.errors = [] ∧ (name, e) ∈ d.namedRoots := by
  induction ds generalizing base with
  | nil => simp [expandAll]
  | cons d ds ih =>
    have htail := ih (base + (d.expand base).length)
    have hhead : (∃ r ∈ d.expand base, r.name = name ∧ e ∈ r.exprs) ↔
        d.errors = [] ∧ (name, e) ∈ d.namedRoots := mem_namedRoots_iff base
    simp only [expandAll, List.mem_append, or_and_right, exists_or, htail, hhead,
      List.mem_cons, exists_eq_left]

/-- The rules have the expressions that the definitions are made of. -/
theorem mem_exprs_expandAll {ds : List Definition} (h : ∀ d ∈ ds, d.errors = [])
    (base : Nat) {e : Expr} :
    (∃ r ∈ expandAll base ds, e ∈ r.exprs) ↔ ∃ d ∈ ds, e ∈ d.roots := by
  simp only [← map_snd_namedRoots, List.mem_map, Prod.exists, exists_eq_right]
  constructor
  · rintro ⟨r, hr, he⟩
    obtain ⟨d, hd, -, hnamed⟩ := (mem_namedRoots_expandAll base).mp ⟨r, hr, rfl, he⟩
    exact ⟨d, hd, r.name, hnamed⟩
  · rintro ⟨d, hd, name, hnamed⟩
    obtain ⟨r, hr, -, he⟩ := (mem_namedRoots_expandAll base).mpr ⟨d, hd, h d hd, hnamed⟩
    exact ⟨r, hr, he⟩

theorem name_mem_names (d : Definition) : d.name ∈ d.names := by
  cases d <;> exact List.mem_cons_self

theorem mem_name_expand {d : Definition} (base : Nat) {name : String} :
    name ∈ (d.expand base).map Rule.name ↔
      name = d.name ∨ (d.errors = [] ∧ name ∈ d.names) := by
  by_cases h : d.errors = []
  · rw [(map_name_expand h base).mem_iff]
    constructor
    · exact fun hname => Or.inr ⟨h, hname⟩
    · rintro (rfl | ⟨-, hname⟩)
      · exact d.name_mem_names
      · exact hname
  · cases d with
    | plain name' e => exact absurd rfl h
    | precedence rule =>
      have herrors : rule.errors ≠ [] := h
      simp [expand, PrecedenceRule.expand, herrors, Definition.name, errors]

/-- The names of the rules: those of all definitions, and what a definition without
errors makes beside. -/
theorem mem_name_expandAll {ds : List Definition} (base : Nat) {name : String} :
    name ∈ (expandAll base ds).map Rule.name ↔
      ∃ d ∈ ds, name = d.name ∨ (d.errors = [] ∧ name ∈ d.names) := by
  induction ds generalizing base with
  | nil => simp [expandAll]
  | cons d ds ih =>
    simp only [expandAll, List.map_append, List.mem_append, ih, mem_name_expand, List.mem_cons,
      exists_eq_or_imp]

end Definition

end Peg
