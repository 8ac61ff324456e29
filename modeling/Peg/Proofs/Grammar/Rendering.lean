import Peg.Grammar.Render
import Peg.Proofs.Grammar.WellFormed

/-!
A grammar that was built is written out from its rules, a definition from its own
parts. Binding does not show in the text, and neither do the levels a precedence rule
was split into: they are put together again. Only the atoms leave a doubt. Several
atoms are kept as one choice, so a single atom that is a choice looks the same as its
alternatives, and is written as if they had been the atoms.
-/

namespace Peg

/-! ## Binding does not show -/

theorem OperatorLevel.render_mapExprs {f : Expr → Expr}
    (hf : ∀ e, (f e).render true = e.render true) (level : OperatorLevel) :
    (level.mapExprs f).render = level.render := by
  cases level <;> simp [mapExprs, render, renderRow, hf, Function.comp_def]

namespace Rule

variable (handle? : String → Option Nat)

theorem operators?_bind (rule : Rule) :
    (rule.bind handle?).operators? = rule.operators?.map (·.mapExprs (·.bind handle?)) := by
  obtain ⟨name, kind, body⟩ := rule
  cases body <;> rfl

/-- Binding makes no choice of what is none. -/
theorem atoms_bind (rule : Rule) :
    (rule.bind handle?).atoms = rule.atoms.map (·.bind handle?) := by
  obtain ⟨name, kind, body⟩ := rule
  cases body with
  | expr e =>
    cases e with
    | choice es => exact Expr.mapAllNodes_eq_map _ es
    | _ => rfl
  | precedence levels => rfl
  | level operators operand => rfl

end Rule

theorem PrecedenceRule.renderParts_bind (handle? : String → Option Nat) (name : String)
    (levels : List OperatorLevel) (atoms : List Expr) :
    renderParts name (levels.map (·.mapExprs (·.bind handle?))) (atoms.map (·.bind handle?)) =
      renderParts name levels atoms := by
  have hlevel (level : OperatorLevel) : (level.mapExprs (·.bind handle?)).render = level.render :=
    level.render_mapExprs fun e => e.render_bind handle? true
  simp only [renderParts, List.map_map, Function.comp_def, hlevel, Expr.render_bind]

/-! ## Definitions as a grammar shows them -/

/-- The atoms that a grammar shows: those of the rule that matches them. -/
def PrecedenceRule.shownAtoms (rule : PrecedenceRule) : List Expr :=
  rule.atomRule.atoms

/-- The definition as a grammar shows it. -/
def Definition.renderBuilt : Definition → String
  | plain name e => name ++ " <- " ++ e.render false
  | precedence rule => PrecedenceRule.renderParts rule.name rule.levels rule.shownAtoms

/-- The places of a list, looked up in order, are the list. -/
theorem filterMap_getElem?_range {α : Type} (l : List α) :
    (List.range l.length).filterMap (l[·]?) = l := by
  induction l with
  | nil => rfl
  | cons a l ih =>
    rw [List.length_cons, List.range_succ_eq_map, List.filterMap_cons, List.filterMap_map]
    simpa [Function.comp_def] using ih

namespace PrecedenceRule

variable {rule : PrecedenceRule} {rules : List Rule} {head : Nat}

/-- The rules of the levels, loosest first, and of the atoms. -/
def levelRules (rule : PrecedenceRule) (head : Nat) : List Rule :=
  (rule.levels.zipIdx.map fun (level, i) => rule.levelRule head level i) ++ [rule.atomRule]

/-- The handles of the levels lead to their rules. -/
theorem PlacedAt.filterMap_levelHandles (h : rule.PlacedAt rules head) :
    (rule.levelHandles head).filterMap (rules[·]?) = rule.levelRules head := by
  have hplaced (i : Nat) (hi : i < rule.levels.length + 1) :
      rules[rule.levelHandle head i]? = (rule.levelRules head)[i]? := by
    unfold levelRules
    rcases Nat.lt_succ_iff_lt_or_eq.mp hi with hlevel | rfl
    · have hoperand : rule.levelHandle head (i + 1) = head + (rule.levels.length - i) := by
        unfold levelHandle
        omega
      rw [h.level_rule i _ (List.getElem?_eq_getElem hlevel), hoperand,
        List.getElem?_append_left (by simpa using hlevel)]
      simp [hlevel, levelRule]
    · rw [h.atom_rule, List.getElem?_append_right (by simp)]
      simp
  have hlength : (rule.levelRules head).length = rule.levels.length + 1 := by simp [levelRules]
  calc
    _ = (List.range (rule.levels.length + 1)).filterMap
          (fun i => rules[rule.levelHandle head i]?) := List.filterMap_map
    _ = _ := List.filterMap_congr fun i hi => hplaced i (List.mem_range.mp hi)
    _ = _ := by rw [← hlength, filterMap_getElem?_range]

theorem filterMap_operators?_levelRules (rule : PrecedenceRule) (head : Nat) :
    (rule.levelRules head).filterMap Rule.operators? = rule.levels := by
  have hfound : (Rule.operators? ∘ fun ((level, i) : OperatorLevel × Nat) =>
      rule.levelRule head level i) = some ∘ Prod.fst := rfl
  rw [levelRules, List.filterMap_append, List.filterMap_map, hfound, List.filterMap_eq_map,
    List.zipIdx_map_fst]
  exact List.append_nil _

theorem flatMap_atoms_levelRules (rule : PrecedenceRule) (head : Nat) :
    (rule.levelRules head).flatMap Rule.atoms = rule.shownAtoms := by
  have hlevels : (rule.levels.zipIdx.map fun (level, i) =>
      rule.levelRule head level i).flatMap Rule.atoms = [] := by
    simp [List.flatMap_map, levelRule, Rule.atoms]
  rw [levelRules, List.flatMap_append, hlevels]
  simp [shownAtoms]

end PrecedenceRule

section Built

variable {grammar : Grammar} {handle? : String → Option Nat} {before after : List Rule}

/-- The head of a precedence rule is written with all of its levels. -/
theorem PrecedenceRule.PlacedAt.renderRule_head {rule : PrecedenceRule} {rules : List Rule}
    {head : Nat} (h : rule.PlacedAt rules head)
    (hrules : grammar.rules = rules.map (Rule.bind handle?)) :
    grammar.renderRule ⟨rule.name, .precedence, .precedence (rule.levelHandles head)⟩ =
      (Definition.precedence rule).renderBuilt := by
  have hlevels : (rule.levelHandles head).filterMap (grammar.rules[·]?) =
      (rule.levelRules head).map (Rule.bind handle?) := by
    rw [← h.filterMap_levelHandles, List.map_filterMap, hrules]
    simp only [List.getElem?_map]
  have hoperators : ((rule.levelRules head).map (Rule.bind handle?)).filterMap Rule.operators? =
      rule.levels.map (·.mapExprs (·.bind handle?)) := by
    rw [← rule.filterMap_operators?_levelRules head, List.map_filterMap, List.filterMap_map]
    exact List.filterMap_congr fun level _ => level.operators?_bind handle?
  have hatoms : ((rule.levelRules head).map (Rule.bind handle?)).flatMap Rule.atoms =
      rule.shownAtoms.map (·.bind handle?) := by
    rw [← rule.flatMap_atoms_levelRules head, List.map_flatMap, List.flatMap_map]
    exact List.flatMap_congr fun level _ => level.atoms_bind handle?
  rw [Grammar.renderRule]
  dsimp only
  rw [hlevels, hoperators, hatoms, PrecedenceRule.renderParts_bind]
  rfl

/-- Of the rules that a definition makes only one is written, and it shows them all. -/
theorem Definition.map_renderRule_expand {d : Definition} (h : d.errors = [])
    (hrules : grammar.rules =
      (before ++ d.expand before.length ++ after).map (Rule.bind handle?)) :
    (((d.expand before.length).map (Rule.bind handle?)).filter
        (·.kind ≠ .precedenceLevel)).map grammar.renderRule = [d.renderBuilt] := by
  cases d with
  | plain name e =>
    have hrule : grammar.renderRule (Rule.bind handle? ⟨name, .plain, .expr e⟩) =
        name ++ " <- " ++ e.render false := 
      congrArg (name ++ " <- " ++ ·) (e.render_bind handle? false)
    exact congrArg (fun text => [text]) hrule
  | precedence rule =>
    have hplaced := PrecedenceRule.placedAt_expand h before after
    have hlevels : ((rule.atomRule :: rule.levels.zipIdx.reverse.map fun (level, i) =>
        rule.levelRule before.length level i).map (Rule.bind handle?)).filter
          (·.kind ≠ .precedenceLevel) = [] := by
      simp only [List.filter_eq_nil_iff, List.mem_map, List.mem_cons]
      rintro _ ⟨_, rfl | ⟨⟨level, i⟩, -, rfl⟩, rfl⟩
      · simp [Rule.bind, Rule.mapExprs, PrecedenceRule.atomRule]
      · simp [Rule.bind, Rule.mapExprs, PrecedenceRule.levelRule]
    rw [expand, PrecedenceRule.expand_of_errors_eq_nil h, List.map_cons, List.filter_cons_of_pos,
      hlevels]
    · exact congrArg (fun text => [text]) (hplaced.renderRule_head hrules)
    · rfl

theorem Definition.map_renderRule_expandAll {ds : List Definition} (h : ∀ d ∈ ds, d.errors = [])
    (hrules : grammar.rules = (before ++ expandAll before.length ds).map (Rule.bind handle?)) :
    (((expandAll before.length ds).map (Rule.bind handle?)).filter
        (·.kind ≠ .precedenceLevel)).map grammar.renderRule = ds.map renderBuilt := by
  induction ds generalizing before with
  | nil => rfl
  | cons d ds ih =>
    have hlength : before.length + (d.expand before.length).length =
        (before ++ d.expand before.length).length := List.length_append.symm
    rw [expandAll, ← List.append_assoc] at hrules
    have hhead := map_renderRule_expand (h d List.mem_cons_self) hrules
    rw [hlength] at hrules
    have htail := ih (fun d hd => h d (List.mem_cons_of_mem _ hd)) hrules
    rw [expandAll, List.map_append, List.filter_append, List.map_append, hhead, hlength, htail]
    rfl

theorem Grammar.render_of_build {blueprint : Blueprint} (h : blueprint.build = .ok grammar) :
    grammar.render =
      String.intercalate "\n" (blueprint.definitions.map Definition.renderBuilt) := by
  have hwell := Blueprint.wellFormed_of_build h
  have herrors := Definition.errors_eq_nil_iff.mpr hwell.precedence
  obtain ⟨-, -, hrules, -⟩ := Blueprint.build_eq_ok_iff.mp h
  have hrules : grammar.rules = ([] ++ blueprint.rules).map _ := hrules
  have htexts := Definition.map_renderRule_expandAll herrors hrules
  rw [Grammar.render, hrules]
  exact congrArg (String.intercalate "\n") htexts

end Built

/-! ## A single choice of atoms -/

/-- Whether the text is put into parentheses where the expression is an operand. -/
def Expr.isGroup : Expr → Bool
  | seq es | choice es => 1 < es.length
  | action _ _ => true
  | _ => false

theorem Expr.render_true (e : Expr) : e.render true = group e.isGroup (e.render false) := by
  cases e <;> simp [render, isGroup, group]

/-- The only atom is a choice whose text changes when its alternatives are written as
atoms: it has several, or its only one is a group. -/
def PrecedenceRule.spreadsAtom (rule : PrecedenceRule) : Bool :=
  match rule.atoms with
  | [.choice (e :: more)] => !more.isEmpty || e.isGroup
  | _ => false

/-- The parts of a text, of which all but the first come after a separator. -/
theorem intercalate_cons (separator text : String) (texts : List String) :
    String.intercalate separator (text :: texts) =
      text ++ String.join (texts.map (separator ++ ·)) := by
  induction texts generalizing text with
  | nil => simp
  | cons next texts ih =>
    rw [String.intercalate_cons_cons, ih, List.map_cons, String.join_cons, String.append_assoc,
      String.append_assoc]

/-- The text is empty or goes on in a new line. -/
def EndsLine (text : String) : Prop :=
  ∀ c ∈ text.toList.head?, c = '\n'

theorem endsLine_join (separator : String) (h : separator.toList.head? = some '\n')
    (texts : List String) {rest : String} (hrest : EndsLine rest) :
    EndsLine (String.join (texts.map (separator ++ ·)) ++ rest) := by
  cases texts with
  | nil => simpa using hrest
  | cons text texts =>
    intro c hc
    simp only [List.map_cons, String.join_cons, String.toList_append, List.append_assoc,
      List.head?_append, h, Option.some_or] at hc
    exact (Option.some.inj hc).symm

/-- A text cannot begin with itself in parentheses, unless what comes after it goes on as
the parenthesis began. -/
theorem head?_of_parenthesis {text rest rest' : List Char}
    (h : '(' :: ' ' :: (text ++ rest) = text ++ rest') :
    rest'.head? = some '(' ∨ rest'.head? = some ' ' := by
  match text with
  | [] =>
    left
    rw [List.nil_append, List.nil_append] at h
    rw [← h, List.head?_cons]
  | [c] =>
    right
    simp only [List.cons_append, List.nil_append, List.cons.injEq] at h
    rw [← h.2, List.head?_cons]
  | c :: d :: text =>
    simp only [List.cons_append, List.cons.injEq] at h
    obtain ⟨rfl, rfl, h⟩ := h
    exact head?_of_parenthesis h

theorem append_ne_of_endsLine {text rest rest' : String} (h : EndsLine rest') :
    "( " ++ (text ++ rest) ≠ text ++ rest' := by
  intro heq
  have hchars : '(' :: ' ' :: (text.toList ++ rest.toList) = text.toList ++ rest'.toList := by
    simpa using congrArg String.toList heq
  rcases head?_of_parenthesis hchars with hopen | hblank
  · cases h _ hopen
  · cases h _ hblank

namespace PrecedenceRule

variable {rule : PrecedenceRule}

theorem renderBuilt_eq (h : rule.spreadsAtom = false) :
    (Definition.precedence rule).renderBuilt = rule.render := by
  have hshown (hatoms : rule.shownAtoms = rule.atoms) :
      (Definition.precedence rule).renderBuilt = rule.render := by
    rw [Definition.renderBuilt, hatoms, render]
  unfold spreadsAtom at h
  split at h
  · next e more hatoms =>
    simp only [Bool.or_eq_false_iff, Bool.not_eq_false', List.isEmpty_iff] at h
    obtain ⟨rfl, hgroup⟩ := h
    have hshown : rule.shownAtoms = [e] := by simp [shownAtoms, atomRule, atom, hatoms, Rule.atoms]
    have htext : (Expr.choice [e]).render false = e.render false := by
      simp [Expr.render, Expr.renderAll, Expr.group, e.render_true, hgroup]
    rw [Definition.renderBuilt, hshown, render, hatoms, renderParts, renderParts]
    simp only [List.map_cons, List.map_nil, htext]
  · next hnone =>
    by_cases hempty : rule.atoms = [.choice []]
    · have hshown : rule.shownAtoms = [] := by
        simp [shownAtoms, atomRule, atom, hempty, Rule.atoms]
      rw [Definition.renderBuilt, hshown, render, hempty]
      rfl
    · apply hshown
      unfold shownAtoms atomRule atom
      split
      · next e hatoms =>
        rw [hatoms]
        cases e with
        | choice es =>
          cases es with
          | nil => exact absurd hatoms hempty
          | cons e more => exact absurd hatoms (hnone e more)
        | _ => rfl
      · rfl

/-- What a grammar shows of a choice of atoms differs from the text of the definition,
whatever comes after either, if nothing but a new line may. -/
theorem render_append_ne (h : rule.spreadsAtom = true) {rest rest' : String}
    (hrest' : EndsLine rest') :
    rule.render ++ rest ≠ (Definition.precedence rule).renderBuilt ++ rest' := by
  unfold spreadsAtom at h
  split at h
  · next e more hatoms =>
    have hshown : rule.shownAtoms = e :: more := by
      simp [shownAtoms, atomRule, atom, hatoms, Rule.atoms]
    have hchoice : (Expr.choice (e :: more)).render false =
        e.render true ++ String.join ((more.map (Expr.render true)).map (" / " ++ ·)) := by
      rw [Expr.render, Expr.renderAll_eq_map, List.map_cons, intercalate_cons]
      rfl
    intro heq
    rw [Definition.renderBuilt, render, hatoms, hshown, renderParts, renderParts, List.map_cons,
      List.map_nil, String.intercalate_singleton, hchoice, List.map_cons, intercalate_cons] at heq
    simp only [String.append_assoc, String.append_right_inj] at heq
    have hnewline := endsLine_join "\n  | " rfl (more.map (Expr.render false)) hrest'
    rw [e.render_true] at heq
    cases hgroup : e.isGroup with
    | true =>
      rw [hgroup, Expr.group, if_pos rfl] at heq
      simp only [String.append_assoc] at heq
      exact append_ne_of_endsLine hnewline heq
    | false =>
      rw [hgroup, Expr.group, if_neg Bool.false_ne_true, String.append_right_inj] at heq
      obtain ⟨next, others, rfl⟩ : ∃ next others, more = next :: others := by
        simpa [hgroup, List.ne_nil_iff_exists_cons] using h
      rw [← heq] at hnewline
      cases hnewline ' ' (by simp)
  · cases h

end PrecedenceRule

/-- Definitions that are written alike together have no choice of atoms among them. -/
theorem Definition.spreadsAtom_eq_false {ds : List Definition}
    (h : String.join ((ds.map renderBuilt).map ("\n" ++ ·)) =
      String.join ((ds.map render).map ("\n" ++ ·))) :
    ∀ rule, .precedence rule ∈ ds → rule.spreadsAtom = false := by
  induction ds with
  | nil => exact fun rule hrule => absurd hrule List.not_mem_nil
  | cons d ds ih =>
    simp only [List.map_cons, String.join_cons, String.append_assoc,
      String.append_right_inj] at h
    have hempty : EndsLine "" := fun _ hc => by simp at hc
    have hnewline : EndsLine (String.join ((ds.map renderBuilt).map ("\n" ++ ·))) := by
      simpa using endsLine_join "\n" rfl (ds.map renderBuilt) hempty
    cases d with
    | plain name e =>
      have htail := ih ((String.append_right_inj _).mp h)
      simpa using htail
    | precedence rule =>
      cases hspreads : rule.spreadsAtom with
      | true => exact absurd h.symm (PrecedenceRule.render_append_ne hspreads hnewline)
      | false =>
        rw [PrecedenceRule.renderBuilt_eq hspreads] at h
        have htail := ih ((String.append_right_inj _).mp h)
        simpa [hspreads] using htail

/-- The text of a grammar shows the definitions in their order, each as the grammar has it.
That is what the definitions are written as, just if there is no precedence rule whose only
atom is a choice with several alternatives, or with one that needs parentheses. -/
theorem renderings_agree_iff {blueprint : Blueprint} {grammar : Grammar}
    (h : blueprint.build = .ok grammar) :
    grammar.render =
        String.intercalate "\n" (blueprint.definitions.map Definition.renderBuilt) ∧
    (grammar.render = String.intercalate "\n" (blueprint.definitions.map Definition.render) ↔
      ∀ rule, .precedence rule ∈ blueprint.definitions → rule.spreadsAtom = false) := by
  have hbuilt := Grammar.render_of_build h
  refine ⟨hbuilt, ?_⟩
  rw [hbuilt]
  constructor
  · intro htexts
    apply Definition.spreadsAtom_eq_false
    cases hdefinitions : blueprint.definitions with
    | nil => rfl
    | cons d ds =>
      rw [hdefinitions, List.map_cons, List.map_cons, intercalate_cons, intercalate_cons] at htexts
      simpa [String.append_assoc] using htexts
  · intro hnone
    refine congrArg (String.intercalate "\n") (List.map_congr_left fun d hd => ?_)
    cases d with
    | plain name e => rfl
    | precedence rule => exact PrecedenceRule.renderBuilt_eq (hnone rule hd)

/-- Sums of digits and of sums in parentheses: two atoms, of which one is a group. -/
theorem renderings_agree_for_sums :
    let plus : BinaryAction := ⟨"l + r", fun _ matched _ _ => .ok matched⟩
    let digit : Expr := .charClass ⟨[], [('0', '9')]⟩
    let parenthesized : Expr :=
      .seq [.literal (.exact [0x28]), .ruleNamed "Sum", .literal (.exact [0x29])]
    let blueprint : Blueprint :=
      { definitions :=
          [.precedence ⟨"Sum", [.operators (.leftAssoc [(.literal (.exact [0x2B]), plus)]),
              .atom digit, .atom (.choice [.ruleNamed "Paren", digit])]⟩,
            .plain "Paren" parenthesized] }
    ∃ grammar, blueprint.build = .ok grammar ∧
      grammar.render = String.intercalate "\n" (blueprint.definitions.map Definition.render) ∧
      grammar.render = "Sum <-\n  |--\n  | @' \"+\" @ \x7b l + r \x7d\n  |--\n  | [0-9]\n" ++
        "  | Paren / [0-9]\nParen <- \"(\" Sum \")\"" := by
  intro plus digit parenthesized blueprint
  have herrors : blueprint.errors = [] := by decide
  obtain ⟨grammar, h⟩ := (Blueprint.errors_eq_nil_iff.mp herrors).exists_build
  have hagree := renderings_agree_iff h
  have htexts := hagree.2.mpr (by
    intro rule hrule
    obtain rfl : rule = _ := by simpa [blueprint] using hrule
    rfl)
  exact ⟨grammar, h, htexts, htexts.trans (by decide)⟩

/-- A rule whose only atom is a choice of two: the grammar shows two atoms. -/
theorem choice_shown_as_atoms :
    let blueprint : Blueprint :=
      { definitions := [.precedence
          ⟨"P", [.atom (.choice [.literal (.exact [0x61]), .literal (.exact [0x62])])]⟩] }
    ∃ grammar, blueprint.build = .ok grammar ∧
      grammar.render = "P <-\n  |--\n  | \"a\"\n  | \"b\"" ∧
      String.intercalate "\n" (blueprint.definitions.map Definition.render) =
        "P <-\n  |--\n  | \"a\" / \"b\"" := by
  intro blueprint
  have herrors : blueprint.errors = [] := by decide
  obtain ⟨grammar, h⟩ := (Blueprint.errors_eq_nil_iff.mp herrors).exists_build
  exact ⟨grammar, h, (Grammar.render_of_build h).trans (by decide), by decide⟩

end Peg
