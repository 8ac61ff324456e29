import Peg.Proofs.CallDepth
import Peg.Proofs.Grammar.Binding
import Peg.Proofs.Outline

/-!
What a parse depends on. From the rule with a name references lead to definitions, and
from these to others. A grammar that has them all parses with that rule as any other such
grammar does, whatever else there is in either and in which order: the rules of a
definition lie together, so that a handle into them stands for the handle at the same
place of the definition in the other grammar. How deep calls may nest does differ, as it
goes by the number of all rules; but neither number is a limit.
-/

namespace Peg

open Matcher

/-! ## Reachable definitions -/

/-- References lead from the rule with the name `start` to the definition. -/
inductive Definition.Reachable (ds : List Definition) (start : String) : Definition → Prop
  | named {d : Definition} (hd : d ∈ ds) (hname : start ∈ d.names) : Reachable ds start d
  | referenced {d d' : Definition} (h : Reachable ds start d) {root : Expr}
    (hroot : root ∈ d.roots) {ref : RuleRef} (href : (Expr.rule ref).Occurs root) (hd' : d' ∈ ds)
    (hname : ref.name ∈ d'.names) : Reachable ds start d'

theorem Definition.Reachable.mem {ds : List Definition} {start : String} {d : Definition}
    (h : Reachable ds start d) : d ∈ ds := by
  cases h with
  | named hd _ => exact hd
  | referenced _ _ _ hd' _ => exact hd'

/-! ## Where the rules of a definition lie -/

/-- The rules of the definition lie in `rules` from handle `base` on. -/
def Definition.PlacedAt (d : Definition) (rules : List Rule) (base : Nat) : Prop :=
  ∀ i < d.ruleCount, rules[base + i]? = (d.expand base)[i]?

namespace Definition

variable {d : Definition}

theorem length_expand (h : d.errors = []) (base : Nat) : (d.expand base).length = d.ruleCount := by
  rw [← length_names, ← (map_name_expand h base).length_eq, List.length_map]

/-- The names do not depend on where the rules lie. -/
theorem map_name_expand_eq (d : Definition) (base base' : Nat) :
    (d.expand base).map Rule.name = (d.expand base').map Rule.name := by
  cases d with
  | plain name e => rfl
  | precedence rule =>
    rw [expand, expand, PrecedenceRule.expand, PrecedenceRule.expand]
    split
    · simp [PrecedenceRule.levelRule, Function.comp_def]
    · rfl

theorem exists_placedAt {blueprint : Blueprint} (h : blueprint.WellFormed)
    (hd : d ∈ blueprint.definitions) : ∃ base, d.PlacedAt blueprint.rules base := by
  have herrors := errors_eq_nil_iff.mpr h.precedence d hd
  obtain ⟨before, after, heq⟩ := exists_expandAll_eq hd 0
  rw [Nat.zero_add] at heq
  refine ⟨before.length, fun i hi => ?_⟩
  rw [← length_expand herrors before.length] at hi
  rw [Blueprint.rules, heq, List.append_assoc, List.getElem?_append_right (Nat.le_add_right _ _),
    Nat.add_sub_cancel_left, List.getElem?_append_left hi]

/-- A name that a definition makes has its place among the rules of the definition. -/
theorem exists_place (h : d.errors = []) {name : String} (hname : name ∈ d.names) :
    ∃ i < d.ruleCount, ∀ base, ((d.expand base)[i]?).map Rule.name = some name := by
  rw [← (map_name_expand h 0).mem_iff] at hname
  obtain ⟨i, hi, hname⟩ := List.mem_iff_getElem.mp hname
  refine ⟨i, ?_, fun base => ?_⟩
  · rw [← length_expand h 0]
    simpa using hi
  · rw [← List.getElem?_map, map_name_expand_eq d base 0, List.getElem?_eq_getElem hi, hname]

end Definition

/-! ## The correspondence of two grammars -/

/-- The handles lead to the same place of one definition. -/
def SamePlace (shared : Definition → Prop) (rules rules' : List Rule) (handle handle' : Nat) :
    Prop :=
  ∃ d, shared d ∧ ∃ base base', d.PlacedAt rules base ∧ d.PlacedAt rules' base' ∧
    ∃ i < d.ruleCount, handle = base + i ∧ handle' = base' + i

/-- Expressions stand for one another that are written the same, and rules that come from
the same place of a definition that both grammars have. -/
def Correspondence.ofShared (shared : Definition → Prop) (rules rules' : List Rule) :
    Correspondence where
  node e e' := ∀ atomic, e.render atomic = e'.render atomic
  handle := SamePlace shared rules rules'
  view s s' := s.cursor = s'.cursor ∧ s.record = s'.record
  exact := True
  confined := False
  cutsFirst _ := False
  cutsSecond _ := False
  node_refl _ _ := rfl
  lockstep := .ofRecords fun h => h false
  mismatch_not_cut _ := ⟨id, id⟩
  fault_cut h _ := absurd trivial h

section Bound

variable {C : Correspondence} {handle? handle?' : String → Option Nat}

theorem Expr.bind_seq (es : List Expr) :
    (seq es).bind handle? = seq (es.map (·.bind handle?)) := by
  simp only [bind, mapNodes, bindNode, mapAllNodes_eq_map]

theorem Expr.bind_choice (es : List Expr) :
    (choice es).bind handle? = choice (es.map (·.bind handle?)) := by
  simp only [bind, mapNodes, bindNode, mapAllNodes_eq_map]

/-- Expressions that differ in what their references were bound to stand for one another,
if the handles do. -/
theorem Expr.counterpart_bind
    (hnode : ∀ e : Expr, C.node (e.bind handle?) (e.bind handle?')) (hconfined : ¬ C.confined)
    {e : Expr} (hrefs : ∀ ref, (rule ref).Occurs e →
      Option.Rel C.handle (ref.bind handle?).handle? (ref.bind handle?').handle?) :
    Counterpart C [] (e.bind handle?) (e.bind handle?') := by
  have hzip {es : List Expr} (ih : ∀ e ∈ es,
      Counterpart C [] (e.bind handle?) (e.bind handle?')) :=
    List.forall₂_iff_zip.mp (List.forall₂_map_left_iff.mpr
      (List.forall₂_map_right_iff.mpr (List.forall₂_same.mpr ih)))
  have hpart {e part : Expr} (hmem : part ∈ e.children) {p : RuleRef → Prop}
      (h : ∀ ref, (rule ref).Occurs e → p ref) : ∀ ref, (rule ref).Occurs part → p ref :=
    fun ref href => h ref (.inside hmem href)
  induction e using parts_induction with
  | literal l => exact .literal l
  | charClass cls => exact .charClass cls
  | anyChar => exact .anyChar
  | seq es ih =>
    have hparts := hzip fun e he => ih e he (hpart he hrefs)
    rw [bind_seq, bind_seq]
    exact .seq hparts.1 hparts.2
  | choice es ih =>
    have hparts := hzip fun e he => ih e he (hpart he hrefs)
    have halternatives := hnode (.choice es)
    rw [bind_choice, bind_choice] at halternatives ⊢
    exact .choice halternatives hparts.1 hparts.2
  | star e ih => exact .star (hnode e) (ih (hpart List.mem_cons_self hrefs))
  | plus e ih => exact .plus (hnode e) (ih (hpart List.mem_cons_self hrefs))
  | optional e ih => exact .optional (ih (hpart List.mem_cons_self hrefs))
  | ahead e ih => exact .ahead (ih (hpart List.mem_cons_self hrefs))
  | notAhead e ih => exact .notAhead (hnode (.notAhead e)) (ih (hpart List.mem_cons_self hrefs))
  | discard e ih => exact .discard (ih (hpart List.mem_cons_self hrefs))
  | label name e ih =>
    exact .label (fun h => absurd h hconfined) (ih (hpart List.mem_cons_self hrefs))
  | action e a ih =>
    exact .action (List.Subset.refl []) (fun _ _ _ _ => rfl) (ih (hpart List.mem_cons_self hrefs))
  | slice e ih => exact .slice (ih (hpart List.mem_cons_self hrefs))
  | concat e ih => exact .concat (ih (hpart List.mem_cons_self hrefs))
  | rule ref => exact .rule (by rw [ref.name_bind, ref.name_bind]) (hrefs ref .self)

theorem OperatorLevel.counterpart_mapExprs {f f' : Expr → Expr} {level : OperatorLevel}
    (h : ∀ e ∈ level.exprs, (f e).Counterpart C [] (f' e)) :
    (level.mapExprs f).Counterpart C [] (level.mapExprs f') := by
  have hops {α β : Type} (run : α → β) {ops : List (Expr × α)}
      (hexprs : ∀ e ∈ ops.map Prod.fst, (f e).Counterpart C [] (f' e)) :
      C.Operators [] run (ops.map fun (e, a) => (f e, a)) (ops.map fun (e, a) => (f' e, a)) := by
    rw [Correspondence.Operators, List.forall₂_map_left_iff, List.forall₂_map_right_iff,
      List.forall₂_same]
    exact fun op hop => ⟨hexprs op.1 (List.mem_map_of_mem hop), fun _ => rfl⟩
  cases level with
  | prefixOps ops => exact .prefixOps (hops _ h)
  | postfixOps ops => exact .postfixOps (hops _ h)
  | leftAssoc ops => exact .leftAssoc (hops _ h)
  | rightAssoc ops => exact .rightAssoc (hops _ h)

/-- The rules of a definition stand for one another wherever they lie, if the handles
into them do and the expressions of the definition stand for one another. -/
theorem Definition.counterpart_expand {d : Definition} (herrors : d.errors = [])
    {base base' : Nat} (hhandles : ∀ i < d.ruleCount, C.handle (base + i) (base' + i))
    (hroots : ∀ root ∈ d.roots, (root.bind handle?).Counterpart C [] (root.bind handle?')) :
    List.Forall₂ (fun rule rule' => (rule.bind handle?).Counterpart C (rule'.bind handle?'))
      (d.expand base) (d.expand base') := by
  cases d with
  | plain name e => exact .cons ⟨rfl, .expr (hroots e List.mem_cons_self)⟩ .nil
  | precedence rule =>
    rw [expand, expand, PrecedenceRule.expand_of_errors_eq_nil herrors,
      PrecedenceRule.expand_of_errors_eq_nil herrors]
    refine .cons ⟨rfl, .precedence ?_⟩ (.cons ⟨rfl, .expr (hroots _ List.mem_cons_self)⟩ ?_)
    · rw [PrecedenceRule.levelHandles, PrecedenceRule.levelHandles, List.forall₂_map_left_iff,
        List.forall₂_map_right_iff, List.forall₂_same]
      intro i _
      rw [Nat.add_assoc, Nat.add_assoc]
      exact hhandles _ (by simp only [ruleCount]; omega)
    · rw [List.forall₂_map_left_iff, List.forall₂_map_right_iff, List.forall₂_same]
      rintro ⟨level, i⟩ hmem
      have hlevel : level ∈ rule.levels :=
        List.mem_of_getElem? (List.mk_mem_zipIdx_iff_getElem?.mp (List.mem_reverse.mp hmem))
      refine ⟨rfl, .level (OperatorLevel.counterpart_mapExprs fun e he => hroots e ?_)
        (hhandles _ (by simp only [ruleCount]; omega))⟩
      exact List.mem_cons_of_mem _ (List.mem_flatMap.mpr ⟨level, hlevel, he⟩)

end Bound

section Shared

variable {blueprint blueprint' : Blueprint} {grammar grammar' : Grammar}
  {shared : Definition → Prop}

/-- A definition that both blueprints have gives its names to the same places. -/
theorem exists_samePlace (h : blueprint.WellFormed) (h' : blueprint'.WellFormed) {d : Definition}
    (hshared : shared d) (hd : d ∈ blueprint.definitions) (hd' : d ∈ blueprint'.definitions)
    {name : String} (hname : name ∈ d.names) :
    ∃ handle handle', handleOf? blueprint.rules name = some handle ∧
      handleOf? blueprint'.rules name = some handle' ∧
      SamePlace shared blueprint.rules blueprint'.rules handle handle' := by
  obtain ⟨base, hplaced⟩ := Definition.exists_placedAt h hd
  obtain ⟨base', hplaced'⟩ := Definition.exists_placedAt h' hd'
  have herrors := Definition.errors_eq_nil_iff.mpr h.precedence d hd
  obtain ⟨i, hi, hplace⟩ := Definition.exists_place herrors hname
  refine ⟨base + i, base' + i, ?_, ?_,
    d, hshared, base, base', hplaced, hplaced', i, hi, rfl, rfl⟩
  · rw [handleOf?_eq_some_iff h.nodup_rules, hplaced i hi, hplace base]
  · rw [handleOf?_eq_some_iff h'.nodup_rules, hplaced' i hi, hplace base']

/-- Both grammars have the definitions that are shared, and all that these refer to. -/
structure Shares (shared : Definition → Prop) (blueprint blueprint' : Blueprint) : Prop where
  mem : ∀ d, shared d → d ∈ blueprint.definitions
  mem' : ∀ d, shared d → d ∈ blueprint'.definitions
  references : ∀ d, shared d → ∀ root ∈ d.roots, ∀ ref, (Expr.rule ref).Occurs root →
    ∃ d', shared d' ∧ ref.name ∈ d'.names

theorem Shares.rules (hshares : Shares shared blueprint blueprint')
    (h : blueprint.build = .ok grammar) (h' : blueprint'.build = .ok grammar') :
    (Correspondence.ofShared shared blueprint.rules blueprint'.rules).Rules grammar.rules
      grammar'.rules := by
  have hwell := Blueprint.wellFormed_of_build h
  have hwell' := Blueprint.wellFormed_of_build h'
  obtain ⟨-, -, hrules, -⟩ := Blueprint.build_eq_ok_iff.mp h
  obtain ⟨-, -, hrules', -⟩ := Blueprint.build_eq_ok_iff.mp h'
  rintro _ _ ⟨d, hd, base, base', hplaced, hplaced', i, hi, rfl, rfl⟩
  have herrors := Definition.errors_eq_nil_iff.mpr hwell.precedence d (hshares.mem d hd)
  have hroots : ∀ root ∈ d.roots, (root.bind (handleOf? blueprint.rules)).Counterpart
      (.ofShared shared blueprint.rules blueprint'.rules) []
      (root.bind (handleOf? blueprint'.rules)) := by
    intro root hroot
    refine Expr.counterpart_bind (fun e atomic => ?_) not_false fun ref href => ?_
    · rw [Expr.render_bind, Expr.render_bind]
    · obtain ⟨d', hd', hname⟩ := hshares.references d hd root hroot ref href
      obtain ⟨handle, handle', hhandle, hhandle', hsame⟩ := exists_samePlace hwell hwell' hd'
        (hshares.mem d' hd') (hshares.mem' d' hd') hname
      rw [RuleRef.bind_of_handle hhandle, RuleRef.bind_of_handle hhandle']
      exact .some hsame
  have hhandles : ∀ i < d.ruleCount,
      SamePlace shared blueprint.rules blueprint'.rules (base + i) (base' + i) :=
    fun i hi => ⟨d, hd, base, base', hplaced, hplaced', i, hi, rfl, rfl⟩
  have hexpand := Definition.counterpart_expand herrors hhandles hroots
  have hlt : i < (d.expand base).length := by rwa [Definition.length_expand herrors]
  have hlt' : i < (d.expand base').length := by rwa [Definition.length_expand herrors]
  refine Or.inr ⟨_, _, ?_, ?_, hexpand.get hlt hlt'⟩
  · rw [hrules, List.getElem?_map, hplaced i hi, List.getElem?_eq_getElem hlt]
    rfl
  · rw [hrules', List.getElem?_map, hplaced' i hi, List.getElem?_eq_getElem hlt']
    rfl

end Shared

/-! ## Parses that come to the same -/

/-- Two parses came to the same: to one value, to mismatches at one position of what is
written the same, or to one fault. -/
inductive SameOutcome : Except Interrupt Value → Except Interrupt Value → Prop
  | value (value : Value) : SameOutcome (.ok value) (.ok value)
  | mismatch {x x' : Mismatch} (hexpr : toString x.expr = toString x'.expr)
    (hpos : x.pos = x'.pos) : SameOutcome (.error (.mismatch x)) (.error (.mismatch x'))
  | fault (fault : Fault) : SameOutcome (.error (.fault fault)) (.error (.fault fault))

theorem SameOutcome.ne_exhausted {outcome outcome' : Except Interrupt Value}
    (h : SameOutcome outcome outcome') :
    outcome ≠ .error .exhausted ∧ outcome' ≠ .error .exhausted := by
  cases h <;> simp

/-- The runs cannot be told apart: they came to the same, left the cursor alike, having got
equally far, and made the same record. -/
structure Run.Alike (run run' : Run) : Prop where
  outcome : SameOutcome run.outcome run'.outcome
  cursor_eq : run.cursor = run'.cursor
  record_eq : run.events.map Event.line = run'.events.map Event.line

theorem Matcher.Coupled.alike_or_exhausted {shared : Definition → Prop} {rules rules' : List Rule}
    {m m' : Matcher Value}
    (h : Coupled (.ofShared shared rules rules') []
      (Correspondence.ofShared shared rules rules').Same m m') (cursor : Cursor) :
    (m.runOn cursor).Alike (m'.runOn cursor) ∨
      (m.runOn cursor).outcome = .error .exhausted ∧
        (m'.runOn cursor).outcome = .error .exhausted := by
  have hresults := h ⟨cursor, .empty, #[]⟩ ⟨cursor, .empty, #[]⟩ ⟨⟨rfl, rfl⟩, .empty []⟩
  unfold EStateM.run at hresults
  unfold runOn
  generalize m _ = result at hresults ⊢
  generalize m' _ = result' at hresults ⊢
  cases hresults with
  | ok hvalue ht =>
    obtain rfl := hvalue trivial
    exact Or.inl ⟨.value _, ht.view.1, ht.view.2⟩
  | error hinterrupt ht =>
    cases hinterrupt with
    | mismatch hx => exact Or.inl ⟨.mismatch (hx.node false) hx.pos_eq, ht.view.1, ht.view.2⟩
    | fault fault => exact Or.inl ⟨.fault fault, ht.view.1, ht.view.2⟩
    | exhausted => exact Or.inr ⟨rfl, rfl⟩
  | cutFirst hcut => exact hcut.elim
  | cutSecond hcut => exact hcut.elim

/-- Of two grammars that have been built, the second has all definitions that the rule with
a name reaches in the first, in any order and among any others. Then from that name both
parse the same, whatever the input and wherever the parse starts. That rules call each other
without end is the same in both as well. -/
theorem parse_depends_on_reachable_definitions {blueprint blueprint' : Blueprint}
    {grammar grammar' : Grammar} (h : blueprint.build = .ok grammar)
    (h' : blueprint'.build = .ok grammar') {name : String} (hname : name ∈ blueprint.names)
    (hreachable : ∀ d, Definition.Reachable blueprint.definitions name d →
      d ∈ blueprint'.definitions) (cursor : Cursor) :
    ∃ run run', grammar.parseRule name cursor = .ok run ∧
      grammar'.parseRule name cursor = .ok run' ∧
      (run.Alike run' ∨
        run.outcome = .error .exhausted ∧ run'.outcome = .error .exhausted) := by
  have hwell := Blueprint.wellFormed_of_build h
  have hwell' := Blueprint.wellFormed_of_build h'
  have hshares : Shares (Definition.Reachable blueprint.definitions name) blueprint blueprint' := by
    refine ⟨fun d hd => hd.mem, hreachable, fun d hd root hroot ref href => ?_⟩
    have hknown := hwell.references d hd.mem root hroot ref href
    obtain ⟨d', hd', hmade⟩ := List.mem_flatMap.mp hknown
    exact ⟨d', .referenced hd hroot href hd' hmade, hmade⟩
  obtain ⟨d, hd, hmade⟩ := List.mem_flatMap.mp hname
  have hstart : Definition.Reachable blueprint.definitions name d := .named hd hmade
  obtain ⟨handle, handle', hhandle, hhandle', hsame⟩ :=
    exists_samePlace hwell hwell' hstart hd (hreachable d hstart) hmade
  refine ⟨grammar.parseHandle handle cursor, grammar'.parseHandle handle' cursor, ?_, ?_, ?_⟩
  · rw [Grammar.parseRule, Blueprint.handle?_of_build h, hhandle]
  · rw [Grammar.parseRule, Blueprint.handle?_of_build h', hhandle']
  · -- The two parses may nest calls to different depths, so both are taken to the greater.
    let depth := max (grammar.callDepth cursor) (grammar'.callDepth cursor)
    have hcoupled : Coupled (.ofShared _ blueprint.rules blueprint'.rules) [] _
        (callRule grammar.rules depth handle) (callRule grammar'.rules depth handle') :=
      callRule_coupled (hshares.rules h h') (.refl depth) hsame
    have hdeep := grammar.parseHandle_eq_or_exhausted
      (Nat.le_max_left _ _ : grammar.callDepth cursor ≤ depth) handle
    have hdeep' := grammar'.parseHandle_eq_or_exhausted
      (Nat.le_max_right _ _ : grammar'.callDepth cursor ≤ depth) handle'
    rcases hcoupled.alike_or_exhausted cursor with halike | ⟨hout, hout'⟩
    · have hends := halike.outcome.ne_exhausted
      rw [hdeep.resolve_right fun hboth => hends.1 hboth.2,
        hdeep'.resolve_right fun hboth => hends.2 hboth.2]
      exact Or.inl halike
    · refine Or.inr ⟨?_, ?_⟩
      · exact hdeep.elim (fun heq => heq ▸ hout) And.left
      · exact hdeep'.elim (fun heq => heq ▸ hout') And.left

/-- Sums of digits, once before and once behind what they are made of, each time with a
definition that the other grammar does not have. -/
theorem parse_depends_on_reachable_definitions_of_sums :
    let plus : BinaryAction := ⟨"l + r", fun _ matched _ _ => .ok matched⟩
    let sum : Definition := .precedence
      ⟨"Sum", [.operators (.leftAssoc [(.literal (.exact [0x2B]), plus)]),
        .atom (.ruleNamed "Digit")]⟩
    let digit : Definition := .plain "Digit" (.charClass ⟨[], [('0', '9')]⟩)
    let blueprint : Blueprint := { definitions := [sum, .plain "Idle" .anyChar, digit] }
    let blueprint' : Blueprint := { definitions := [digit, .plain "Sums" (.ruleNamed "Sum"), sum] }
    let cursor : Cursor := .start (Utf8.encode "1+2")
    ∃ grammar grammar', blueprint.build = .ok grammar ∧ blueprint'.build = .ok grammar' ∧
      grammar.handle? "Sum" = some 0 ∧ grammar'.handle? "Sum" = some 2 ∧
      ∃ run run', grammar.parseRule "Sum" cursor = .ok run ∧
        grammar'.parseRule "Sum" cursor = .ok run' ∧ run.Alike run' := by
  intro plus sum digit blueprint blueprint' cursor
  let grammar : Grammar := ⟨none, blueprint.rules.map (Rule.bind (handleOf? blueprint.rules)), 0,
    by decide⟩
  let grammar' : Grammar := ⟨none, blueprint'.rules.map (Rule.bind (handleOf? blueprint'.rules)), 0,
    by decide⟩
  have h : blueprint.build = .ok grammar :=
    Blueprint.build_eq_ok_iff.mpr ⟨by decide, by decide, rfl, rfl⟩
  have h' : blueprint'.build = .ok grammar' :=
    Blueprint.build_eq_ok_iff.mpr ⟨by decide, by decide, rfl, rfl⟩
  have hnamed {d : Definition} {name : String} (hd : d ∈ blueprint.definitions)
      (hname : name ∈ d.names) (hne : name ≠ "Idle") : d = sum ∨ d = digit := by
    simp only [blueprint, List.mem_cons, List.not_mem_nil, or_false] at hd
    rcases hd with rfl | rfl | rfl
    · exact Or.inl rfl
    · exact absurd (List.mem_singleton.mp hname) hne
    · exact Or.inr rfl
  have hdigit : ∀ d, d = sum ∨ d = digit → ∀ root ∈ d.roots, ∀ ref ∈ root.references,
      ref.name = "Digit" := by
    rintro _ (rfl | rfl)
    · decide
    · decide
  have hreached : ∀ d, Definition.Reachable blueprint.definitions "Sum" d →
      d = sum ∨ d = digit := by
    intro d hd
    induction hd with
    | named hd hname => exact hnamed hd hname (by decide)
    | referenced _ hroot href hd' hname ih =>
      rw [hdigit _ ih _ hroot _ (Expr.mem_references_iff.mpr href)] at hname
      exact hnamed hd' hname (by decide)
  have hreachable : ∀ d, Definition.Reachable blueprint.definitions "Sum" d →
      d ∈ blueprint'.definitions := by
    intro d hd
    rcases hreached d hd with rfl | rfl <;> simp [blueprint']
  have hname : "Sum" ∈ blueprint.names := by decide
  obtain ⟨run, run', hrun, hrun', halike | ⟨hout, -⟩⟩ :=
    parse_depends_on_reachable_definitions h h' hname hreachable cursor
  · exact ⟨grammar, grammar', h, h', by decide, by decide, run, run', hrun, hrun', halike⟩
  · have hends : (grammar.parseRule "Sum" cursor).toOption.map (·.outcome.isOk) = some true := by
      decide +kernel
    rw [hrun] at hends
    have hok : run.outcome.isOk = true := Option.some.inj hends
    rw [hout] at hok
    cases hok

end Peg
