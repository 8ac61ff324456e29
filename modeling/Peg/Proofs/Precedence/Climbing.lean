import Peg.Parse
import Peg.Proofs.Matcher.Evaluation
import Peg.Proofs.Precedence.InfixTable

/-!
Precedence climbing builds the tree of the table. Each level reads an operand by
the levels that are tighter and goes on for as long as it finds an operator of its
own; since no operator begins another, it finds one just where the sequence has
one, and stops at an operator of a looser level. So the chain is split where the
table splits it, level by level, and within a level operator by operator.
-/

namespace Peg

open Matcher OperatorLevel

/-- The cursor stands at a position of an input. -/
def MatchState.At (input : Bytes) (pos : Nat) (s : MatchState) : Prop :=
  s.cursor.input = input ∧ s.cursor.pos = pos

theorem MatchState.At.remaining_eq {input : Bytes} {pos : Nat} {s : MatchState}
    (h : s.At input pos) : s.cursor.remaining = input.drop pos := by
  rw [Cursor.remaining, h.1, h.2]

/-- From one position of the input to another the matcher reads a value. -/
def Matcher.Reads (m : Matcher Value) (input : Bytes) (start stop : Nat) (v : Value) : Prop :=
  ∀ s : MatchState, s.At input start →
    Ensures m s (fun w t => w = v ∧ t.At input stop) (fun _ _ => False) (fun _ => False)

theorem reads_terminal {input : Bytes} {span : Span} {e : Expr} {width? : Bytes → Option Nat}
    (h : width? (input.drop span.start) = some span.length) :
    Reads (terminal e width?) input span.start span.stop (.token span) := by
  intro s hs
  have hstop := span.start_add_length
  have hpos := hs.2
  rw [ensures_terminal, Cursor.take?, hs.remaining_eq, h]
  simp only [Option.map_some]
  constructor
  · congr 1
    ext
    · exact hpos
    · dsimp only
      omega
  · refine ⟨hs.1, ?_⟩
    rw [Cursor.advance_pos]
    omega

/-- Calls of a rule that may nest at least so deep read a value. -/
def CallReads (rules : List Rule) (handle need : Nat) (input : Bytes) (start stop : Nat)
    (v : Value) : Prop :=
  ∀ depth, need ≤ depth → Reads (callRule rules depth handle) input start stop v

/-- A rule reads what its body reads. -/
theorem CallReads.of_body {rules : List Rule} {handle need start stop : Nat} {input : Bytes}
    {v : Value} {rule : Rule} (hrule : rules[handle]? = some rule)
    (h : ∀ depth, need ≤ depth →
      Reads (rule.evalBody (callRule rules depth) handle) input start stop v) :
    CallReads rules handle (need + 1) input start stop v := by
  intro depth hdepth s hs
  obtain ⟨less, rfl⟩ : ∃ less, depth = less + 1 := ⟨depth - 1, by omega⟩
  rw [ensures_callRule_succ, hrule]
  exact h less (by omega) ⟨s.cursor, .empty, _⟩ hs

/-! ## Finding an operator -/

/-- A search among literals ends at one that is found, or finds that none is. -/
theorem ensures_firstOperator_literals {call : Nat → Matcher Value} {input : Bytes} {pos : Nat}
    {operators : List (Literal × String)} {s : MatchState}
    {ok : Option (Value × BinaryAction) → MatchState → Prop}
    {failed : Mismatch → MatchState → Prop} {cut : Interrupt → Prop} (hs : s.At input pos)
    (hfound : ∀ literal source size, (literal, source) ∈ operators →
      literal.width? (input.drop pos) = some size →
      ∀ t : MatchState, t.At input (pos + size) →
        ok (some (.token (InfixTable.spanAt pos size), InfixLevel.keep source)) t)
    (hnone : (∀ operator ∈ operators, operator.1.width? (input.drop pos) = none) →
      ∀ t : MatchState, t.At input pos → ok none t) :
    Ensures (firstOperator call (operators.map fun (literal, source) =>
      (.literal literal, InfixLevel.keep source))) s ok failed cut := by
  induction operators generalizing s with
  | nil => exact hnone (fun _ hmem => by cases hmem) s hs
  | cons operator operators ih =>
    obtain ⟨literal, source⟩ := operator
    rw [List.map_cons, firstOperator, ensures_bind, ensures_probe, Expr.eval, ensures_terminal,
      Cursor.take?, hs.remaining_eq]
    cases hsize : literal.width? (input.drop pos) with
    | some size =>
      have hat : MatchState.At input (pos + size)
          { s with cursor := s.cursor.advance size } := by
        refine ⟨hs.1, ?_⟩
        rw [Cursor.advance_pos, hs.2]
      simp only [Option.map_some, hs.2]
      exact hfound literal source size List.mem_cons_self hsize _ hat
    | none =>
      apply ih (s := s.backAt s.cursor.pos) hs
      · intro other source' size hmem
        exact hfound other source' size (List.mem_cons_of_mem _ hmem)
      · intro hrest
        apply hnone
        intro operator hmem
        rcases List.mem_cons.mp hmem with rfl | hmem
        · exact hsize
        · exact hrest operator hmem

namespace InfixTable

variable {table : InfixTable} {input : Bytes}

theorem length_spanAt (start size : Nat) : (spanAt start size).length = size := by
  simp [spanAt, Span.length]

theorem spanAt_start_length (span : Span) : spanAt span.start span.length = span := by
  ext
  · rfl
  · exact span.start_add_length

/-- An operator of level `i` stands there in the input. -/
def OperatorAt (table : InfixTable) (i : Nat) (input : Bytes) (operator : Span) : Prop :=
  ∃ level, table.levels[i]? = some level ∧ ∃ literal ∈ level.literals,
    literal.width? (input.drop operator.start) = some operator.length

/-- No operator of the levels from `i` on is found. -/
def Stops (table : InfixTable) (i : Nat) (rest : Bytes) : Prop :=
  ∀ j level, i ≤ j → table.levels[j]? = some level → ∀ literal ∈ level.literals,
    literal.width? rest = none

theorem Stops.mono {i j : Nat} {rest : Bytes} (h : table.Stops i rest) (hle : i ≤ j) :
    table.Stops j rest :=
  fun k level hk => h k level (Nat.le_trans hle hk)

theorem Stops.at_end (table : InfixTable) (i : Nat) : table.Stops i [] :=
  fun _ _ _ hlevel _ hmem => table.width?_nil hlevel hmem

theorem OperatorAt.start_lt_stop {i : Nat} {operator : Span}
    (h : table.OperatorAt i input operator) :
    operator.start < operator.stop ∧ operator.stop ≤ input.length := by
  obtain ⟨level, hlevel, literal, hmem, hwidth⟩ := h
  have hpos := operator_size_pos hlevel hmem hwidth
  have hle := Literal.width?_le hwidth
  unfold Span.length at hpos hle
  rw [List.length_drop] at hle
  omega

/-- A tighter level stops where a looser one has an operator. -/
theorem OperatorAt.stops {i j : Nat} {operator : Span} (h : table.OperatorAt i input operator)
    (hlt : i < j) : table.Stops j (input.drop operator.start) := by
  obtain ⟨level, hlevel, literal, hmem, hwidth⟩ := h
  intro k level' hk hlevel' literal' hmem'
  cases hother : literal'.width? (input.drop operator.start) with
  | none => rfl
  | some size =>
    have hsame := operator_unique hlevel hlevel' hmem hmem' hwidth hother
    omega

/-- The search of a level finds the operator that stands there. -/
theorem ensures_operator_found {call : Nat → Matcher Value} {i : Nat} {level : InfixLevel}
    (hlevel : table.levels[i]? = some level) {operator : Span}
    (h : table.OperatorAt i input operator) {s : MatchState} (hs : s.At input operator.start)
    {some : Value → BinaryAction → MatchState → Prop} {none : MatchState → Prop}
    {failed : Mismatch → MatchState → Prop} {cut : Interrupt → Prop}
    (hfound : ∀ source, ∀ t : MatchState, t.At input operator.stop →
      some (.token operator) (InfixLevel.keep source) t) :
    Ensures (firstOperator call level.rows) s
      (fun found t => Found found (fun op a => some op a t) (none t)) failed cut := by
  obtain ⟨level', hlevel', literal, hmem, hwidth⟩ := h
  rw [hlevel] at hlevel'
  obtain rfl := Option.some.inj hlevel'
  rw [InfixLevel.rows]
  apply ensures_firstOperator_literals hs
  · intro other source size hother hsize t ht
    have hmem' : other ∈ level.literals := List.mem_map_of_mem hother
    obtain ⟨-, rfl⟩ := operator_unique hlevel hlevel hmem hmem' hwidth hsize
    rw [hwidth] at hsize
    obtain rfl := Option.some.inj hsize
    rw [operator.start_add_length] at ht
    rw [spanAt_start_length]
    exact hfound source t ht
  · intro hnone
    obtain ⟨entry, hentry, rfl⟩ := List.mem_map.mp hmem
    rw [hnone entry hentry] at hwidth
    cases hwidth

/-- The search of a level finds nothing where its operators stop. -/
theorem ensures_operator_stops {call : Nat → Matcher Value} {i : Nat} {level : InfixLevel}
    (hlevel : table.levels[i]? = some level) {pos : Nat} (h : table.Stops i (input.drop pos))
    {s : MatchState} (hs : s.At input pos) {some : Value → BinaryAction → MatchState → Prop}
    {none : MatchState → Prop} {failed : Mismatch → MatchState → Prop} {cut : Interrupt → Prop}
    (hnone : ∀ t : MatchState, t.At input pos → none t) :
    Ensures (firstOperator call level.rows) s
      (fun found t => Found found (fun op a => some op a t) (none t)) failed cut := by
  rw [InfixLevel.rows]
  apply ensures_firstOperator_literals hs
  · intro literal source size hmem hsize
    rw [h i level (Nat.le_refl i) hlevel literal (List.mem_map_of_mem hmem)] at hsize
    cases hsize
  · exact fun _ => hnone

/-! ## Reading along a chain -/

/-- From a position on there are operators of level `i`, each with something behind
it, until no more operators of the level are found. -/
inductive Follows {α : Type} (table : InfixTable) (i : Nat) (input : Bytes)
    (between : Nat → α → Nat → Prop) : Nat → List (Span × α) → Nat → Prop
  | stop {pos : Nat} (h : table.Stops i (input.drop pos)) : Follows table i input between pos [] pos
  | more {operator : Span} {a : α} {mid stop : Nat} {more : List (Span × α)}
      (hop : table.OperatorAt i input operator) (hle : operator.stop ≤ mid)
      (ha : between operator.stop a mid) (hmore : Follows table i input between mid more stop) :
      Follows table i input between operator.start ((operator, a) :: more) stop

/-- Whatever stands between operators of a level, tighter levels stop before and
after it. -/
theorem Follows.stops {α : Type} {between : Nat → α → Nat → Prop} {i pos stop : Nat}
    {more : List (Span × α)} (h : Follows table i input between pos more stop) :
    table.Stops (i + 1) (input.drop pos) := by
  cases h with
  | stop h => exact h.mono (Nat.le_succ i)
  | more hop _ _ _ => exact hop.stops (Nat.lt_succ_self i)

theorem Follows.map {α β : Type} {between : Nat → α → Nat → Prop}
    {between' : Nat → β → Nat → Prop} {f : α → β} {i pos stop : Nat} {more : List (Span × α)}
    (h : Follows table i input between pos more stop)
    (hf : ∀ start a mid, between start a mid → table.Stops (i + 1) (input.drop mid) →
      between' start (f a) mid) :
    Follows table i input between' pos (more.map fun (operator, a) => (operator, f a)) stop := by
  induction h with
  | stop h => exact .stop h
  | more hop hle ha hmore ih => exact .more hop hle (hf _ _ _ ha hmore.stops) ih

/-- A level that groups to the left puts its operands together one by one. -/
theorem callReads_leftAssoc {rules : List Rule} {handle operand need : Nat} {name : String}
    {kind : RuleKind} {i : Nat} {level : InfixLevel} (hlevel : table.levels[i]? = some level)
    (hrule : rules[handle]? = some ⟨name, kind, .level (.leftAssoc level.rows) operand⟩)
    {start mid stop : Nat} {lhs : Value} {more : List (Span × Value)}
    (hoperand : CallReads rules operand need input start mid lhs)
    (hmore : Follows table i input
      (fun start v stop => CallReads rules operand need input start stop v) mid more stop) :
    CallReads rules handle (need + 1) input start stop (fold lhs more .left) := by
  refine .of_body hrule fun depth hdepth s hs => ?_
  change Ensures ((leftAssoc level.rows).eval (callRule rules depth) (callRule rules depth handle)
    (callRule rules depth operand)) s _ _ _
  -- what is on the left, with the operators still to come, folds to the same value
  apply ensures_leftAssoc fun left t => ∃ pos rest, t.At input pos ∧
    Follows table i input (fun start v stop => CallReads rules operand need input start stop v)
      pos rest stop ∧ fold left rest .left = fold lhs more .left
  · apply (hoperand depth hdepth s hs).imp_ok
    rintro left t ⟨rfl, ht⟩
    exact ⟨mid, more, ht, hmore, rfl⟩
  · rintro left t ⟨pos, rest, ht, hrest, hfold⟩
    cases hrest with
    | stop h =>
      apply ensures_operator_stops hlevel h (s := { t with scope := .empty }) ht
      intro u hu
      exact ⟨hfold, hu⟩
    | more hop hle hrhs hrest =>
      apply ensures_operator_found hlevel hop (s := { t with scope := .empty }) ht
      intro source u hu
      apply (hrhs depth hdepth { u with scope := t.scope } hu).imp_ok
      rintro right w ⟨rfl, hw⟩
      have hbounds := hop.start_lt_stop
      have hless : w.cursor.remaining.length < t.cursor.remaining.length := by
        rw [hw.remaining_eq, ht.remaining_eq, List.length_drop, List.length_drop]
        omega
      simp only [Settled, InfixLevel.keep, if_pos hless]
      exact ⟨_, _, hw, hrest, hfold⟩

/-- A level that groups to the right leaves all after its first operator to itself. -/
theorem callReads_rightAssoc {rules : List Rule} {handle operand need : Nat} {name : String}
    {kind : RuleKind} {i : Nat} {level : InfixLevel} (hlevel : table.levels[i]? = some level)
    (hrule : rules[handle]? = some ⟨name, kind, .level (.rightAssoc level.rows) operand⟩)
    {start mid stop : Nat} {lhs : Value} {more : List (Span × Value)}
    (hoperand : CallReads rules operand need input start mid lhs)
    (hmore : Follows table i input
      (fun start v stop => CallReads rules operand need input start stop v) mid more stop) :
    CallReads rules handle (need + more.length + 1) input start stop (foldRight lhs more) := by
  induction hmore generalizing start lhs with
  | stop h =>
    refine .of_body hrule fun depth hdepth s hs => ?_
    apply ensures_rightAssoc
    apply (hoperand depth hdepth s hs).imp_ok
    rintro left t ⟨rfl, ht⟩
    apply ensures_operator_stops hlevel h (s := { t with scope := .empty }) ht
    intro u hu
    exact ⟨rfl, hu⟩
  | more hop hle hrhs hrest ih =>
    refine .of_body hrule fun depth hdepth s hs => ?_
    rw [List.length_cons] at hdepth
    apply ensures_rightAssoc
    apply (hoperand depth (by omega) s hs).imp_ok
    rintro left t ⟨rfl, ht⟩
    apply ensures_operator_found hlevel hop (s := { t with scope := .empty }) ht
    intro source u hu
    apply (ih hrhs depth (by omega) { u with scope := t.scope } hu).imp_ok
    rintro right w ⟨rfl, hw⟩
    exact ⟨rfl, hw⟩

/-! ## The chain that a text spells -/

/-- An operand of the table stands there in the input. -/
def AtomAt (table : InfixTable) (input : Bytes) (atom : Span) : Prop :=
  table.atom.width? (input.drop atom.start) = some atom.length

/-- The links stand in the input one behind the other, their operators of the
levels from `i` on. -/
inductive Linked (table : InfixTable) (i : Nat) (input : Bytes) : Nat → List Link → Nat → Prop
  | nil {pos : Nat} : Linked table i input pos [] pos
  | cons {link : Link} {links : List Link} {stop : Nat} (hlevel : i ≤ link.level)
      (hop : table.OperatorAt link.level input link.operator)
      (hjoin : link.atom.start = link.operator.stop) (hatom : table.AtomAt input link.atom)
      (hrest : Linked table i input link.atom.stop links stop) :
      Linked table i input link.operator.start (link :: links) stop

/-- The chain stands in the input from one position to another, its operators of
the levels from `i` on. -/
structure Spells (table : InfixTable) (i : Nat) (input : Bytes) (start : Nat) (chain : Chain)
    (stop : Nat) : Prop where
  start_eq : chain.first.start = start
  atom : table.AtomAt input chain.first
  linked : Linked table i input chain.first.stop chain.links stop

/-- Each operator takes at least a byte. -/
theorem Linked.length_le {i pos stop : Nat} {links : List Link}
    (h : Linked table i input pos links stop) : pos + links.length ≤ stop := by
  induction h with
  | nil => exact Nat.le_refl _
  | @cons link links stop hlevel hop hjoin hatom hrest ih =>
    have hoperator := hop.start_lt_stop
    have hatom := link.atom.start_le_stop
    rw [List.length_cons]
    omega

/-- No operator is as tight as the operands. -/
theorem Linked.pos_eq_stop {pos stop : Nat} {links : List Link}
    (h : Linked table table.levels.length input pos links stop) : pos = stop := by
  cases h with
  | nil => rfl
  | cons hlevel hop _ _ _ =>
    obtain ⟨level, hlookup, -⟩ := hop
    have hlt := (List.getElem?_eq_some_iff.mp hlookup).1
    omega

theorem Spells.le {i start stop : Nat} {chain : Chain}
    (h : Spells table i input start chain stop) : start ≤ stop := by
  have hfirst := chain.first.start_le_stop
  have hstart := h.start_eq
  have hlinks := h.linked.length_le
  omega

/-- Splitting at the loosest level leaves parts with tighter operators only, and
between them the operators of that level. -/
theorem splitAt_spells {i size pos stop : Nat} {links : List Link} {first : Span}
    (hatom : table.AtomAt input first) (hfirst : first.stop = pos)
    (h : Linked table i input pos links stop) (hstop : table.Stops i (input.drop stop))
    (hsize : links.length ≤ size) :
    ∃ mid, Spells table (i + 1) input first.start (splitAt i first links).1 mid ∧
      Follows table i input
        (fun start chain stop =>
          Spells table (i + 1) input start chain stop ∧ chain.links.length ≤ size)
        mid (splitAt i first links).2 stop := by
  induction h generalizing first with
  | nil =>
    exact ⟨_, ⟨rfl, hatom, hfirst ▸ .nil⟩, .stop hstop⟩
  | @cons link links stop hlevel hop hjoin hlink hrest ih =>
    rw [List.length_cons] at hsize
    obtain ⟨mid, hchain, hmore⟩ := ih hlink rfl hstop (by omega)
    have hlength := length_splitAt i link.atom links
    by_cases hloosest : link.level = i
    · simp only [splitAt, if_pos hloosest]
      refine ⟨link.operator.start, ⟨rfl, hatom, hfirst ▸ .nil⟩, ?_⟩
      rw [hjoin] at hchain
      exact .more (hloosest ▸ hop) hchain.le ⟨hchain, by omega⟩ hmore
    · simp only [splitAt, if_neg hloosest]
      have hlater : i + 1 ≤ link.level := by omega
      have hlinked := hchain.linked
      rw [first_splitAt] at hlinked
      exact ⟨mid, ⟨rfl, hatom, hfirst ▸ .cons hlater hop hjoin hlink hlinked⟩, hmore⟩

/-- The rule of a level, or of the atoms, reads each chain of tighter operators as
its tree. Nothing else goes on behind the chain. Each level needs no more calls
inside one another than the chain has operators. -/
theorem callReads_treeFrom {rules : List Rule} {head : Nat}
    (hplaced : table.rule.PlacedAt rules head) (size : Nat) {groupings : List Grouping}
    {i : Nat} (hi : i ≤ table.levels.length)
    (hgroupings : (table.levels.map InfixLevel.grouping).drop i = groupings) {start stop : Nat}
    {chain : Chain} (hchain : Spells table i input start chain stop)
    (hsize : chain.links.length ≤ size) (hstop : table.Stops i (input.drop stop)) :
    CallReads rules (table.rule.levelHandle head i) ((size + 1) * groupings.length + 1) input
      start stop (treeFrom groupings i chain) := by
  have hleft {groupings : List Grouping} {i : Nat}
      (h : (table.levels.map InfixLevel.grouping).drop i = groupings) :
      groupings.length = table.levels.length - i := by
    rw [← h, List.length_drop, List.length_map]
  induction groupings generalizing i start stop chain with
  | nil =>
    obtain rfl : i = table.levels.length := by
      have hnone := hleft hgroupings
      rw [List.length_nil] at hnone
      omega
    have hrule := hplaced.atom_rule
    rw [length_levels_rule, PrecedenceRule.atomRule, atom_rule] at hrule
    rw [← hchain.start_eq, ← hchain.linked.pos_eq_stop]
    exact .of_body hrule fun depth _ => reads_terminal hchain.atom
  | cons grouping tighter ih =>
    have hlt : i < table.levels.length := by
      have hsome := hleft hgroupings
      rw [List.length_cons] at hsome
      omega
    have hlevel : table.levels[i]? = some table.levels[i] := List.getElem?_eq_getElem hlt
    have hcons := List.drop_eq_getElem_cons (l := table.levels.map InfixLevel.grouping)
      (i := i) (by simpa using hlt)
    rw [hgroupings, List.getElem_map] at hcons
    obtain ⟨hgrouping, htighter⟩ := List.cons.inj hcons
    have hrule := hplaced.level_rule i table.levels[i].toLevel (by simp [levels_rule, hlt])
    rw [InfixLevel.toLevel, ← hgrouping] at hrule
    obtain ⟨mid, hfirst, hfollows⟩ := splitAt_spells hchain.atom rfl hchain.linked hstop hsize
    have hlength := length_splitAt i chain.first chain.links
    have hoperand := ih (by omega) htighter.symm hfirst (by omega) hfollows.stops
    have hmore : Follows table i input
        (fun start v stop => CallReads rules (table.rule.levelHandle head (i + 1))
          ((size + 1) * tighter.length + 1) input start stop v) mid _ stop :=
      hfollows.map fun start chain mid hspells hstops =>
        ih (by omega) htighter.symm hspells.1 hspells.2 hstops
    rw [hchain.start_eq] at hoperand
    have hneed : (size + 1) * (tighter.length + 1) =
        (size + 1) * tighter.length + size + 1 := by
      rw [Nat.mul_succ]
      omega
    rw [treeFrom, List.length_cons, hneed]
    cases grouping with
    | left =>
      have hcall := callReads_leftAssoc hlevel hrule hoperand hmore
      exact fun depth hdepth => hcall depth (by omega)
    | right =>
      have hcall := callReads_rightAssoc hlevel hrule hoperand hmore
      rw [List.length_map] at hcall
      exact fun depth hdepth => hcall depth (by omega)

/-! ## Written sequences -/

theorem drop_add_of_append {start : Nat} {front rest : Bytes}
    (h : input.drop start = front ++ rest) : input.drop (start + front.length) = rest := by
  rw [← List.drop_drop, h, List.drop_left]

theorem atomAt_spanAt {start : Nat} {c : Char} {rest : Bytes}
    (h : input.drop start = String.utf8EncodeChar c ++ rest) (hc : table.atom.contains c) :
    table.AtomAt input (spanAt start (String.utf8EncodeChar c).length) := by
  rw [AtomAt, length_spanAt]
  change table.atom.width? (input.drop start) = _
  rw [h, CharClass.width?_encodeChar, if_pos hc]

theorem linked_placeFrom {uses : List Use} (huses : ∀ use ∈ uses, table.Admits use) {start : Nat}
    (h : input.drop start =
      uses.flatMap fun use => use.operator ++ String.utf8EncodeChar use.atom) :
    ∃ stop, Linked table 0 input start (placeFrom start uses) stop ∧ input.drop stop = [] ∧
      stop = start + (input.drop start).length := by
  induction uses generalizing start with
  | nil => exact ⟨start, .nil, h, by simp [h]⟩
  | cons use uses ih =>
    obtain ⟨⟨level, hlevel, literal, hmem, haccepts⟩, hatom⟩ := huses use List.mem_cons_self
    rw [List.flatMap_cons, List.append_assoc] at h
    have hbehind := drop_add_of_append h
    have hrest := drop_add_of_append hbehind
    obtain ⟨stop, hlinked, hend, hstop⟩ :=
      ih (fun use hmem => huses use (List.mem_cons_of_mem _ hmem)) hrest
    have hop : table.OperatorAt use.level input (spanAt start use.operator.length) := by
      refine ⟨level, hlevel, literal, hmem, ?_⟩
      rw [length_spanAt]
      change literal.width? (input.drop start) = _
      rw [h, Literal.width?_append haccepts]
    let link : Link := ⟨use.level, spanAt start use.operator.length,
      spanAt (start + use.operator.length) (String.utf8EncodeChar use.atom).length⟩
    have hcons : Linked table 0 input link.operator.start
        (link :: placeFrom link.atom.stop uses) stop :=
      .cons (Nat.zero_le _) hop rfl (atomAt_spanAt hbehind hatom) hlinked
    refine ⟨stop, hcons, hend, ?_⟩
    rw [hstop, hrest, h]
    simp only [List.length_append]
    omega

/-- The placed chain is what the text spells, to its end. -/
theorem spells_place {first : Char} {uses : List Use} (hfirst : table.atom.contains first)
    (huses : ∀ use ∈ uses, table.Admits use) :
    Spells table 0 (write first uses) 0 (place first uses) (write first uses).length := by
  have hinput : (write first uses).drop 0 = String.utf8EncodeChar first ++
      uses.flatMap fun use => use.operator ++ String.utf8EncodeChar use.atom := rfl
  have hbehind := drop_add_of_append hinput
  obtain ⟨stop, hlinked, -, hstop⟩ := linked_placeFrom huses hbehind
  have hlength : stop = (write first uses).length := by
    rw [hstop, hbehind, write, List.length_append]
    omega
  exact ⟨rfl, atomAt_spanAt hinput hfirst, hlength ▸ hlinked⟩

end InfixTable

/-- A matcher that ends in a value leaves a run with that value. -/
theorem Matcher.Ensures.runOn {m : Matcher Value} {cursor : Cursor}
    {ok : Value → MatchState → Prop}
    (h : Ensures m ⟨cursor, .empty, #[]⟩ ok (fun _ _ => False) (fun _ => False)) :
    ∃ v t, ok v t ∧ (m.runOn cursor).outcome = .ok v ∧ (m.runOn cursor).cursor = t.cursor := by
  unfold Ensures at h
  unfold Matcher.runOn
  rw [show m ⟨cursor, .empty, #[]⟩ = EStateM.run m ⟨cursor, .empty, #[]⟩ from rfl]
  cases hrun : EStateM.run m ⟨cursor, .empty, #[]⟩ with
  | ok v t =>
    rw [hrun] at h
    exact ⟨v, t, h, rfl, rfl⟩
  | error interrupt t =>
    rw [hrun] at h
    cases interrupt <;> exact h.elim

open InfixTable

/-- A table of infix operators makes a grammar. In every grammar that has it, each
sequence of operands with operators between them is read to its end, and what comes
of it is the tree of the table. -/
theorem parse_builds_infix_tree (table : InfixTable) :
    (∃ grammar, Blueprint.build { definitions := [.precedence table.rule] } = .ok grammar) ∧
    ∀ (blueprint : Blueprint) (grammar : Grammar), blueprint.build = .ok grammar →
      .precedence table.rule ∈ blueprint.definitions →
      ∀ (first : Char) (uses : List Use), table.atom.contains first →
        (∀ use ∈ uses, table.Admits use) →
        ∃ run, grammar.parseRule table.name (.start (write first uses)) = .ok run ∧
          run.outcome = .ok (table.tree (place first uses)) ∧
          run.cursor.pos = (write first uses).length := by
  refine ⟨table.exists_build, ?_⟩
  intro blueprint grammar hbuild hmem first uses hfirst huses
  obtain ⟨head, hplaced, hhandle, -⟩ :=
    PrecedenceRule.exists_placedAt_of_build hbuild hmem table.closed_rule
  have hspells := spells_place hfirst huses
  have hlinks := hspells.linked.length_le
  have hstops : table.Stops 0 ((write first uses).drop (write first uses).length) := by
    rw [List.drop_length]
    exact Stops.at_end table 0
  have htree := callReads_treeFrom hplaced (write first uses).length (Nat.zero_le _) rfl hspells
    (by omega) hstops
  rw [List.drop_zero, List.length_map] at htree
  have hhead : CallReads grammar.rules head
      (((write first uses).length + 1) * table.levels.length + 1 + 1) (write first uses) 0
      (write first uses).length (table.tree (place first uses)) := by
    refine .of_body hplaced.head_rule fun depth hdepth => ?_
    obtain ⟨tighter, hhandles⟩ := table.rule.levelHandles_eq_cons head
    rw [Rule.evalBody, hhandles]
    exact htree depth hdepth
  have hdepth : ((write first uses).length + 1) * table.levels.length + 1 + 1 ≤
      grammar.callDepth (.start (write first uses)) := by
    have henough := hplaced.le_callDepth (.start (write first uses))
    have hremaining : (Cursor.start (write first uses)).remaining.length =
      (write first uses).length := rfl
    rw [hremaining, length_levels_rule, Nat.mul_add] at henough
    omega
  have hrun := hhead _ hdepth ⟨.start (write first uses), .empty, #[]⟩ ⟨rfl, rfl⟩
  obtain ⟨v, t, ⟨rfl, ht⟩, houtcome, hcursor⟩ := hrun.runOn
  refine ⟨grammar.parseHandle head (.start (write first uses)), ?_, houtcome, ?_⟩
  · rw [Grammar.parseRule]
    have hname : grammar.handle? table.name = some head := hhandle
    rw [hname]
  · unfold Grammar.parseHandle
    rw [hcursor]
    exact ht.2

/-- In `1+2^3^4-5` the powers are put together first, from the right, and then the
sum and the difference, from the left. -/
theorem parse_builds_infix_tree_for_powers :
    let table : InfixTable :=
      { name := "E"
        levels := [⟨.left, [(.exact [0x2B], "l + r"), (.exact [0x2D], "l - r")]⟩,
          ⟨.right, [(.exact [0x5E], "l ^ r")]⟩]
        atom := ⟨[], [('0', '9')]⟩
        nonempty := by decide
        apart := by decide }
    let token (pos : Nat) : Value := .token (spanAt pos 1)
    ∃ grammar run, Blueprint.build { definitions := [.precedence table.rule] } = .ok grammar ∧
      grammar.parseRule "E" (.start (Utf8.encode "1+2^3^4-5")) = .ok run ∧
      run.outcome = .ok (.list [
        .list [token 0, token 1, .list [token 2, token 3, .list [token 4, token 5, token 6]]],
        token 7, token 8]) ∧
      run.cursor.pos = 9 := by
  intro table token
  obtain ⟨grammar, hbuild⟩ := (parse_builds_infix_tree table).1
  let uses : List Use := [⟨0, [0x2B], '2'⟩, ⟨1, [0x5E], '3'⟩, ⟨1, [0x5E], '4'⟩, ⟨0, [0x2D], '5'⟩]
  have huses : ∀ use ∈ uses, table.Admits use := by decide
  obtain ⟨run, hrun, houtcome, hpos⟩ := (parse_builds_infix_tree table).2 _ grammar hbuild
    List.mem_cons_self '1' uses (by decide) huses
  exact ⟨grammar, run, hbuild, hrun, houtcome, hpos⟩

end Peg
