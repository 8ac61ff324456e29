import Mathlib.Data.List.Pairwise
import Peg.Proofs.Grammar.WellFormed
import Peg.Proofs.Utf8

/-!
Tables of infix operators, and the trees they stand for. A table has levels of
operators, each written as a literal, over characters as operands; no operator
begins another, so that a text can be read in one way only. The tree of a
sequence of operands and operators is said without any parsing: the sequence is
split at the operators of the loosest level, the pieces become trees by the
levels that are left, and these are put together from the left or from the right.
-/

namespace Peg

/-! ## Literals that begin one another -/

namespace Literal

/-- What the one literal asks for is the beginning of what the other asks for;
where one of them ignores the case of letters, the case is left aside. -/
def IsPrefixOf (literal other : Literal) : Prop :=
  if literal.ignoreCase || other.ignoreCase then
    literal.bytes.map asciiLower <+: other.bytes.map asciiLower
  else literal.bytes <+: other.bytes

instance (literal other : Literal) : Decidable (literal.IsPrefixOf other) :=
  inferInstanceAs (Decidable (if literal.ignoreCase || other.ignoreCase then
    literal.bytes.map asciiLower <+: other.bytes.map asciiLower
  else literal.bytes <+: other.bytes))

theorem accepts_of_width? {literal : Literal} {rest : Bytes} {size : Nat}
    (h : literal.width? rest = some size) :
    size = literal.bytes.length ∧ literal.accepts (rest.take size) = true := by
  unfold width? at h
  split at h
  · next haccepts =>
    obtain rfl := Option.some.inj h
    exact ⟨rfl, haccepts⟩
  · cases h

theorem width?_append {literal : Literal} {found : Bytes} (h : literal.accepts found = true)
    (rest : Bytes) : literal.width? (found ++ rest) = some found.length := by
  have hlength := accepts_length h
  have htake : (found ++ rest).take literal.bytes.length = found := List.take_left' hlength
  rw [width?, htake, if_pos h, hlength]

theorem map_asciiLower_of_accepts {literal : Literal} {found : Bytes}
    (h : literal.accepts found = true) :
    found.map asciiLower = literal.bytes.map asciiLower := by
  unfold accepts at h
  split at h
  · exact eq_of_beq h
  · rw [eq_of_beq h]

/-- Of two literals that are both found in one place, the shorter begins the longer. -/
theorem isPrefixOf_of_width? {literal other : Literal} {rest : Bytes} {size size' : Nat}
    (h : literal.width? rest = some size) (h' : other.width? rest = some size')
    (hle : size ≤ size') : literal.IsPrefixOf other := by
  have hfound := (accepts_of_width? h).2
  have hother := (accepts_of_width? h').2
  have hfront : rest.take size <+: rest.take size' := List.take_prefix_take_left hle
  unfold IsPrefixOf
  split
  · rw [← map_asciiLower_of_accepts hfound, ← map_asciiLower_of_accepts hother]
    exact hfront.map asciiLower
  · next hexact =>
    simp only [Bool.or_eq_true, not_or, Bool.not_eq_true] at hexact
    simp only [accepts, hexact.1, hexact.2, beq_iff_eq, Bool.false_eq_true, if_false]
      at hfound hother
    rwa [hfound, hother] at hfront

end Literal

/-! ## Tables -/

/-- On which side a level of infix operators groups. -/
inductive Grouping where
  | left
  | right
deriving DecidableEq

/-- A level of infix operators: literals, each with the source of its action. -/
structure InfixLevel where
  grouping : Grouping
  operators : List (Literal × String)

namespace InfixLevel

/-- The action that gives what was matched: the operator between its operands. -/
def keep (source : String) : BinaryAction :=
  ⟨source, fun _ matched _ _ => .ok matched⟩

/-- The operators as the rows of a precedence rule. -/
def rows (level : InfixLevel) : List (Expr × BinaryAction) :=
  level.operators.map fun (literal, source) => (.literal literal, keep source)

def toLevel (level : InfixLevel) : OperatorLevel :=
  match level.grouping with
  | .left => .leftAssoc level.rows
  | .right => .rightAssoc level.rows

def literals (level : InfixLevel) : List Literal :=
  level.operators.map Prod.fst

theorem exprs_toLevel (level : InfixLevel) :
    level.toLevel.exprs = level.literals.map .literal := by
  unfold toLevel
  cases level.grouping <;> simp [OperatorLevel.exprs, rows, literals, Function.comp_def]

end InfixLevel

/-- Levels of infix operators, loosest first, over the characters of a class. No
operator is empty, and none begins another. -/
structure InfixTable where
  name : String
  levels : List InfixLevel
  atom : CharClass
  nonempty : ∀ literal ∈ levels.flatMap InfixLevel.literals, literal.bytes ≠ []
  apart : (levels.flatMap InfixLevel.literals).Pairwise fun literal other =>
    ¬ literal.IsPrefixOf other ∧ ¬ other.IsPrefixOf literal

namespace InfixTable

/-- The table as a precedence rule. -/
def rule (table : InfixTable) : PrecedenceRule :=
  ⟨table.name, table.levels.map (.operators ·.toLevel) ++ [.atom (.charClass table.atom)]⟩

variable {table : InfixTable}

/-- In one place no more than one operator of a table is found. -/
theorem operator_unique {i j : Nat} {level level' : InfixLevel} (hi : table.levels[i]? = some level)
    (hj : table.levels[j]? = some level') {literal literal' : Literal}
    (hmem : literal ∈ level.literals) (hmem' : literal' ∈ level'.literals) {rest : Bytes}
    {size size' : Nat} (h : literal.width? rest = some size)
    (h' : literal'.width? rest = some size') : i = j ∧ literal = literal' := by
  let Apart (l l' : Literal) := ¬ l.IsPrefixOf l' ∧ ¬ l'.IsPrefixOf l
  have hsymm : Std.Symm Apart := ⟨fun _ _ hl => ⟨hl.2, hl.1⟩⟩
  have hnot : ¬ Apart literal literal' := by
    intro hapart
    rcases Nat.le_total size size' with hle | hle
    · exact hapart.1 (Literal.isPrefixOf_of_width? h h' hle)
    · exact hapart.2 (Literal.isPrefixOf_of_width? h' h hle)
  have happart := table.apart
  rw [List.pairwise_flatMap] at happart
  obtain ⟨hwithin, hbetween⟩ := happart
  obtain ⟨hilt, rfl⟩ := List.getElem?_eq_some_iff.mp hi
  obtain ⟨hjlt, rfl⟩ := List.getElem?_eq_some_iff.mp hj
  rw [List.pairwise_iff_getElem] at hbetween
  rcases Nat.lt_trichotomy i j with hlt | rfl | hlt
  · exact absurd (hbetween i j hilt hjlt hlt literal hmem literal' hmem') hnot
  · refine ⟨rfl, ?_⟩
    by_contra hne
    exact hnot (List.Pairwise.forall (hwithin _ (List.getElem_mem hilt)) hmem hmem' hne)
  · exact absurd (hbetween j i hjlt hilt hlt literal' hmem' literal hmem) fun h => hnot ⟨h.2, h.1⟩

/-- Operators take at least a byte. -/
theorem operator_size_pos {i : Nat} {level : InfixLevel} (hi : table.levels[i]? = some level)
    {literal : Literal} (hmem : literal ∈ level.literals) {rest : Bytes} {size : Nat}
    (h : literal.width? rest = some size) : 0 < size := by
  have hbytes := table.nonempty literal
    (List.mem_flatMap.mpr ⟨level, List.mem_of_getElem? hi, hmem⟩)
  rw [(Literal.accepts_of_width? h).1]
  exact List.length_pos_iff.mpr hbytes

/-- At the end of the input no operator is found. -/
theorem width?_nil {i : Nat} {level : InfixLevel} (hi : table.levels[i]? = some level)
    {literal : Literal} (hmem : literal ∈ level.literals) : literal.width? [] = none := by
  rw [Option.eq_none_iff_forall_ne_some]
  intro size h
  have hpos := operator_size_pos hi hmem h
  have hle := Literal.width?_le h
  rw [List.length_nil] at hle
  omega

theorem levels_rule (table : InfixTable) :
    table.rule.levels = table.levels.map InfixLevel.toLevel := by
  simp [rule, PrecedenceRule.levels, List.filterMap_append, List.filterMap_map,
    PrecedenceItem.level?, Function.comp_def]

theorem length_levels_rule (table : InfixTable) :
    table.rule.levels.length = table.levels.length := by
  rw [levels_rule, List.length_map]

theorem atom_rule (table : InfixTable) : table.rule.atom = .charClass table.atom := by
  have hatoms : table.rule.atoms = [.charClass table.atom] := by
    simp [rule, PrecedenceRule.atoms, List.filterMap_append, List.filterMap_map,
      PrecedenceItem.atom?, Function.comp_def]
  rw [PrecedenceRule.atom, hatoms]

theorem wellFormed_rule (table : InfixTable) : table.rule.WellFormed := by
  constructor
  · exact ⟨_, List.mem_append_right _ List.mem_cons_self⟩
  · rw [rule, List.pairwise_append]
    refine ⟨?_, List.pairwise_singleton _ _, ?_⟩
    · rw [List.pairwise_map]
      exact List.pairwise_of_forall fun _ _ h => by cases h
    · intro item hmem later _ hatom
      obtain ⟨level, -, rfl⟩ := List.mem_map.mp hmem
      cases hatom

/-- The operators and the atom take bytes themselves. -/
theorem leaf_of_mem_roots {root : Expr}
    (h : root ∈ (Definition.precedence table.rule).roots) : root.Leaf := by
  rw [Definition.roots, atom_rule, levels_rule, List.mem_cons, List.mem_flatMap] at h
  rcases h with rfl | ⟨level, hlevel, hroot⟩
  · exact .charClass _
  · obtain ⟨level, -, rfl⟩ := List.mem_map.mp hlevel
    rw [InfixLevel.exprs_toLevel] at hroot
    obtain ⟨literal, -, rfl⟩ := List.mem_map.mp hroot
    exact .literal literal

theorem closed_rule (table : InfixTable) : table.rule.Closed :=
  PrecedenceRule.closed_of_leaves fun _ => leaf_of_mem_roots

/-- The table alone makes a grammar. -/
theorem exists_build (table : InfixTable) :
    ∃ grammar, Blueprint.build { definitions := [.precedence table.rule] } = .ok grammar :=
  table.wellFormed_rule.exists_build fun _ => leaf_of_mem_roots

/-! ## Sequences and their trees -/

/-- An operator of a level, and the operand after it, as stretches of an input. -/
structure Link where
  level : Nat
  operator : Span
  atom : Span

/-- Operands with operators between them. -/
structure Chain where
  first : Span
  links : List Link

/-- The part of a chain before the first operator of level `i`, and each operator
of that level with the part between it and the next. -/
def splitAt (i : Nat) (first : Span) : List Link → Chain × List (Span × Chain)
  | [] => (⟨first, []⟩, [])
  | link :: links =>
    let (chain, more) := splitAt i link.atom links
    if link.level = i then (⟨first, []⟩, (link.operator, chain) :: more)
    else (⟨first, link :: chain.links⟩, more)

theorem first_splitAt (i : Nat) (first : Span) (links : List Link) :
    (splitAt i first links).1.first = first := by
  cases links with
  | nil => rfl
  | cons link links =>
    by_cases hlevel : link.level = i
    · simp only [splitAt, if_pos hlevel]
    · simp only [splitAt, if_neg hlevel]

/-- Splitting makes no operators. -/
theorem length_splitAt (i : Nat) (first : Span) (links : List Link) :
    (splitAt i first links).1.links.length + (splitAt i first links).2.length ≤
      links.length := by
  induction links generalizing first with
  | nil => simp [splitAt]
  | cons link links ih =>
    have hrest := ih link.atom
    by_cases hlevel : link.level = i
    · simp only [splitAt, if_pos hlevel, List.length_nil, List.length_cons]
      omega
    · simp only [splitAt, if_neg hlevel, List.length_cons]
      omega

/-- An operator between its operands. -/
def node (lhs : Value) (operator : Span) (rhs : Value) : Value :=
  .list [lhs, .token operator, rhs]

/-- Puts operands together from the right. -/
def foldRight : Value → List (Span × Value) → Value
  | lhs, [] => lhs
  | lhs, (operator, rhs) :: more => node lhs operator (foldRight rhs more)

/-- Puts operands together from the side on which they are grouped. -/
def fold (lhs : Value) (more : List (Span × Value)) : Grouping → Value
  | .left => more.foldl (fun lhs (operator, rhs) => node lhs operator rhs) lhs
  | .right => foldRight lhs more

/-- The tree of a chain whose operators are of the levels from `i` on, which
group as they are listed. -/
def treeFrom : List Grouping → Nat → Chain → Value
  | [], _, chain => .token chain.first
  | grouping :: tighter, i, chain =>
    let (chain, more) := splitAt i chain.first chain.links
    fold (treeFrom tighter (i + 1) chain)
      (more.map fun (operator, chain) => (operator, treeFrom tighter (i + 1) chain)) grouping

/-- The tree that the table gives to a chain. -/
def tree (table : InfixTable) (chain : Chain) : Value :=
  treeFrom (table.levels.map InfixLevel.grouping) 0 chain

/-- An operator as it is written, the level it is of, and the operand after it. -/
structure Use where
  level : Nat
  operator : Bytes
  atom : Char

/-- The operator is one of its level, and the operand is one of the table. -/
def Admits (table : InfixTable) (use : Use) : Prop :=
  (∃ level ∈ table.levels[use.level]?, ∃ literal ∈ level.literals,
    literal.accepts use.operator) ∧ table.atom.contains use.atom

instance (table : InfixTable) (use : Use) : Decidable (table.Admits use) :=
  inferInstanceAs (Decidable ((∃ level ∈ table.levels[use.level]?, ∃ literal ∈ level.literals,
    literal.accepts use.operator) ∧ table.atom.contains use.atom))

/-- The text of operands with operators between them. -/
def write (first : Char) (uses : List Use) : Bytes :=
  String.utf8EncodeChar first ++
    uses.flatMap fun use => use.operator ++ String.utf8EncodeChar use.atom

/-- The span of so many bytes from a position on. -/
def spanAt (start size : Nat) : Span :=
  ⟨start, start + size, Nat.le_add_right ..⟩

/-- Where operators and operands lie when they are written from `start` on. -/
def placeFrom (start : Nat) : List Use → List Link
  | [] => []
  | use :: uses =>
    let operator := spanAt start use.operator.length
    let atom := spanAt operator.stop (String.utf8EncodeChar use.atom).length
    ⟨use.level, operator, atom⟩ :: placeFrom atom.stop uses

/-- Where they lie when nothing stands before. -/
def place (first : Char) (uses : List Use) : Chain :=
  let first := spanAt 0 (String.utf8EncodeChar first).length
  ⟨first, placeFrom first.stop uses⟩

end InfixTable

end Peg
