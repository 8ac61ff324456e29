import Peg.Value

/-!
The names that labels bind during a match. A scope holds at most one value for
each name and keeps its names in order, so two scopes with the same bindings are
the same.
-/

namespace Peg

/-- Names with their values, sorted by name. -/
@[ext] structure Captures where
  bindings : List (String × Value)
  sorted : bindings.Pairwise (fun a b => a.1 < b.1)

namespace Captures

/-- The scope in which nothing is bound. -/
def empty : Captures :=
  ⟨[], List.Pairwise.nil⟩

/-- Puts a binding at its place among sorted ones, over one of the same name. -/
def place (name : String) (value : Value) : List (String × Value) → List (String × Value)
  | [] => [(name, value)]
  | (other, held) :: rest =>
    if name < other then (name, value) :: (other, held) :: rest
    else if name = other then (name, value) :: rest
    else (other, held) :: place name value rest

theorem mem_place {name : String} {value : Value} {rest : List (String × Value)}
    {binding : String × Value} (h : binding ∈ place name value rest) :
    binding = (name, value) ∨ binding ∈ rest := by
  induction rest with
  | nil => simpa [place] using h
  | cons first rest ih =>
    obtain ⟨other, held⟩ := first
    simp only [place] at h
    split at h
    · simpa using h
    · split at h
      · simp only [List.mem_cons] at h ⊢
        exact h.imp_right .inr
      · simp only [List.mem_cons] at h ⊢
        rcases h with h | h
        · exact .inr (.inl h)
        · exact (ih h).imp_right .inr

theorem pairwise_place {name : String} {value : Value} {rest : List (String × Value)}
    (h : rest.Pairwise (fun a b => a.1 < b.1)) :
    (place name value rest).Pairwise (fun a b => a.1 < b.1) := by
  induction rest with
  | nil => simp [place]
  | cons first rest ih =>
    obtain ⟨other, held⟩ := first
    obtain ⟨above, sorted⟩ := List.pairwise_cons.1 h
    simp only [place]
    split
    · next lt =>
      refine List.pairwise_cons.2 ⟨fun binding member => ?_, h⟩
      rcases List.mem_cons.1 member with rfl | member
      · exact lt
      · exact String.lt_trans lt (above _ member)
    · next notLt =>
      split
      · next eq =>
        subst eq
        exact List.pairwise_cons.2 ⟨above, sorted⟩
      · next ne =>
        refine List.pairwise_cons.2 ⟨fun binding member => ?_, ih sorted⟩
        rcases mem_place member with rfl | member
        · exact Classical.byContradiction fun notGt =>
            ne (String.le_antisymm (String.not_lt.1 notGt) (String.not_lt.1 notLt))
        · exact above _ member

/-- Binds a name, in place of what it was bound to. -/
def insert (scope : Captures) (name : String) (value : Value) : Captures :=
  ⟨place name value scope.bindings, pairwise_place scope.sorted⟩

/-- The value of a name, if it is bound. -/
def get? (scope : Captures) (name : String) : Option Value :=
  scope.bindings.lookup name

def contains (scope : Captures) (name : String) : Bool :=
  (scope.get? name).isSome

def size (scope : Captures) : Nat :=
  scope.bindings.length

def isEmpty (scope : Captures) : Bool :=
  scope.bindings.isEmpty

/-- All bindings in the order of their names. -/
def toList (scope : Captures) : List (String × Value) :=
  scope.bindings

@[simp] theorem get?_empty (name : String) : empty.get? name = none := rfl

private theorem lookup_pair (name other : String) (value : Value)
    (rest : List (String × Value)) :
    List.lookup name ((other, value) :: rest) =
      if name = other then some value else List.lookup name rest := by
  rw [List.lookup_cons]
  by_cases h : name = other
  · simp [h]
  · rw [if_neg h, beq_eq_false_iff_ne.2 h]

theorem get?_insert (scope : Captures) (name other : String) (value : Value) :
    (scope.insert name value).get? other =
      if other = name then some value else scope.get? other := by
  obtain ⟨bindings, sorted⟩ := scope
  simp only [insert, get?]
  clear sorted
  induction bindings with
  | nil => simp [place, lookup_pair]
  | cons first rest ih =>
    obtain ⟨held, old⟩ := first
    simp only [place]
    split
    · rw [lookup_pair]
    · split
      · next eq =>
        subst eq
        rw [lookup_pair, lookup_pair]
        split <;> simp_all
      · next ne =>
        rw [lookup_pair, lookup_pair, ih]
        split
        · next same => simp [same, Ne.symm ne]
        · rfl

theorem get?_insert_of_ne (scope : Captures) {name other : String} (value : Value)
    (h : other ≠ name) : (scope.insert name value).get? other = scope.get? other := by
  simp [get?_insert, h]

private theorem lookup_eq_none_of_above {name : String} {rest : List (String × Value)}
    (h : ∀ binding ∈ rest, name < binding.1) : rest.lookup name = none := by
  refine List.lookup_eq_none_iff.2 fun binding member => ?_
  refine bne_iff_ne.2 fun eq => ?_
  have lt := h binding member
  rw [eq] at lt
  exact String.lt_irrefl _ lt

private theorem head_le_head {name other : String} {value held : Value}
    {rest rest' : List (String × Value)}
    (sorted : ((other, held) :: rest').Pairwise (fun a b => a.1 < b.1))
    (h : ((name, value) :: rest).lookup name = ((other, held) :: rest').lookup name) :
    ¬ name < other := by
  intro lt
  have above : ∀ binding ∈ (other, held) :: rest', name < binding.1 := by
    intro binding member
    rcases List.mem_cons.1 member with rfl | member
    · exact lt
    · exact String.lt_trans lt ((List.pairwise_cons.1 sorted).1 binding member)
  rw [lookup_eq_none_of_above above, lookup_pair, if_pos rfl] at h
  cases h

private theorem bindings_eq_of_lookup {bindings bindings' : List (String × Value)}
    (sorted : bindings.Pairwise (fun a b => a.1 < b.1))
    (sorted' : bindings'.Pairwise (fun a b => a.1 < b.1))
    (h : ∀ name, bindings.lookup name = bindings'.lookup name) : bindings = bindings' := by
  induction bindings generalizing bindings' with
  | nil =>
    cases bindings' with
    | nil => rfl
    | cons first' rest' =>
      have hname := h first'.1
      rw [lookup_pair, if_pos rfl] at hname
      cases hname
  | cons first rest ih =>
    obtain ⟨name, value⟩ := first
    cases bindings' with
    | nil =>
      have hname := h name
      rw [lookup_pair, if_pos rfl] at hname
      cases hname
    | cons first' rest' =>
      obtain ⟨name', value'⟩ := first'
      have notLt := head_le_head sorted' (h name)
      have notGt := head_le_head sorted (h name').symm
      obtain rfl : name = name' := String.le_antisymm (String.not_lt.1 notGt)
        (String.not_lt.1 notLt)
      have hvalue := h name
      rw [lookup_pair, lookup_pair, if_pos rfl, if_pos rfl] at hvalue
      obtain rfl := Option.some.inj hvalue
      obtain ⟨above, sorted⟩ := List.pairwise_cons.1 sorted
      obtain ⟨above', sorted'⟩ := List.pairwise_cons.1 sorted'
      congr 1
      refine ih sorted sorted' fun other => ?_
      by_cases same : other = name
      · rw [same, lookup_eq_none_of_above above, lookup_eq_none_of_above above']
      · have hother := h other
        rw [lookup_pair, lookup_pair, if_neg same, if_neg same] at hother
        exact hother

/-- Scopes that bind the same names to the same values are the same. -/
theorem eq_of_get? {scope scope' : Captures} (h : ∀ name, scope.get? name = scope'.get? name) :
    scope = scope' :=
  Captures.ext (bindings_eq_of_lookup scope.sorted scope'.sorted h)

end Captures

end Peg
