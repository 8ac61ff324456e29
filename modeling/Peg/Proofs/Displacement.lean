import Peg.Proofs.Leaves.Order

/-!
The same rest of an input in another place. A matcher looks at nothing before the cursor and
knows where it is only to say where the parts of a match lie. So where the same bytes remain,
two runs go the same way, one at a distance from the other: they match or fail together, and
all the positions they come to are moved by that distance. What actions do with positions is
up to them; here they give back what was matched. A correspondence ties runs that are at one
position of one input and come to one value; none of that is so here, and the two runs are tied
by where they began.
-/

namespace Peg

open Matcher

/-! ## Values in another place -/

/-- The span that lies as far from `origin'` as this one does from `origin`. -/
def Span.moved (origin origin' : Nat) (span : Span) : Span :=
  ⟨span.start - origin + origin', span.stop - origin + origin', by
    have := span.start_le_stop
    omega⟩

mutual
/-- The value with all its spans moved. The content of composites is what it was. -/
def Value.moved (origin origin' : Nat) : Value → Value
  | .token span => .token (span.moved origin origin')
  | .composite c => .composite ⟨c.span.moved origin origin', c.content⟩
  | .list items => .list (movedAll origin origin' items)
  | v => v

def Value.movedAll (origin origin' : Nat) : List Value → List Value
  | [] => []
  | v :: vs => v.moved origin origin' :: movedAll origin origin' vs
end

mutual
theorem Value.spans_moved (origin origin' : Nat) :
    ∀ v : Value, (v.moved origin origin').spans = v.spans.map (Span.moved origin origin')
  | token _ | composite _ => rfl
  | list items => spans_movedAll origin origin' items
  | int _ | float _ | str _ | bool _ | nil | foreign _ => rfl

theorem Value.spans_movedAll (origin origin' : Nat) :
    ∀ vs : List Value, (list (movedAll origin origin' vs)).spans =
      (list vs).spans.map (Span.moved origin origin')
  | [] => rfl
  | v :: vs => by
    have hv := spans_moved origin origin' v
    have hvs := spans_movedAll origin origin' vs
    simp only [spans, leaves_list, leavesOfAll, movedAll, List.filterMap_append, List.map_append]
      at hv hvs ⊢
    rw [hv, hvs]
end

/-! ## Two places -/

/-- Two inputs that go on alike, each from a position of its own. -/
structure Displacement where
  input : Bytes
  input' : Bytes
  origin : Nat
  origin' : Nat
  origin_le : origin ≤ input.length
  origin_le' : origin' ≤ input'.length
  rest_eq : input.drop origin = input'.drop origin'

namespace Displacement

variable (D : Displacement)

/-- The two positions lie in the rest, and as far from its beginning. -/
structure At (pos pos' : Nat) : Prop where
  origin_le : D.origin ≤ pos
  le_length : pos ≤ D.input.length
  pos_eq : pos' + D.origin = pos + D.origin'

/-- The span lies in the rest. -/
def Holds (span : Span) : Prop :=
  D.origin ≤ span.start ∧ span.stop ≤ D.input.length

/-- The second value is the first, moved; and all there is to move lies in the rest. -/
structure Values (v v' : Value) : Prop where
  eq_moved : v' = v.moved D.origin D.origin'
  holds : ∀ span ∈ v.spans, D.Holds span

structure Mismatches (x x' : Mismatch) : Prop where
  expr_eq : x'.expr = x.expr
  pos : D.At x.pos x'.pos

/-- The cursors are at corresponding positions. What is bound, and what happened before, may
differ. -/
structure States (s s' : MatchState) : Prop where
  input_eq : s.cursor.input = D.input
  input_eq' : s'.cursor.input = D.input'
  pos : D.At s.cursor.pos s'.cursor.pos

/-- Results of two runs that went the same way. -/
inductive Results {α : Type} (V : α → α → Prop) :
    EStateM.Result Interrupt MatchState α → EStateM.Result Interrupt MatchState α → Prop
  | ok {a a' : α} {t t' : MatchState} (ha : V a a') (ht : D.States t t') :
    Results V (.ok a t) (.ok a' t')
  | mismatch {x x' : Mismatch} {t t' : MatchState} (hx : D.Mismatches x x')
    (ht : D.States t t') : Results V (.error (.mismatch x) t) (.error (.mismatch x') t')
  | fault (fault : Fault) (t t' : MatchState) :
    Results V (.error (.fault fault) t) (.error (.fault fault) t')
  | exhausted (t t' : MatchState) : Results V (.error .exhausted t) (.error .exhausted t')

/-- From corresponding states the two runs go the same way. -/
def Moves {α : Type} (V : α → α → Prop) (m m' : Matcher α) : Prop :=
  ∀ s s' : MatchState, D.States s s' → D.Results V (EStateM.run m s) (EStateM.run m' s')

variable {D}

theorem length_eq : D.input.length + D.origin' = D.input'.length + D.origin := by
  have hrest := congrArg List.length D.rest_eq
  have hle := D.origin_le
  have hle' := D.origin_le'
  simp only [List.length_drop] at hrest
  omega

theorem drop_eq {pos pos' : Nat} (h : D.At pos pos') : D.input.drop pos = D.input'.drop pos' := by
  obtain ⟨hle, -, heq⟩ := h
  have hpos : pos = D.origin + (pos - D.origin) := by omega
  have hpos' : pos' = D.origin' + (pos - D.origin) := by omega
  rw [hpos', ← List.drop_drop, ← D.rest_eq, List.drop_drop, ← hpos]

namespace At

variable {pos pos' other other' : Nat}

theorem start : D.At D.origin D.origin' :=
  ⟨Nat.le_refl _, D.origin_le, Nat.add_comm _ _⟩

theorem eq_moved (h : D.At pos pos') : pos' = pos - D.origin + D.origin' := by
  have hle := h.origin_le
  have heq := h.pos_eq
  omega

theorem le_length' (h : D.At pos pos') : pos' ≤ D.input'.length := by
  have hle := h.le_length
  have heq := h.pos_eq
  have hlength := length_eq (D := D)
  omega

theorem advance (h : D.At pos pos') {size : Nat} (hsize : size ≤ (D.input.drop pos).length) :
    D.At (pos + size) (pos' + size) := by
  obtain ⟨hle, hlength, heq⟩ := h
  simp only [List.length_drop] at hsize
  exact ⟨by omega, by omega, by omega⟩

theorem lt_iff (h : D.At pos pos') (hother : D.At other other') : pos < other ↔ pos' < other' := by
  have heq := h.pos_eq
  have heq' := hother.pos_eq
  omega

end At

theorem States.setScope {s s' : MatchState} (h : D.States s s') (scope scope' : Captures) :
    D.States { s with scope } { s' with scope := scope' } :=
  ⟨h.input_eq, h.input_eq', h.pos⟩

theorem States.remaining_eq {s s' : MatchState} (h : D.States s s') :
    s.cursor.remaining = s'.cursor.remaining := by
  rw [Cursor.remaining, Cursor.remaining, h.input_eq, h.input_eq', drop_eq h.pos]

/-! ## What is read off values -/

theorem at_start {span : Span} (h : D.Holds span) :
    D.At span.start (span.moved D.origin D.origin').start := by
  have hle := span.start_le_stop
  exact ⟨h.1, Nat.le_trans hle h.2, by simp only [Span.moved]; have := h.1; omega⟩

theorem at_stop {span : Span} (h : D.Holds span) :
    D.At span.stop (span.moved D.origin D.origin').stop := by
  have hle := Nat.le_trans h.1 span.start_le_stop
  exact ⟨hle, h.2, by simp only [Span.moved]; omega⟩

/-- A span in the rest has the same content where it is moved to. -/
theorem slice_moved {span : Span} (h : D.Holds span) :
    (span.moved D.origin D.origin').slice D.input' = span.slice D.input := by
  have hstart := at_start h
  have hstop := at_stop h
  have hlength : (span.moved D.origin D.origin').stop - (span.moved D.origin D.origin').start =
      span.stop - span.start := by
    have := hstart.pos_eq
    have := hstop.pos_eq
    omega
  rw [Span.slice, Span.slice, if_pos hstop.le_length', if_pos h.2, List.drop_take, List.drop_take,
    hlength, drop_eq hstart]

mutual
theorem bytes_moved : ∀ v : Value, (∀ span ∈ v.spans, D.Holds span) →
    (v.moved D.origin D.origin').bytes D.input' = v.bytes D.input
  | .token span, h => slice_moved (h span List.mem_cons_self)
  | .list items, h => bytesOfAll_moved items h
  | .composite _, _ | .int _, _ | .float _, _ | .str _, _ | .bool _, _ | .nil, _
  | .foreign _, _ => rfl

theorem bytesOfAll_moved : ∀ vs : List Value, (∀ span ∈ (Value.list vs).spans, D.Holds span) →
    Value.bytesOfAll D.input' (Value.movedAll D.origin D.origin' vs) =
      Value.bytesOfAll D.input vs
  | [], _ => rfl
  | v :: vs, h => by
    rw [Value.spans_list_cons, List.forall_mem_append] at h
    rw [Value.movedAll, Value.bytesOfAll, Value.bytesOfAll, bytes_moved v h.1,
      bytesOfAll_moved vs h.2]
end

/-- Of two positions in the rest, and of those they are moved to, both pairs make a span or
neither does. -/
theorem between_moved {start start' stop stop' : Nat} (hstart : D.At start start')
    (hstop : D.At stop stop') :
    Span.between start' stop' = (Span.between start stop).map (Span.moved D.origin D.origin') := by
  have hle : start ≤ stop ↔ start' ≤ stop' := by
    have := hstop.lt_iff hstart
    omega
  unfold Span.between
  split
  · next h =>
    rw [dif_pos (hle.mpr h)]
    simp only [Except.map, Span.moved, hstart.eq_moved, hstop.eq_moved]
  · next h =>
    rw [dif_neg fun hle' => h (hle.mp hle')]
    rfl

theorem extent_moved {v : Value} {start start' : Nat} (hstart : D.At start start')
    (h : ∀ span ∈ v.spans, D.Holds span) :
    (v.moved D.origin D.origin').extent start' =
      (v.extent start).map (Span.moved D.origin D.origin') := by
  unfold Value.extent
  rw [← Value.spans, ← Value.spans, Value.spans_moved]
  cases hspans : v.spans with
  | nil => simp [Except.map, Span.empty, Span.moved, hstart.eq_moved]
  | cons first rest =>
    rw [hspans] at h
    have hfirst := h first List.mem_cons_self
    have hlast : D.Holds (rest.getLast?.getD first) :=
      h _ (List.mem_of_getLast? List.getLast?_cons)
    rw [← between_moved (at_start hfirst) (at_stop hlast), List.map_cons]
    dsimp only
    rw [List.getLast?_map]
    cases rest.getLast? <;> rfl

/-- What a value extends over lies in the rest. -/
theorem holds_extent {v : Value} {start start' : Nat} (hstart : D.At start start')
    (h : ∀ span ∈ v.spans, D.Holds span) {span : Span} (hspan : v.extent start = .ok span) :
    D.Holds span := by
  unfold Value.extent at hspan
  rw [← Value.spans] at hspan
  cases hspans : v.spans with
  | nil =>
    rw [hspans] at hspan
    cases hspan
    exact ⟨hstart.origin_le, hstart.le_length⟩
  | cons first rest =>
    rw [hspans] at hspan h
    obtain ⟨hfirst, hlast⟩ := Span.between_eq_ok_iff.mp hspan
    rw [Holds, hfirst, hlast]
    exact ⟨(h first List.mem_cons_self).1, (h _ (List.mem_of_getLast? List.getLast?_cons)).2⟩

namespace Values

theorem token {span : Span} (h : D.Holds span) :
    D.Values (.token span) (.token (span.moved D.origin D.origin')) :=
  ⟨rfl, by simpa [Value.spans, Value.leaves, Value.span?] using h⟩

theorem composite {span : Span} (h : D.Holds span) (content : Bytes) :
    D.Values (.composite ⟨span, content⟩)
      (.composite ⟨span.moved D.origin D.origin', content⟩) :=
  ⟨rfl, by simpa [Value.spans, Value.leaves, Value.span?] using h⟩

/-- A token of nothing at a position that both runs have come to. -/
theorem empty {pos pos' : Nat} (h : D.At pos pos') :
    D.Values (.token (Span.empty pos)) (.token (Span.empty pos')) := by
  have hmoved : Span.empty pos' = (Span.empty pos).moved D.origin D.origin' := by
    simp [Span.empty, Span.moved, h.eq_moved]
  rw [hmoved]
  exact .token ⟨h.origin_le, h.le_length⟩

theorem list {vs vs' : List Value} (h : List.Forall₂ D.Values vs vs') :
    D.Values (.list vs) (.list vs') := by
  induction h with
  | nil => exact ⟨rfl, by simp [Value.spans, Value.leavesOfAll]⟩
  | @cons v v' vs vs' hv hvs ih =>
    have hmoved := Value.list.inj ih.eq_moved
    refine ⟨?_, ?_⟩
    · rw [hv.eq_moved, hmoved]
      rfl
    · rw [Value.spans_list_cons, List.forall_mem_append]
      exact ⟨hv.holds, ih.holds⟩

theorem pair {v v' w w' : Value} (hv : D.Values v v') (hw : D.Values w w') :
    D.Values (.list [v, w]) (.list [v', w']) :=
  .list (.cons hv (.cons hw .nil))

theorem triple {v v' w w' x x' : Value} (hv : D.Values v v') (hw : D.Values w w')
    (hx : D.Values x x') : D.Values (.list [v, w, x]) (.list [v', w', x']) :=
  .list (.cons hv (.cons hw (.cons hx .nil)))

end Values

namespace Mismatches

variable {x x' y y' : Mismatch}

theorem furthest (hx : D.Mismatches x x') (hy : D.Mismatches y y') :
    D.Mismatches (x.furthest y) (x'.furthest y') := by
  unfold Mismatch.furthest
  by_cases hlt : x.pos < y.pos
  · rw [if_pos hlt, if_pos ((hx.pos.lt_iff hy.pos).mp hlt)]
    exact hy
  · rw [if_neg hlt, if_neg fun hlt' => hlt ((hx.pos.lt_iff hy.pos).mpr hlt')]
    exact hx

theorem mergeInto (hx : D.Mismatches x x') {best best' : Option Mismatch}
    (hbest : Option.Rel D.Mismatches best best') :
    D.Mismatches (x.mergeInto best) (x'.mergeInto best') := by
  cases hbest with
  | none => exact hx
  | some h => exact h.furthest hx

end Mismatches

/-! ## Matchers -/

section Matchers

variable {α β : Type} {V : α → α → Prop} {W : β → β → Prop} {m m' : Matcher α}

theorem moves_pure {a a' : α} (h : V a a') : D.Moves V (pure a) (pure a') :=
  fun _ _ hs => .ok h hs

theorem moves_mismatch {x x' : Mismatch} (h : D.Mismatches x x') :
    D.Moves V (throw (.mismatch x)) (throw (.mismatch x')) :=
  fun _ _ hs => .mismatch h hs

theorem moves_fault (fault : Fault) :
    D.Moves V (throw (.fault fault)) (throw (.fault fault)) :=
  fun s s' _ => .fault fault s s'

theorem moves_exhausted : D.Moves V (throw .exhausted) (throw .exhausted) :=
  fun s s' _ => .exhausted s s'

theorem moves_bind {f f' : α → Matcher β} (hm : D.Moves V m m')
    (hf : ∀ a a', V a a' → D.Moves W (f a) (f' a')) : D.Moves W (m >>= f) (m' >>= f') := by
  intro s s' hs
  rw [EStateM.run_bind, EStateM.run_bind]
  have hresults := hm s s' hs
  generalize EStateM.run m s = result at hresults ⊢
  generalize EStateM.run m' s' = result' at hresults ⊢
  cases hresults with
  | ok ha ht => exact hf _ _ ha _ _ ht
  | mismatch hx ht => exact .mismatch hx ht
  | fault fault t t' => exact .fault fault t t'
  | exhausted t t' => exact .exhausted t t'

theorem moves_map {f f' : α → β} (hm : D.Moves V m m') (hf : ∀ a a', V a a' → W (f a) (f' a')) :
    D.Moves W (f <$> m) (f' <$> m') := by
  rw [map_eq_pure_bind, map_eq_pure_bind]
  exact moves_bind hm fun a a' ha => moves_pure (hf a a' ha)

/-- Reading the state: the two continuations get states that correspond. -/
theorem moves_get {f f' : MatchState → Matcher β}
    (hf : ∀ s s', D.States s s' → D.Moves W (f s) (f' s')) :
    D.Moves W (get >>= f) (get >>= f') :=
  fun s s' hs => hf s s' hs s s' hs

theorem moves_position : D.Moves D.At position position :=
  fun _ _ hs => .ok hs.pos hs

theorem moves_rewind {pos pos' : Nat} (h : D.At pos pos') :
    D.Moves (fun _ _ => True) (rewind pos) (rewind pos') :=
  fun _ _ hs => .ok trivial ⟨hs.input_eq, hs.input_eq', h⟩

/-- What is noted, and what is bound, makes no difference. -/
theorem moves_note (event event' : Event) :
    D.Moves (fun _ _ => True) (note event) (note event') :=
  fun _ _ hs => .ok trivial ⟨hs.input_eq, hs.input_eq', hs.pos⟩

theorem moves_bindName (name : String) (value value' : Value) :
    D.Moves (fun _ _ => True) (bindName name value) (bindName name value') :=
  fun _ _ hs => .ok trivial (hs.setScope _ _)

theorem moves_context (captures captures' : Captures) :
    D.Moves (fun _ _ => True) (context captures) (context captures') :=
  fun _ _ hs => .ok trivial hs

theorem moves_ofFault {result : Except Fault α} {f : α → α}
    (hok : ∀ a, result = .ok a → V a (f a)) :
    D.Moves V (ofFault result) (ofFault (result.map f)) := by
  cases result with
  | ok a => exact moves_pure (hok a rfl)
  | error fault => exact moves_fault fault

/-- A terminal takes the same bytes, which are the same distance away. -/
theorem moves_terminal (e : Expr) {width? : Bytes → Option Nat}
    (hwidth : ∀ rest size, width? rest = some size → size ≤ rest.length) :
    D.Moves D.Values (terminal e width?) (terminal e width?) := by
  intro s s' hs
  rw [run_terminal, run_terminal, Cursor.take?, Cursor.take?, ← hs.remaining_eq]
  cases hsize : width? s.cursor.remaining with
  | none => exact .mismatch ⟨rfl, hs.pos⟩ hs
  | some size =>
    have hle := hwidth _ _ hsize
    rw [Cursor.remaining, hs.input_eq] at hle
    have hstop := hs.pos.advance hle
    have hmoved : (⟨s'.cursor.pos, s'.cursor.pos + size, Nat.le_add_right ..⟩ : Span) =
        Span.moved D.origin D.origin' ⟨s.cursor.pos, s.cursor.pos + size, Nat.le_add_right ..⟩ :=
      Span.ext hs.pos.eq_moved hstop.eq_moved
    simp only [Option.map_some, hmoved]
    exact .ok (.token ⟨hs.pos.origin_le, hstop.le_length⟩) ⟨hs.input_eq, hs.input_eq', hstop⟩

theorem moves_withScope (scope scope' : Captures) (hm : D.Moves V m m') :
    D.Moves (fun result result' => V result.1 result'.1) (withScope scope m)
      (withScope scope' m') := by
  intro s s' hs
  rw [run_withScope, run_withScope]
  have hresults := hm _ _ (hs.setScope scope scope')
  generalize EStateM.run m _ = result at hresults ⊢
  generalize EStateM.run m' _ = result' at hresults ⊢
  cases hresults with
  | ok ha ht => exact .ok ha (ht.setScope s.scope s'.scope)
  | mismatch hx ht => exact .mismatch hx (ht.setScope s.scope s'.scope)
  | fault fault t t' => exact .fault fault _ _
  | exhausted t t' => exact .exhausted _ _

/-- The results of attempts that went the same way. -/
inductive Tried (D : Displacement) (V : α → α → Prop) :
    Except Mismatch α → Except Mismatch α → Prop
  | ok {a a' : α} (h : V a a') : Tried D V (.ok a) (.ok a')
  | error {x x' : Mismatch} (h : D.Mismatches x x') : Tried D V (.error x) (.error x')

theorem moves_attempt (hm : D.Moves V m m') : D.Moves (Tried D V) (attempt m) (attempt m') := by
  intro s s' hs
  rw [run_attempt, run_attempt]
  have hresults := hm s s' hs
  generalize EStateM.run m s = result at hresults ⊢
  generalize EStateM.run m' s' = result' at hresults ⊢
  cases hresults with
  | ok ha ht => exact .ok (.ok ha) ht
  | mismatch hx ht => exact .ok (.error hx) ht
  | fault fault t t' => exact .fault fault t t'
  | exhausted t t' => exact .exhausted t t'

theorem moves_probe (hm : D.Moves V m m') : D.Moves (Tried D V) (probe m) (probe m') := by
  apply moves_bind moves_position
  intro start start' hstart
  apply moves_bind (moves_attempt hm)
  rintro _ _ (ha | hx)
  · exact moves_pure (.ok ha)
  · exact moves_bind (moves_rewind hstart) fun _ _ _ => moves_pure (.error hx)

theorem moves_survey (hm : D.Moves V m m') : D.Moves (Tried D V) (survey m) (survey m') := by
  apply moves_bind moves_position
  intro start start' hstart
  apply moves_bind (moves_attempt hm)
  intro result result' hresult
  exact moves_bind (moves_rewind hstart) fun _ _ _ => moves_pure hresult

theorem moves_firstOf {empty empty' : Mismatch} (hempty : D.Mismatches empty empty')
    {best best' : Option Mismatch} (hbest : Option.Rel D.Mismatches best best')
    {ms : List (Matcher α)} (hms : ∀ m ∈ ms, D.Moves V m m) :
    D.Moves V (firstOf empty best ms) (firstOf empty' best' ms) := by
  induction ms generalizing best best' with
  | nil =>
    refine moves_mismatch ?_
    cases hbest with
    | none => exact hempty
    | some h => exact h
  | cons m ms ih =>
    apply moves_bind (moves_probe (hms m List.mem_cons_self))
    rintro _ _ (ha | hx)
    · exact moves_pure ha
    · exact ih (.some (hx.mergeInto hbest)) fun m hm => hms m (List.mem_cons_of_mem _ hm)

theorem moves_traced (rule : String) {m m' : Matcher Value} (hm : D.Moves D.Values m m') :
    D.Moves D.Values (traced rule m) (traced rule m') := by
  apply moves_bind moves_position
  intro start start' _
  apply moves_bind (moves_note _ _)
  intro _ _ _
  apply moves_bind (moves_attempt hm)
  rintro _ _ (hv | hx)
  · apply moves_bind moves_position
    intro stop stop' _
    exact moves_bind (moves_note _ _) fun _ _ _ => moves_pure hv
  · exact moves_bind (moves_note _ _) fun _ _ _ => moves_mismatch hx

theorem moves_iterateWithin (idle : Nat → Event) {step : α → Matcher (Option α)}
    (hstep : ∀ a a', V a a' → D.Moves (Option.Rel V) (step a) (step a')) (bound : Nat)
    {a a' : α} (ha : V a a') :
    D.Moves V (iterateWithin idle step bound a) (iterateWithin idle step bound a') := by
  induction bound generalizing a a' with
  | zero => exact moves_exhausted
  | succ bound ih =>
    apply moves_get
    intro s s' hs
    apply moves_bind (hstep a a' ha)
    intro next next' hnext
    cases hnext with
    | none => exact moves_pure ha
    | some hb =>
      apply moves_get
      intro t t' ht
      rw [hs.remaining_eq, ht.remaining_eq]
      split
      · exact ih hb
      · exact moves_bind (moves_note _ _) fun _ _ _ => moves_pure hb

theorem moves_iterate (idle : Nat → Event) {step : α → Matcher (Option α)}
    (hstep : ∀ a a', V a a' → D.Moves (Option.Rel V) (step a) (step a')) {a a' : α}
    (ha : V a a') : D.Moves V (iterate idle step a) (iterate idle step a') := by
  apply moves_get
  intro s s' hs
  dsimp only
  rw [hs.remaining_eq]
  exact moves_iterateWithin idle hstep _ ha

theorem moves_many (idle : Nat → Event) {m : Matcher Value} (hm : D.Moves D.Values m m)
    {values values' : List Value} (hvalues : List.Forall₂ D.Values values values') :
    D.Moves (List.Forall₂ D.Values) (many idle m values) (many idle m values') := by
  refine moves_iterate idle (fun values values' hvalues => ?_) hvalues
  apply moves_bind (moves_probe hm)
  rintro _ _ (hv | hx)
  · exact moves_pure (.some (List.rel_append hvalues (.cons hv .nil)))
  · exact moves_pure .none

end Matchers

end Displacement

/-! ## Expressions, levels and rules -/

/-- Actions give back what was matched. -/
def Discipline.echo : Discipline :=
  ⟨True, fun matched result => result = matched⟩

theorem Action.Obeys.run_eq {a : Action} (h : a.Obeys .echo) (context : ActionContext)
    (matched : Value) : a.run context matched = .ok matched := by
  obtain ⟨_, hrun, rfl⟩ := h context matched
  exact hrun

theorem UnaryAction.Obeys.run_eq {a : UnaryAction} (h : a.Obeys .echo) (context : ActionContext)
    (matched x : Value) : a.run context matched x = .ok matched := by
  obtain ⟨_, hrun, rfl⟩ := h context matched x
  exact hrun

theorem BinaryAction.Obeys.run_eq {a : BinaryAction} (h : a.Obeys .echo)
    (context : ActionContext) (matched left right : Value) :
    a.run context matched left right = .ok matched := by
  obtain ⟨_, hrun, rfl⟩ := h context matched left right
  exact hrun

open Displacement

variable {D : Displacement} {call : Nat → Matcher Value}

namespace Expr

theorem evalParts_moves {es : List Expr}
    (hes : ∀ e ∈ es, D.Moves D.Values (e.eval call) (e.eval call)) :
    D.Moves (List.Forall₂ D.Values) (evalParts call es) (evalParts call es) := by
  induction es with
  | nil => exact moves_pure .nil
  | cons e es ih =>
    apply moves_bind (hes e List.mem_cons_self)
    intro v v' hv
    apply moves_bind (ih fun e he => hes e (List.mem_cons_of_mem _ he))
    intro vs vs' hvs
    apply moves_pure
    split
    · exact hvs
    · exact .cons hv hvs

/-- An expression matches the same in both places, if the rules it calls do. -/
theorem eval_moves (hcall : ∀ handle, D.Moves D.Values (call handle) (call handle)) {e : Expr}
    (he : e.Obeys .echo) : D.Moves D.Values (e.eval call) (e.eval call) := by
  induction e using children_induction with
  | step e ih =>
    have hparts : ∀ part ∈ e.children, D.Moves D.Values (part.eval call) (part.eval call) :=
      fun part hpart => ih part hpart (he.part hpart)
    cases e with
    | literal l => exact moves_terminal _ fun _ _ => Literal.width?_le
    | charClass c => exact moves_terminal _ fun _ _ => CharClass.width?_le
    | anyChar => exact moves_terminal _ anyChar_size_le
    | seq es => exact moves_map (evalParts_moves hparts) fun _ _ => .list
    | choice es =>
      apply moves_bind moves_position
      intro start start' hstart
      have hempty : D.Mismatches ⟨choice es, start⟩ ⟨choice es, start'⟩ := ⟨rfl, hstart⟩
      refine moves_firstOf hempty .none fun m hm => ?_
      rw [evalEach_eq_map] at hm
      obtain ⟨part, hpart, rfl⟩ := List.mem_map.mp hm
      exact hparts part hpart
    | star e =>
      exact moves_map (moves_many _ (hparts e List.mem_cons_self) .nil) fun _ _ => .list
    | plus e =>
      have hbody := hparts e List.mem_cons_self
      apply moves_get
      intro s s' hs
      apply moves_bind hbody
      intro first first' hfirst
      apply moves_get
      intro t t' ht
      rw [hs.remaining_eq, ht.remaining_eq]
      split
      · exact moves_map (moves_many _ hbody (.cons hfirst .nil)) fun _ _ => .list
      · exact moves_bind (moves_note _ _) fun _ _ _ => moves_pure (.list (.cons hfirst .nil))
    | optional e =>
      apply moves_bind moves_position
      intro start start' hstart
      apply moves_bind (moves_probe (hparts e List.mem_cons_self))
      rintro _ _ (hv | hx)
      · exact moves_pure hv
      · exact moves_pure (.empty hstart)
    | ahead e =>
      apply moves_bind moves_position
      intro start start' hstart
      apply moves_bind (moves_survey (hparts e List.mem_cons_self))
      rintro _ _ (hv | hx)
      · exact moves_pure (.empty hstart)
      · exact moves_mismatch hx
    | notAhead e =>
      apply moves_bind moves_position
      intro start start' hstart
      apply moves_bind (moves_survey (hparts e List.mem_cons_self))
      have hmismatch : D.Mismatches ⟨notAhead e, start⟩ ⟨notAhead e, start'⟩ := ⟨rfl, hstart⟩
      rintro _ _ (hv | hx)
      · exact moves_mismatch hmismatch
      · exact moves_pure (.empty hstart)
    | discard e => exact hparts e List.mem_cons_self
    | label name e =>
      apply moves_bind (hparts e List.mem_cons_self)
      intro v v' hv
      exact moves_bind (moves_bindName name v v') fun _ _ _ => moves_pure hv
    | action e a =>
      apply moves_get
      intro s s' hs
      apply moves_bind (moves_withScope s.scope s'.scope (hparts e List.mem_cons_self))
      rintro ⟨v, captures⟩ ⟨v', captures'⟩ hv
      apply moves_bind (moves_context captures captures')
      intro context context' _
      have ha := he.actions e a .self
      rw [ha.run_eq, ha.run_eq]
      exact moves_pure hv
    | slice e =>
      apply moves_bind moves_position
      intro start start' hstart
      apply moves_bind (hparts e List.mem_cons_self)
      intro v v' hv
      rw [hv.eq_moved, extent_moved hstart hv.holds]
      apply moves_map (V := fun span span' => D.Values (.token span) (.token span'))
      · exact moves_ofFault fun span hspan => .token (holds_extent hstart hv.holds hspan)
      · exact fun _ _ hspan => hspan
    | concat e =>
      apply moves_bind moves_position
      intro start start' hstart
      apply moves_bind (hparts e List.mem_cons_self)
      intro v v' hv
      apply moves_get
      intro t t' ht
      dsimp only
      rw [ht.input_eq, ht.input_eq', hv.eq_moved, bytes_moved v hv.holds, Cursor.spanSince,
        Cursor.spanSince, between_moved hstart ht.pos]
      cases v.bytes D.input with
      | error fault => exact moves_fault fault
      | ok content =>
        cases hspan : Span.between start t.cursor.pos with
        | error fault => exact moves_fault fault
        | ok span =>
          obtain ⟨hfirst, hlast⟩ := Span.between_eq_ok_iff.mp hspan
          refine moves_pure (.composite ⟨?_, ?_⟩ content)
          · exact hfirst ▸ hstart.origin_le
          · exact hlast ▸ ht.pos.le_length
    | rule ref =>
      unfold eval
      cases ref.handle? with
      | none => exact moves_fault _
      | some handle => exact hcall handle

end Expr

namespace OperatorLevel

variable {α : Type} {self operand : Matcher Value}

/-- The same operator was found, with values that correspond, or none. -/
inductive SameFound (D : Displacement) (obeys : α → Prop) :
    Option (Value × α) → Option (Value × α) → Prop
  | found {op op' : Value} {a : α} (hop : D.Values op op') (ha : obeys a) :
    SameFound D obeys (some (op, a)) (some (op', a))
  | nothing : SameFound D obeys none none

theorem firstOperator_moves (obeys : α → Prop)
    (hcall : ∀ handle, D.Moves D.Values (call handle) (call handle)) {operators : List (Expr × α)}
    (hexprs : ∀ e ∈ operators.map Prod.fst, e.Obeys .echo)
    (hactions : ∀ op ∈ operators, obeys op.2) :
    D.Moves (SameFound D obeys) (firstOperator call operators)
      (firstOperator call operators) := by
  induction operators with
  | nil => exact moves_pure .nothing
  | cons op operators ih =>
    obtain ⟨e, a⟩ := op
    apply moves_bind (moves_probe (Expr.eval_moves hcall (hexprs e List.mem_cons_self)))
    rintro _ _ (hop | hx)
    · exact moves_pure (.found hop (hactions _ List.mem_cons_self))
    · exact ih (fun e he => hexprs e (List.mem_cons_of_mem _ he))
        (fun op hop => hactions op (List.mem_cons_of_mem _ hop))

theorem operator_moves (obeys : α → Prop)
    (hcall : ∀ handle, D.Moves D.Values (call handle) (call handle)) {operators : List (Expr × α)}
    (hexprs : ∀ e ∈ operators.map Prod.fst, e.Obeys .echo)
    (hactions : ∀ op ∈ operators, obeys op.2) :
    D.Moves (fun result result' => SameFound D obeys result.1 result'.1) (operator call operators)
      (operator call operators) :=
  moves_withScope _ _ (firstOperator_moves obeys hcall hexprs hactions)

/-- A level matches the same in both places, if its operand and the level itself do. -/
theorem eval_moves (hcall : ∀ handle, D.Moves D.Values (call handle) (call handle))
    (hself : D.Moves D.Values self self) (hoperand : D.Moves D.Values operand operand)
    {level : OperatorLevel} (hlevel : level.Obeys .echo) :
    D.Moves D.Values (level.eval call self operand) (level.eval call self operand) := by
  cases level with
  | prefixOps operators =>
    apply moves_bind (operator_moves (UnaryAction.Obeys · .echo) hcall hlevel.exprs hlevel.actions)
    rintro ⟨_, captures⟩ ⟨_, captures'⟩ (⟨hop, ha⟩ | -)
    · apply moves_bind hself
      intro x x' hx
      apply moves_bind (moves_context captures captures')
      intro context context' _
      rw [ha.run_eq, ha.run_eq]
      exact moves_pure (.pair hop hx)
    · exact hoperand
  | postfixOps operators =>
    have hfind := operator_moves (UnaryAction.Obeys · .echo) hcall hlevel.exprs hlevel.actions
    apply moves_bind hoperand
    intro x x' hx
    refine moves_iterate _ (fun x x' hx => ?_) hx
    apply moves_bind hfind
    rintro ⟨_, captures⟩ ⟨_, captures'⟩ (⟨hop, ha⟩ | -)
    · apply moves_bind (moves_context captures captures')
      intro context context' _
      rw [ha.run_eq, ha.run_eq]
      exact moves_pure (.some (.pair hx hop))
    · exact moves_pure .none
  | leftAssoc operators =>
    have hfind := operator_moves (BinaryAction.Obeys · .echo) hcall hlevel.exprs hlevel.actions
    apply moves_bind hoperand
    intro left left' hleft
    refine moves_iterate _ (fun left left' hleft => ?_) hleft
    apply moves_bind hfind
    rintro ⟨_, captures⟩ ⟨_, captures'⟩ (⟨hop, ha⟩ | -)
    · apply moves_bind hoperand
      intro right right' hright
      apply moves_bind (moves_context captures captures')
      intro context context' _
      rw [ha.run_eq, ha.run_eq]
      exact moves_pure (.some (.triple hleft hop hright))
    · exact moves_pure .none
  | rightAssoc operators =>
    apply moves_bind hoperand
    intro left left' hleft
    apply moves_bind (operator_moves (BinaryAction.Obeys · .echo) hcall hlevel.exprs hlevel.actions)
    rintro ⟨_, captures⟩ ⟨_, captures'⟩ (⟨hop, ha⟩ | -)
    · apply moves_bind hself
      intro right right' hright
      apply moves_bind (moves_context captures captures')
      intro context context' _
      rw [ha.run_eq, ha.run_eq]
      exact moves_pure (.triple hleft hop hright)
    · exact moves_pure hleft

end OperatorLevel

theorem Rule.evalBody_moves (hcall : ∀ handle, D.Moves D.Values (call handle) (call handle))
    (handle : Nat) {rule : Rule} (h : rule.body.Obeys .echo) :
    D.Moves D.Values (rule.evalBody call handle) (rule.evalBody call handle) := by
  obtain ⟨name, kind, body⟩ := rule
  match body with
  | .expr e => exact Expr.eval_moves hcall h
  | .precedence [] => exact moves_fault _
  | .precedence (first :: _) => exact hcall first
  | .level operators operand =>
    exact OperatorLevel.eval_moves hcall (hcall handle) (hcall operand) h

theorem callRule_moves {rules : List Rule} (hrules : ∀ rule ∈ rules, rule.body.Obeys .echo)
    (depth handle : Nat) :
    D.Moves D.Values (callRule rules depth handle) (callRule rules depth handle) := by
  induction depth generalizing handle with
  | zero => exact moves_exhausted
  | succ depth ih =>
    unfold callRule
    cases hrule : rules[handle]? with
    | none => exact moves_fault _
    | some rule =>
      have hbody := rule.evalBody_moves ih handle (hrules rule (List.mem_of_getElem? hrule))
      apply moves_traced
      apply moves_bind (moves_withScope _ _ hbody)
      rintro ⟨v, _⟩ ⟨v', _⟩ hv
      exact moves_pure hv

/-- Two runs came to the same end, each as far from where it began: a match with the same value,
moved, or the failure of the same expression, or the same fault. -/
inductive EndAlike (start start' : Nat) :
    EStateM.Result Interrupt MatchState Value → EStateM.Result Interrupt MatchState Value → Prop
  | matched {v : Value} {t t' : MatchState} (hspans : ∀ span ∈ v.spans, start ≤ span.start)
    (hpos : t'.cursor.pos + start = t.cursor.pos + start') :
    EndAlike start start' (.ok v t) (.ok (v.moved start start') t')
  | failed {x x' : Mismatch} {t t' : MatchState} (hexpr : x'.expr = x.expr)
    (hfailed : x'.pos + start = x.pos + start')
    (hpos : t'.cursor.pos + start = t.cursor.pos + start') :
    EndAlike start start' (.error (.mismatch x) t) (.error (.mismatch x') t')
  | fault (fault : Fault) (t t' : MatchState) :
    EndAlike start start' (.error (.fault fault) t) (.error (.fault fault) t')
  | exhausted (t t' : MatchState) :
    EndAlike start start' (.error .exhausted t) (.error .exhausted t')

/-- A parse depends on nothing but the rest of the input. Where actions give back what was
matched, and the same bytes remain in two places, be the inputs, the positions, the names bound
and what happened before as they may, a rule, or an expression with rules around it or without,
comes to the same end in both, as far from the one place as from the other. -/
theorem parse_depends_on_rest {rules : List Rule}
    (hrules : ∀ rule ∈ rules, rule.body.Obeys .echo) (depth : Nat) {m : Matcher Value}
    (hm : (∃ handle, m = callRule rules depth handle) ∨
      ∃ e : Expr, e.Obeys .echo ∧ (m = e.eval (callRule rules depth) ∨
        m = e.eval fun handle => throw (.fault (.noGrammar handle))))
    {s s' : MatchState} (hs : s.cursor.pos ≤ s.cursor.input.length)
    (hs' : s'.cursor.pos ≤ s'.cursor.input.length)
    (hrest : s.cursor.remaining = s'.cursor.remaining) :
    EndAlike s.cursor.pos s'.cursor.pos (EStateM.run m s) (EStateM.run m s') := by
  let D : Displacement :=
    ⟨s.cursor.input, s'.cursor.input, s.cursor.pos, s'.cursor.pos, hs, hs', hrest⟩
  have hmoves : D.Moves D.Values m m := by
    rcases hm with ⟨handle, rfl⟩ | ⟨e, he, rfl | rfl⟩
    · exact callRule_moves hrules depth handle
    · exact Expr.eval_moves (callRule_moves hrules depth) he
    · exact Expr.eval_moves (fun handle => moves_fault (.noGrammar handle)) he
  have hresults := hmoves s s' ⟨rfl, rfl, .start⟩
  generalize EStateM.run m s = result at hresults ⊢
  generalize EStateM.run m s' = result' at hresults ⊢
  cases hresults with
  | ok hv ht =>
    rw [hv.eq_moved]
    exact .matched (fun span hspan => (hv.holds span hspan).1) ht.pos.pos_eq
  | mismatch hx ht => exact .failed hx.expr_eq hx.pos.pos_eq ht.pos.pos_eq
  | fault fault t t' => exact .fault fault t t'
  | exhausted t t' => exact .exhausted t t'

/-- The rest `ab` behind one byte, and behind two with a name bound: the slice and the content
that was put together are one byte further on. -/
theorem parse_depends_on_rest_behind_one_and_two_bytes :
    let rules : List Rule := [⟨"pair", .plain, .expr
      (.seq [.slice (.literal (.exact [0x61])), .concat (.label "b" (.literal (.exact [0x62])))])⟩]
    let s : MatchState := ⟨⟨[0x78, 0x61, 0x62], 1, 0⟩, .empty, #[]⟩
    let s' : MatchState := ⟨⟨[0x79, 0x79, 0x61, 0x62], 2, 4⟩, .insert .empty "b" .nil, #[]⟩
    (∀ rule ∈ rules, rule.body.Obeys .echo) ∧ s.cursor.pos ≤ s.cursor.input.length ∧
      s'.cursor.pos ≤ s'.cursor.input.length ∧ s.cursor.remaining = s'.cursor.remaining ∧
      ∃ v v' t t', EStateM.run (callRule rules 1 0) s = .ok v t ∧
        EStateM.run (callRule rules 1 0) s' = .ok v' t' ∧ v' = v.moved 1 2 ∧
        v'.spans = [⟨2, 3, by decide⟩, ⟨3, 4, by decide⟩] ∧
        t'.cursor.pos + 1 = t.cursor.pos + 2 := by
  intro rules s s'
  have hrules : ∀ rule ∈ rules, rule.body.Obeys .echo := by
    refine List.forall_mem_singleton.mpr ⟨fun _ _ _ _ _ => trivial, fun body a ha => ?_⟩
    simp [← Expr.mem_postorder_iff_occurs, Expr.postorder, Expr.inner, Expr.postorderAll] at ha
  have hs : s.cursor.pos ≤ s.cursor.input.length := by decide
  have hs' : s'.cursor.pos ≤ s'.cursor.input.length := by decide
  have hrest : s.cursor.remaining = s'.cursor.remaining := rfl
  obtain ⟨v, t, hrun⟩ : ∃ v t, EStateM.run (callRule rules 1 0) s = .ok v t := ⟨_, _, rfl⟩
  obtain ⟨v', t', hrun', hspans⟩ : ∃ v' t', EStateM.run (callRule rules 1 0) s' = .ok v' t' ∧
      v'.spans = [⟨2, 3, by decide⟩, ⟨3, 4, by decide⟩] := ⟨_, _, rfl, rfl⟩
  have halike := parse_depends_on_rest hrules 1 (.inl ⟨0, rfl⟩) hs hs' hrest
  rw [hrun, hrun'] at halike
  cases halike with
  | matched _ hpos => exact ⟨hrules, hs, hs', hrest, v, _, t, t', hrun, hrun', rfl, hspans, hpos⟩

end Peg
