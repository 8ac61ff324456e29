import Peg.Proofs.Leaves.Flattening

/-!
Tokens stay in order. Values may be dropped and actions may put others in their place, as
long as there are no tokens in those: what remains of the tokens and composites of a match
lies in it in the order of the input. So the stretch from the first to the last of them, which
is what a slice gives, is always a span, and no smaller one holds them all.
-/

namespace Peg

open Matcher

/-- The spans follow each other between two positions. -/
structure InOrder (start : Nat) (spans : List Span) (stop : Nat) : Prop where
  start_le_stop : start ≤ stop
  within : ∀ span ∈ spans, start ≤ span.start ∧ span.stop ≤ stop
  pairwise : spans.Pairwise fun before after => before.stop ≤ after.start

/-- The span holds all of these, and every span that does holds it. -/
structure Span.Hull (hull : Span) (spans : List Span) : Prop where
  holds : ∀ span ∈ spans, hull.start ≤ span.start ∧ span.stop ≤ hull.stop
  least : ∀ around : Span, (∀ span ∈ spans, around.start ≤ span.start ∧ span.stop ≤ around.stop) →
    around.start ≤ hull.start ∧ hull.stop ≤ around.stop

namespace InOrder

variable {start mid stop : Nat} {spans front back : List Span} {first : Span}

theorem none (h : start ≤ stop) : InOrder start [] stop :=
  ⟨h, by simp, .nil⟩

theorem single {span : Span} (hstart : start ≤ span.start) (hstop : span.stop ≤ stop) :
    InOrder start [span] stop := by
  have hle : start ≤ stop := Nat.le_trans hstart (Nat.le_trans span.start_le_stop hstop)
  exact ⟨hle, List.forall_mem_singleton.mpr ⟨hstart, hstop⟩, List.pairwise_singleton ..⟩

theorem append (hfront : InOrder start front mid) (hback : InOrder mid back stop) :
    InOrder start (front ++ back) stop := by
  refine ⟨Nat.le_trans hfront.start_le_stop hback.start_le_stop, ?_, ?_⟩
  · intro span hspan
    rcases List.mem_append.mp hspan with hspan | hspan
    · obtain ⟨hstart, hstop⟩ := hfront.within span hspan
      exact ⟨hstart, Nat.le_trans hstop hback.start_le_stop⟩
    · obtain ⟨hstart, hstop⟩ := hback.within span hspan
      exact ⟨Nat.le_trans hfront.start_le_stop hstart, hstop⟩
  · refine List.pairwise_append.mpr ⟨hfront.pairwise, hback.pairwise, ?_⟩
    intro before hbefore after hafter
    exact Nat.le_trans (hfront.within before hbefore).2 (hback.within after hafter).1

/-- None begins before the first one. -/
theorem first_le_start (h : InOrder start (first :: spans) stop) :
    ∀ span ∈ first :: spans, first.start ≤ span.start := by
  obtain ⟨hfirst, -⟩ := List.pairwise_cons.mp h.pairwise
  intro span hspan
  rcases List.mem_cons.mp hspan with rfl | hspan
  · exact Nat.le_refl _
  · exact Nat.le_trans first.start_le_stop (hfirst span hspan)

/-- None ends behind the last one. -/
theorem stop_le_last (h : InOrder start (first :: spans) stop) :
    ∀ span ∈ first :: spans, span.stop ≤ (spans.getLast?.getD first).stop := by
  obtain ⟨-, -, hpairwise⟩ := h
  induction spans generalizing first with
  | nil => exact List.forall_mem_singleton.mpr (Nat.le_refl _)
  | cons second spans ih =>
    obtain ⟨hfirst, hrest⟩ := List.pairwise_cons.mp hpairwise
    have hlast := ih hrest
    rw [List.getLast?_cons, Option.getD_some]
    refine List.forall_mem_cons.mpr ⟨?_, hlast⟩
    calc first.stop
      _ ≤ second.start := hfirst second List.mem_cons_self
      _ ≤ second.stop := second.start_le_stop
      _ ≤ _ := hlast second List.mem_cons_self

/-- From the first to the last is a span, and no smaller one holds them all. -/
theorem exists_hull (h : InOrder start (first :: spans) stop) :
    ∃ hull, Span.between first.start (spans.getLast?.getD first).stop = .ok hull ∧
      hull.Hull (first :: spans) ∧ InOrder start [hull] stop := by
  have hlast : spans.getLast?.getD first ∈ first :: spans :=
    List.mem_of_getLast? List.getLast?_cons
  have hle := Nat.le_trans (h.first_le_start _ hlast) (Span.start_le_stop _)
  refine ⟨⟨_, _, hle⟩, Span.between_eq_ok_iff.mpr ⟨rfl, rfl⟩, ⟨?_, ?_⟩, ?_⟩
  · exact fun span hspan => ⟨h.first_le_start span hspan, h.stop_le_last span hspan⟩
  · exact fun around haround => ⟨(haround first List.mem_cons_self).1, (haround _ hlast).2⟩
  · exact .single (h.within first List.mem_cons_self).1 (h.within _ hlast).2

end InOrder

/-- The extent of a value whose spans are in order is the smallest span that holds them. -/
theorem Value.exists_extent {v : Value} {start stop : Nat} (h : InOrder start v.spans stop) :
    ∃ span, v.extent start = .ok span ∧ InOrder start [span] stop ∧
      (v.spans = [] → span = Span.empty start) ∧ (v.spans ≠ [] → span.Hull v.spans) := by
  unfold Value.extent
  rw [← spans]
  cases hspans : v.spans with
  | nil =>
    refine ⟨_, rfl, .single (Nat.le_refl start) h.start_le_stop, fun _ => rfl, ?_⟩
    exact fun hne => absurd rfl hne
  | cons first rest =>
    rw [hspans] at h
    obtain ⟨hull, hbetween, hhull, hin⟩ := h.exists_hull
    exact ⟨hull, hbetween, hin, fun hnil => absurd hnil (List.cons_ne_nil first rest),
      fun _ => hhull⟩

theorem Value.spans_list_cons (v : Value) (vs : List Value) :
    (list (v :: vs)).spans = v.spans ++ (list vs).spans :=
  List.filterMap_append

/-- A value has content if its spans are inside the input. -/
theorem Value.exists_bytes {input : Bytes} (v : Value)
    (h : ∀ span ∈ v.spans, span.stop ≤ input.length) : ∃ content, v.bytes input = .ok content := by
  have htokens : ∀ span, token span ∈ v.leaves → span.stop ≤ input.length :=
    fun span hspan => h span (List.mem_filterMap.mpr ⟨token span, hspan, rfl⟩)
  obtain ⟨contents, -, hbytes⟩ := exists_contents htokens
  exact ⟨contents.flatten, hbytes⟩

/-- Tokens and composites that follow each other are a way for leaves to lie along the input. -/
def order (input : Bytes) : Trail .orderly input where
  covers start leaves stop := InOrder start (leaves.filterMap Value.span?) stop
  nil pos := .none (Nat.le_refl pos)
  append hfront hback := by
    rw [List.filterMap_append]
    exact hfront.append hback
  token span _ := .single (Nat.le_refl _) (Nat.le_refl _)
  skip _ _ _ _ hle _ := .none hle
  replace hresult := by
    intro start stop hle hmatched
    rcases hresult with rfl | hnone
    · exact hmatched
    · rw [← Value.spans, hnone]
      exact .none hle
  extent _ _ h := by
    obtain ⟨span, hspan, hin, -⟩ := Value.exists_extent h
    exact ⟨span, hspan, hin⟩
  content {v span} hlength h := by
    obtain ⟨content, hcontent⟩ := Value.exists_bytes _ fun held hheld =>
      Nat.le_trans (h.within held hheld).2 hlength
    exact ⟨content, hcontent, .single (Nat.le_refl _) (Nat.le_refl _)⟩

/-- Where actions give back what was matched, or something without tokens, tokens stay in
order: the tokens and composites of a value lie within what was matched, none of them before
the end of another that stands before it. So a slice never fails for an inverted span: it is
the smallest span that holds them all, and the empty one at the start if there are none. -/
theorem token_leaves_stay_in_order {rules : List Rule}
    (hrules : ∀ rule ∈ rules, rule.body.Obeys .orderly) (depth : Nat) {e : Expr}
    (he : e.Obeys .orderly) {s : MatchState} (hs : s.cursor.pos ≤ s.cursor.input.length) :
    Ensures (e.eval (callRule rules depth)) s
      (fun v t => (∀ span ∈ v.spans, s.cursor.pos ≤ span.start ∧ span.stop ≤ t.cursor.pos) ∧
        v.spans.Pairwise (fun before after => before.stop ≤ after.start) ∧
        ∃ span, EStateM.run (e.slice.eval (callRule rules depth)) s = .ok (.token span) t ∧
          s.cursor.pos ≤ span.start ∧ span.stop ≤ t.cursor.pos ∧
          (v.spans = [] → span = Span.empty s.cursor.pos) ∧ (v.spans ≠ [] → span.Hull v.spans))
      (fun _ _ => True) Interrupt.SparesSpans := by
  have hkeeps := evaluation_keeps (order s.cursor.input) hrules depth (.inr ⟨e, he, rfl⟩)
  apply ((hkeeps s rfl hs).also (Ensures.run_eq _ s)).mono
  · rintro v t ⟨ht, hrun⟩
    have horder : InOrder s.cursor.pos v.spans t.cursor.pos := ht.covers
    obtain ⟨span, hextent, hin, hempty, hhull⟩ := Value.exists_extent horder
    obtain ⟨hstart, hstop⟩ := hin.within span List.mem_cons_self
    refine ⟨horder.within, horder.pairwise, span, ?_, hstart, hstop, hempty, hhull⟩
    rw [Expr.run_slice hrun, hextent]
  · exact fun _ _ _ => trivial

/-- What is discarded and what is replaced by a name leave no tokens; the token of the slice
begins behind them. -/
theorem token_leaves_stay_in_order_after_discard :
    let name : Action := ⟨"name", [], fun _ _ => .ok (.str "b")⟩
    let rules : List Rule :=
      [⟨"named", .plain, .expr (.action (.literal (.exact [0x62])) name)⟩]
    let e : Expr := .seq [.discard (.literal (.exact [0x61])), .rule ⟨"named", some 0⟩,
      .star (.literal (.exact [0x63]))]
    let s : MatchState := ⟨.start [0x61, 0x62, 0x63, 0x63, 0x64], .empty, #[]⟩
    (∀ rule ∈ rules, rule.body.Obeys .orderly) ∧ e.Obeys .orderly ∧
      s.cursor.pos ≤ s.cursor.input.length ∧
      ∃ v t span, EStateM.run (e.eval (callRule rules 1)) s = .ok v t ∧
        v.spans.map (fun held => (held.start, held.stop)) = [(2, 3), (3, 4)] ∧
        EStateM.run (e.slice.eval (callRule rules 1)) s = .ok (.token span) t ∧
        span.Hull v.spans := by
  intro name rules e s
  have hname : name.Obeys .orderly := fun _ _ => ⟨.str "b", rfl, .inr rfl⟩
  have hrules : ∀ rule ∈ rules, rule.body.Obeys .orderly := by
    refine List.forall_mem_singleton.mpr ⟨fun _ _ _ _ _ => trivial, fun body a ha => ?_⟩
    have heq : body = .literal (.exact [0x62]) ∧ a = name := by
      simpa [← Expr.mem_postorder_iff_occurs, Expr.postorder, Expr.inner] using ha
    exact heq.2 ▸ hname
  have he : e.Obeys .orderly := by
    refine ⟨fun _ _ _ _ _ => trivial, fun body a ha => ?_⟩
    simp [← Expr.mem_postorder_iff_occurs, Expr.postorder, Expr.inner, Expr.postorderAll, e] at ha
  have hs : s.cursor.pos ≤ s.cursor.input.length := by decide
  have hend : passes (e.eval (callRule rules 1)) s (fun v _ =>
      v.spans.map (fun held => (held.start, held.stop)) == [(2, 3), (3, 4)]) = true := by
    decide +kernel
  obtain ⟨v, t, hrun, hcheck⟩ := exists_of_passes hend
  have hspans := eq_of_beq hcheck
  obtain ⟨-, -, span, hslice, -, -, -, hhull⟩ :=
    (token_leaves_stay_in_order hrules 1 he hs).of_ok hrun
  refine ⟨hrules, he, hs, v, t, span, hrun, hspans, hslice, hhull ?_⟩
  intro hnil
  rw [hnil] at hspans
  cases hspans

end Peg
