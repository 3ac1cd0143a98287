import Mathlib
import SliceLineage.Proofs.Build.Acceptance
import SliceLineage.Proofs.Build.Shape

/-!
# Where the graph of a function ends

The walk leaves no loose ends. When it goes elsewhere, it joins the point that it leaves to another
one, unless a return leads there. So at every moment nothing leaves the targets of returns, the
current point, and the points that are reserved for arms which have not come there yet; at the end
of the walk nothing is reserved any more.

* `FlowGraph.IsEnd`: nothing leaves the point. `FlowGraph.ReturnsTo`: a return leads to it.
* `Cursor.Course.endsAt`: a course leaves no loose ends.
* `FlowGraph.Shaped`: the shape of a graph that is left at `last`, its edges and its ends.
* `FunctionDecl.exists_shaped_graph`: graphs of functions have it.
-/

namespace SliceLineage

namespace FlowGraph

variable {g g' : FlowGraph} {p : PointId}

/-- No edge leaves the point. -/
def IsEnd (g : FlowGraph) (p : PointId) : Prop := g.contains p ∧ g.successors p = []

/-- A return leads to the point. -/
def ReturnsTo (g : FlowGraph) (p : PointId) : Prop :=
  ∃ q values, (⟨p, .ret values⟩ : Transition) ∈ g.successors q

/-- The shape of a graph that was built up to `last`. Edges join points of the graph, never a point
to itself or to the root. Between two points there is at most one empty edge, and an edge with
another operation is the only one to its target. Nothing but returns and `last` ends the graph. -/
structure Shaped (g : FlowGraph) (last : PointId) : Prop where
  known : ∀ edge ∈ g.edges, g.contains edge.1 ∧ g.contains edge.2.target
  loopless : ∀ edge ∈ g.edges, edge.2.target ≠ edge.1
  rootless : ∀ edge ∈ g.edges, edge.2.target ≠ g.root
  noops : ∀ p q, g.edges.count (p, ⟨q, .noop⟩) ≤ 1
  single : ∀ edge ∈ g.edges, edge.2.op ≠ .noop →
    g.edges.countP (fun other => other.2.target = edge.2.target) = 1
  ops : ∀ edge ∈ g.edges, edge.2.op.isTransfer ∨ (∃ values, edge.2.op = .ret values) ∨
    edge.2.op = .noop
  ends : ∀ p, g.IsEnd p → g.ReturnsTo p ∨ p = last

theorem contains_iff : g.contains p ↔ p.index < g.pointCount := decide_eq_true_iff

theorem ReturnsTo.grow (hg : g.Grows g') (h : g.ReturnsTo p) : g'.ReturnsTo p := by
  obtain ⟨q, values, hret⟩ := h
  exact ⟨q, values, (hg.edges q).subset hret⟩

/-- An end was an end before, if it was there. -/
theorem IsEnd.of_grows (hg : g.Grows g') (h : g'.IsEnd p) (hp : p.index < g.pointCount) :
    g.IsEnd p :=
  ⟨contains_iff.mpr hp, List.prefix_nil.mp (h.2 ▸ hg.edges p)⟩

theorem IsEnd.of_allocate {span : Option Span} (h : (g.allocate span).2.IsEnd p) :
    p = ⟨g.pointCount⟩ ∨ g.IsEnd p := by
  have hlt := contains_iff.mp h.1
  rw [pointCount_allocate] at hlt
  rcases Nat.lt_succ_iff_lt_or_eq.mp hlt with hold | hnew
  · exact Or.inr (h.of_grows (grows_allocate g span) hold)
  · exact Or.inl (congrArg PointId.mk hnew)

/-- If the edges that leave a point are not repeated, no edge is. -/
theorem nodup_edges (h : ∀ p, (g.successors p).Nodup) : g.edges.Nodup := by
  refine List.nodup_flatMap.mpr ⟨fun entry hentry => ?_, ?_⟩
  · have hsucc : g.successors entry.1 = entry.2 := by
      rw [successors, Std.TreeMap.getD_eq_getD_getElem?,
        Std.TreeMap.mem_toList_iff_getElem?_eq_some.mp hentry]
      rfl
    exact (hsucc ▸ h entry.1).map fun t u htu => (Prod.mk.inj htu).2
  · refine Std.TreeMap.distinct_keys_toList.imp fun {a b} hne => ?_
    rw [Function.onFun, List.disjoint_left]
    intro edge ha hb
    obtain ⟨t, -, rfl⟩ := List.mem_map.mp ha
    obtain ⟨u, -, hu⟩ := List.mem_map.mp hb
    exact hne (Std.LawfulEqCmp.compare_eq_iff_eq.mpr (Prod.mk.inj hu).1.symm)

end FlowGraph

namespace Cursor

variable {pending : PointId → Prop} {c c' : Cursor} {p : PointId}

/-- The graph ends at returns, where the cursor stands, and at the points that are `pending`. -/
def EndsAt (pending : PointId → Prop) (c : Cursor) : Prop :=
  ∀ p, c.graph.IsEnd p → c.graph.ReturnsTo p ∨ p = c.current ∨ pending p

/-- Once the current point is joined to another one, the cursor may go anywhere. -/
theorem EndsAt.join {q : PointId} (h : c.EndsAt pending) (hjoin : c.join q = (.ok (), c'))
    (hp : c'.graph.IsEnd p) : c'.graph.ReturnsTo p ∨ pending p := by
  have hgrows := grows_join hjoin
  have hold : c.graph.IsEnd p :=
    hp.of_grows hgrows (pointCount_join hjoin ▸ FlowGraph.contains_iff.mp hp.1)
  rcases h p hold with hret | rfl | hpending
  · exact Or.inl (hret.grow hgrows)
  · have hmem := mem_successors_join hjoin
    rw [hp.2] at hmem
    cases hmem
  · exact Or.inr hpending

theorem EndsAt.append (h : c.EndsAt pending) (op : Operation) (span : Option Span) :
    (c.append op span).EndsAt pending := by
  intro p hp
  have hlt := FlowGraph.contains_iff.mp hp.1
  rw [pointCount_append] at hlt
  rcases Nat.lt_succ_iff_lt_or_eq.mp hlt with hold | hnew
  · rcases h p (hp.of_grows (grows_append c op span) hold) with hret | rfl | hpending
    · exact Or.inl (hret.grow (grows_append c op span))
    · have hmem := mem_successors_append c op span
      rw [hp.2] at hmem
      cases hmem
    · exact Or.inr (Or.inr hpending)
  · exact Or.inr (Or.inl (congrArg PointId.mk hnew))

theorem EndsAt.ret (h : c.EndsAt pending) (values : List ValueId) (span : Option Span) :
    (c.append (.ret values) span).detach.EndsAt pending := by
  intro p hp
  have hgrows := (c.append (.ret values) span).graph.grows_allocate none
  have hp : ((c.append (.ret values) span).graph.allocate none).2.IsEnd p := hp
  rcases hp.of_allocate with hnew | hold
  · exact Or.inr (Or.inl hnew)
  · rcases h.append (.ret values) span p hold with hret | rfl | hpending
    · exact Or.inl (hret.grow hgrows)
    · exact Or.inl ⟨c.current, values,
        (hgrows.edges _).subset (mem_successors_append c (.ret values) span)⟩
    · exact Or.inr (Or.inr hpending)

/-- At the end of a round, the point where its loop is left may be open. -/
theorem EndsAt.closes {anchor : PointId} {c₁ : Cursor} (h₁ : c₁.EndsAt pending)
    (hanchor : anchor.index < c₁.graph.pointCount) (hgrows : c₁.graph.Grows c.graph)
    (h : c.EndsAt pending) (hclose : Closes anchor c c') : (c'.moveTo c₁.current).EndsAt pending := by
  intro p hp
  have hp : c'.graph.IsEnd p := hp
  rcases hclose with ⟨hat, rfl⟩ | ⟨-, hjoin⟩
  · rcases h p hp with hret | rfl | hpending
    · exact Or.inl hret
    · -- the round ends at the anchor, which the head of the loop has left or not
      have hold := hp.of_grows hgrows (hat ▸ hanchor)
      exact (h₁ _ hold).imp_left fun hret => hret.grow hgrows
    · exact Or.inr (Or.inr hpending)
  · exact (h.join hjoin hp).imp_right Or.inr

/-- **A course leaves no loose ends.** Only its hub waits for the arms that are still to come. -/
theorem Course.endsAt {loops : Prop} {hub : Option PointId} (h : Course loops hub c c')
    (hhub : ∀ after ∈ hub, pending after) (hc : c.EndsAt pending) : c'.EndsAt pending := by
  induction h generalizing pending with
  | stay c => exact hc
  | trans _ _ ih ih' => exact ih' hhub (ih hhub hc)
  | append c hop span => exact hc.append _ span
  | ret c values span => exact hc.ret values span
  | arm _ hjoin ih =>
      intro p hp
      exact ((ih (by simp) hc).join hjoin hp).imp_right Or.inr
  | @branch _ c _ _ span _ hjoin ih =>
      intro p hp
      have hreserve : (c.reserve span).2.EndsAt fun p => pending p ∨ p = (c.reserve span).1 := by
        intro p hp
        rcases FlowGraph.IsEnd.of_allocate hp with hnew | hold
        · exact Or.inr (Or.inr (Or.inr hnew))
        · exact (hc p hold).imp (·.grow (c.graph.grows_allocate span)) (·.imp_right Or.inl)
      have harms := ih (fun after ha => Or.inr (Option.mem_some.mp ha).symm) hreserve
      rcases harms.join hjoin hp with hret | hpending | hat
      · exact Or.inl hret
      · exact Or.inr (Or.inr hpending)
      · exact Or.inr (Or.inl (hat.trans (join_cases hjoin).1.symm))
  | @loop _ c _ _ _ _ span hhead hround hclose ihhead ihround =>
      have hends := ihhead (by simp) (hc.append .noop span)
      have hanchor : c.graph.pointCount < (c.append .noop span).graph.pointCount := by
        rw [pointCount_append]
        exact Nat.lt_succ_self _
      exact hends.closes (Nat.lt_of_lt_of_le hanchor hhead.grows.points) hround.grows
        (ihround (by simp) hends) hclose

theorem endsAt_start (span : Option Span) : (start span).EndsAt fun _ => False := by
  intro p hp
  have hone : (start span).graph.pointCount = 1 := by cases span <;> rfl
  have hlt := FlowGraph.contains_iff.mp hp.1
  rw [hone, Nat.lt_one_iff] at hlt
  have hroot : (start span).current = ⟨0⟩ := by cases span <;> rfl
  exact Or.inr (Or.inl ((congrArg PointId.mk hlt).trans hroot.symm))

end Cursor

namespace FunctionDecl

variable {registry : Registry} {f : FunctionDecl} {g : FlowGraph}

/-- The graph of a function has the shape of what is built up to the last point of the walk. -/
theorem shaped_of_course {loops : Prop} {c : Cursor} (h : f.graph registry = .ok c.graph)
    (hcourse : Cursor.Course loops none (.start (some f.span)) c) : c.graph.Shaped c.current := by
  have hbounded := hcourse.bounded (by simp) (Cursor.bounded_start _)
  have hwired := wired_graph h
  have hnodup := FlowGraph.nodup_edges hwired.nodup
  constructor
  case known =>
    intro edge hedge
    have ht := FlowGraph.mem_edges.mp hedge
    exact ⟨FlowGraph.contains_iff.mpr (hbounded.sources _ _ ht),
      FlowGraph.contains_iff.mpr (hbounded.targets _ _ ht)⟩
  case loopless => exact fun edge hedge => hwired.loopless _ _ (FlowGraph.mem_edges.mp hedge)
  case rootless => exact fun edge hedge => hwired.rootless _ _ (FlowGraph.mem_edges.mp hedge)
  case noops => exact fun p q => List.nodup_iff_count_le_one.mp hnodup _
  case single =>
    intro edge hedge hop
    have hsame : ∀ other ∈ c.graph.edges,
        decide (other.2.target = edge.2.target) = true ↔ (other == edge) = true := by
      intro other hother
      rw [decide_eq_true_iff, beq_iff_eq]
      constructor
      · intro htarget
        obtain ⟨hsource, htransition⟩ := hwired.single _ _ (FlowGraph.mem_edges.mp hedge) hop _ _
          (FlowGraph.mem_edges.mp hother) htarget
        exact Prod.ext hsource htransition
      · rintro rfl
        rfl
    rw [List.countP_congr hsame]
    exact List.count_eq_one_of_mem hnodup hedge
  case ops =>
    intro edge hedge
    have hops : c.graph.AllOps fun op =>
        op.isTransfer ∨ (∃ values, op = .ret values) ∨ op = .noop :=
      hcourse.allOps (fun _ => Or.inl) (fun values => Or.inr (Or.inl ⟨values, rfl⟩))
        (Or.inr (Or.inr rfl)) (Cursor.allOps_start _ _)
    exact hops _ _ (FlowGraph.mem_edges.mp hedge)
  case ends =>
    intro p hp
    have hends := hcourse.endsAt (by simp) (Cursor.endsAt_start _)
    exact (hends p hp).imp_right fun hor => hor.resolve_right id

/-- **The shape of the graph of a function.** The graph is left at the point where the walk over
the body ends. So at most one point ends the function besides those behind returns. -/
theorem exists_shaped_graph (h : f.graph registry = .ok g) :
    (∃ s : BuildState,
      (Build.blockBody (f.context registry) f.body).run f.startState = .ok ((), s) ∧
        s.cursor.graph = g ∧ g.Shaped s.cursor.current) ∧
    ∀ p q, g.IsEnd p → g.IsEnd q → ¬ g.ReturnsTo p → ¬ g.ReturnsTo q → p = q := by
  obtain ⟨s, hrun, rfl, hcourse⟩ := f.exists_course True h fun _ => trivial
  have hshaped := shaped_of_course h hcourse
  refine ⟨⟨s, hrun, rfl, hshaped⟩, fun p q hp hq hnp hnq => ?_⟩
  have hlast : p = s.cursor.current := (hshaped.ends p hp).resolve_left hnp
  exact hlast.trans ((hshaped.ends q hq).resolve_left hnq).symm

/-- A loop whose body may return in the middle of a block. -/
def earlyReturn : FunctionDecl :=
  let x : Expr := .ident "x" default
  let grow : Stmt := .assign [x] [.callNamed "append" [x] default] default
  ⟨"first", ["x"], [none], ⟨[.forLoop none none none
    ⟨[.ifElse none x ⟨[.ret [x] default, grow], default⟩ none default, grow], default⟩ default,
    grow], default⟩, default⟩

/-- Of the twelve points of this graph two are ends: the one behind the return, and the last. -/
theorem earlyReturn_shaped :
    ∃ g s, earlyReturn.graph .builtin = .ok g ∧ g.pointCount = 12 ∧
      (∀ p, g.IsEnd p ↔ p = ⟨4⟩ ∨ p = ⟨11⟩) ∧
      (Build.blockBody (earlyReturn.context .builtin) earlyReturn.body).run
        earlyReturn.startState = .ok ((), s) ∧
      s.cursor.graph = g ∧ g.Shaped s.cursor.current := by
  have hends : (do
      let g ← earlyReturn.graph .builtin
      return (g.pointCount, (List.range 12).filter fun i => (g.successors ⟨i⟩).isEmpty)) =
        .ok (12, [4, 11]) := by
    cbv
  cases hg : earlyReturn.graph .builtin with
  | error e =>
      rw [hg] at hends
      cases hends
  | ok g =>
      obtain ⟨⟨s, hrun, hgraph, hshaped⟩, -⟩ := exists_shaped_graph hg
      simp only [hg, bind, Except.bind, pure, Except.pure, Except.ok.injEq,
        Prod.mk.injEq] at hends
      refine ⟨g, s, rfl, hends.1, fun p => ?_, hrun, hgraph, hshaped⟩
      obtain ⟨i⟩ := p
      have hmem : i ∈ (List.range 12).filter (fun i => (g.successors ⟨i⟩).isEmpty) ↔
          i ∈ [4, 11] := by rw [hends.2]
      simpa [FlowGraph.IsEnd, FlowGraph.contains_iff, hends.1] using hmem

end FunctionDecl

end SliceLineage
