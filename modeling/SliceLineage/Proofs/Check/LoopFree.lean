import SliceLineage.Proofs.Build.Ends
import SliceLineage.Proofs.Check.Limits
import SliceLineage.Proofs.Lowering.Acyclic

/-!
# Functions without loops are analysed completely

Without loops, the walk over a function only ever adds edges to points that nothing leaves: new ones,
and the points where arms meet, which the walk leaves alone until all arms have come there. So the
graph is acyclic, its primitive graph is too, and how often a trace may enter a point makes no
difference.

* `Cursor.Course.acyclic`: a course without loops keeps the graph acyclic.
* `FlowGraph.Acyclic.continuations_eq`: on an acyclic graph all limits leave the same traces.
* `loopFree_check_independent_of_limit`: the result for functions.
-/

namespace SliceLineage

namespace Cursor

variable {hub : Option PointId} {c c' : Cursor}

/-- The arms of a branching statement have not come to the point yet, or only by edges to it. -/
structure Awaits (c : Cursor) (after : PointId) : Prop where
  apart : c.Apart after
  unused : c.graph.successors after = []

theorem Awaits.extends {after : PointId} (h : c.Awaits after) (hc : c.Extends c') :
    c'.Awaits after where
  apart := h.apart.extends hc
  unused := (hc.frame.edges after h.apart.known h.apart.ne).trans h.unused

theorem acyclic_append (hb : c.Bounded) (hc : c.graph.Acyclic) (op : Operation)
    (span : Option Span) : (c.append op span).graph.Acyclic := by
  refine hc.add (hb.successors_new (Nat.le_refl _)) ?_ (successors_append c op span)
  intro he
  have hlt : c.current.index < c.graph.pointCount := hb.inside
  rw [← he] at hlt
  exact Nat.lt_irrefl _ hlt

theorem Awaits.acyclic_join {after : PointId} (h : c.Awaits after) (hc : c.graph.Acyclic)
    (hjoin : c.join after = (.ok (), c')) : c'.graph.Acyclic := by
  obtain ⟨-, ⟨hgraph, -⟩ | ⟨hgraph, hne, -⟩⟩ := join_cases hjoin
  · rw [hgraph]
    exact hc
  · rw [hgraph]
    exact hc.add h.unused hne (FlowGraph.successors_insert _ _ _ · _)

/-- **A course without loops keeps the graph acyclic.** -/
theorem Course.acyclic (h : Course False hub c c') (hb : c.Bounded)
    (hhub : ∀ after ∈ hub, c.Awaits after) (hc : c.graph.Acyclic) : c'.graph.Acyclic := by
  induction h with
  | stay c => exact hc
  | trans h _ ih ih' =>
      have hextends := h.extends hb.inside fun after ha => (hhub after ha).apart
      refine ih' (h.bounded (fun after ha => (hhub after ha).apart.known) hb)
        (fun after ha => (hhub after ha).extends hextends) (ih hb hhub hc)
  | append c hop span => exact acyclic_append hb hc _ span
  | ret c values span =>
      exact (acyclic_append hb hc (.ret values) span).congr (FlowGraph.successors_allocate _ none)
  | arm h hjoin ih =>
      have hawaits := (hhub _ rfl).extends (h.extends hb.inside (by simp))
      have hjoined := hawaits.acyclic_join (ih hb (by simp) hc) hjoin
      exact hjoined
  | @branch _ c _ _ span h hjoin ih =>
      have hawaits : (c.reserve span).2.Awaits (c.reserve span).1 := by
        refine ⟨apart_reserve hb.inside span, ?_⟩
        exact (FlowGraph.successors_allocate _ _ _).trans (hb.successors_new (Nat.le_refl _))
      have harms := ih (hb.reserve span) (fun after ha => Option.mem_some.mp ha ▸ hawaits)
        (hc.congr (FlowGraph.successors_allocate _ span))
      have hextends := h.extends hawaits.apart.inside fun after ha =>
        Option.mem_some.mp ha ▸ hawaits.apart
      exact (hawaits.extends hextends).acyclic_join harms hjoin
  | loop hloops => exact hloops.elim

end Cursor

/-- **The graph of a function without loops is acyclic.** -/
theorem FunctionDecl.acyclic_graph {registry : Registry} {f : FunctionDecl} {g : FlowGraph}
    (h : f.graph registry = .ok g) (hfree : f.loopFree = true) : g.Acyclic := by
  obtain ⟨s, -, rfl, hcourse⟩ := f.exists_course False h fun hloop => by
    rw [hfree] at hloop
    cases hloop
  refine hcourse.acyclic (Cursor.bounded_start _) (by simp) fun p trace hpath => ?_
  cases trace with
  | nil => rfl
  | cons t rest =>
      have ht := hpath.1
      rw [Cursor.successors_start] at ht
      cases ht

namespace FlowGraph

variable {g : FlowGraph} {limit limit' : Nat}

/-- A limit that is not zero admits every edge. -/
theorem Acyclic.admitted_eq (hg : g.Acyclic) (hlimit : 1 ≤ limit) {path : Trace} {p : PointId}
    (hpath : g.IsPath g.root path.reverse p) : g.admitted limit path p = g.successors p := by
  refine List.filter_eq_self.mpr fun t ht => decide_eq_true ?_
  have hzero := hg.entries_eq_zero hpath ht
  rw [Trace.entries_reverse] at hzero
  omega

/-- **On an acyclic graph all limits leave the same traces.** -/
theorem Acyclic.continuations_eq (hg : g.Acyclic) (hlimit : 1 ≤ limit) (hlimit' : 1 ≤ limit')
    (path : Trace) (p : PointId) (hpath : g.IsPath g.root path.reverse p) :
    g.continuations limit path p = g.continuations limit' path p := by
  rw [FlowGraph.continuations_eq, FlowGraph.continuations_eq, hg.admitted_eq hlimit hpath,
    hg.admitted_eq hlimit' hpath]
  have hrest : ∀ t ∈ g.successors p, g.continuations limit (t :: path) t.target =
      g.continuations limit' (t :: path) t.target := by
    intro t ht
    refine continuations_eq hg hlimit hlimit' (t :: path) t.target ?_
    rw [List.reverse_cons]
    exact hpath.append ⟨ht, rfl⟩
  split
  · rfl
  · exact List.flatMap_congr fun t ht => by rw [hrest t ht]
termination_by path.room limit g.entryPoints
decreasing_by
  exact room_lt_of_mem_admitted (hg.admitted_eq hlimit hpath ▸ ht)

theorem Acyclic.allTraces_eq (hg : g.Acyclic) (hlimit : 1 ≤ limit) (hlimit' : 1 ≤ limit') :
    g.allTraces limit = g.allTraces limit' :=
  hg.continuations_eq hlimit hlimit' [] g.root rfl

end FlowGraph

/-- **Functions without loops are analysed completely.** The graph of such a function and its
primitive graph are acyclic. A trace through one of them visits no point twice. And how often a
trace may enter a point, unless it is never, has no influence on the report. -/
theorem loopFree_check_independent_of_limit {registry : Registry} {f : FunctionDecl}
    {g : FlowGraph} (h : f.graph registry = .ok g) (hfree : f.loopFree = true) :
    g.Acyclic ∧
    (∀ limit budget, ∀ trace ∈ g.traces limit budget,
      (g.root :: trace.map Transition.target).Nodup) ∧
    (∀ depth, ∃ l, g.lower registry depth = .ok l ∧ l.graph.Acyclic ∧
      ∀ limit budget, ∀ trace ∈ l.graph.traces limit budget,
        (l.graph.root :: trace.map Transition.target).Nodup) ∧
    ∀ (settings : Settings) (limit limit' : UInt32), 1 ≤ limit → 1 ≤ limit' →
      ∃ report,
        g.check registry { settings with
          trace := { settings.trace with repeatLimit := limit } } = .ok report ∧
        g.check registry { settings with
          trace := { settings.trace with repeatLimit := limit' } } = .ok report := by
  have hacyclic := FunctionDecl.acyclic_graph h hfree
  have hlowered : ∀ depth, ∃ l, g.lower registry depth = .ok l ∧ l.graph.Acyclic := by
    intro depth
    obtain ⟨l, hl, -⟩ := FlowGraph.exists_lower registry depth (FunctionDecl.allOps_graph h)
    obtain ⟨s, drawn, hspun, rfl⟩ := FlowGraph.exists_spun hl
    exact ⟨_, hl, hspun.acyclic hacyclic⟩
  refine ⟨hacyclic, fun limit budget trace ht => ?_, fun depth => ?_,
    fun settings limit limit' hlimit hlimit' => ?_⟩
  · exact hacyclic.nodup (FlowGraph.isPath_of_mem_traces ht)
  · obtain ⟨l, hl, hgraph⟩ := hlowered depth
    exact ⟨l, hl, hgraph, fun limit budget trace ht =>
      hgraph.nodup (FlowGraph.isPath_of_mem_traces ht)⟩
  · obtain ⟨l, hl, hgraph⟩ := hlowered settings.paths.maxPathDepth.toNat
    have hall : l.graph.allTraces limit.toNat = l.graph.allTraces limit'.toNat :=
      hgraph.allTraces_eq hlimit hlimit'
    have hreport : l.report g { settings.trace with repeatLimit := limit } =
        l.report g { settings.trace with repeatLimit := limit' } := by
      simp only [Lowering.report, Lowering.visited, FlowGraph.traces_eq, hall]
    refine ⟨l.report g { settings.trace with repeatLimit := limit }, ?_, ?_⟩
    · exact FlowGraph.check_eq_report hl
    · rw [hreport]
      exact FlowGraph.check_eq_report hl

/-- A value is grown in one arm of an if statement, while the other one may return, and once more
after it. -/
def FunctionDecl.grownInArm : FunctionDecl :=
  let x : Expr := .ident "x" default
  let grow : String → Stmt := fun name => .define [name] [.callNamed "append" [x] default] default
  let leave : Stmt := .switch none none [⟨[x], [.ret [] default], default⟩] default
  ⟨"arm", ["x"], [], ⟨[.ifElse none x ⟨[grow "y"], default⟩
    (some (.block ⟨[leave], default⟩ default)) default, grow "z"], default⟩, default⟩

/-- The second growth is reported, for the one trace of three that leads along both, under a limit of
one as well as of seven. -/
theorem grownInArm_check_independent_of_limit : FunctionDecl.grownInArm.loopFree = true ∧
    ∃ g report, FunctionDecl.grownInArm.graph .builtin = .ok g ∧
      g.check .builtin { (default : Settings) with
        trace := { (default : Settings).trace with repeatLimit := 1 } } = .ok report ∧
      g.check .builtin { (default : Settings) with
        trace := { (default : Settings).trace with repeatLimit := 7 } } = .ok report ∧
      report.warnings.length = 1 ∧ report.stats.traces = 3 := by
  have hfree : FunctionDecl.grownInArm.loopFree = true := by cbv
  have hcounts : (do
      let g ← FunctionDecl.grownInArm.graph .builtin
      let report ← g.check .builtin { (default : Settings) with
        trace := { (default : Settings).trace with repeatLimit := 1 } }
      return (report.warnings.length, report.stats.traces)) = .ok (1, 3) := by
    cbv
  cases hg : FunctionDecl.grownInArm.graph .builtin with
  | error e =>
      rw [hg] at hcounts
      cases hcounts
  | ok g =>
      obtain ⟨-, -, -, hsame⟩ := loopFree_check_independent_of_limit hg hfree
      obtain ⟨report, hone, hseven⟩ := hsame default 1 7 (by decide) (by decide)
      simp only [hg, hone, bind, Except.bind, pure, Except.pure, Except.ok.injEq,
        Prod.mk.injEq] at hcounts
      exact ⟨hfree, g, report, rfl, hone, hseven, hcounts⟩

end SliceLineage
