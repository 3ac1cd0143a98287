import SliceLineage.Proofs.Build.Returns
import SliceLineage.Proofs.Lowering.Refinement

/-!
# Traces end with their return

Nothing leaves a point behind a return, in the graph of a function as in its primitive graph. So a
trace through either of them returns at most once, and then it is at its end.

* `Trace.ReturnsLast`: a return can only be the last step.
* `FlowGraph.Spun.successors_of_returnsTo`: lowering keeps returns where nothing follows.
* `returns_come_last`: the result for functions, with the unreachable points of all dead code.
-/

namespace SliceLineage

/-- A return in the trace is its last step. -/
def Trace.ReturnsLast (trace : Trace) : Prop :=
  ∀ before t after, trace = before ++ t :: after → (∃ values, t.op = .ret values) → after = []

namespace FlowGraph

variable {g : FlowGraph} {limit : Nat} {p q : PointId} {trace : Trace}

/-- Where nothing leaves a point behind a return, a path ends with its first return. -/
theorem IsPath.returnsLast (hg : ∀ p, g.ReturnsTo p → g.successors p = [])
    (h : g.IsPath p trace q) : trace.ReturnsLast := by
  rintro before ⟨target, op⟩ after rfl ⟨values, rfl⟩
  obtain ⟨o, -, ht, hafter⟩ := h.exists_of_append
  cases after with
  | nil => rfl
  | cons u after =>
      have hu : u ∈ g.successors target := hafter.1
      rw [hg target ⟨o, values, ht⟩] at hu
      cases hu

end FlowGraph

/-- Only a return is lowered to one. -/
theorem LeafRules.exists_ret_of_mem_chain {r : LeafRules} {t : CellTable} {op : Operation}
    {outcome : List BoundAssignment} {cells : List ValueId}
    (h : .ret cells ∈ r.chain t op outcome) : ∃ values, op = .ret values := by
  rcases mem_chain_cases h with ⟨_, -, _, -, hmove⟩ | ⟨values, _, hop, -⟩
  · cases hmove
  · exact ⟨values, hop⟩

namespace FlowGraph

variable {registry : Registry} {depth : Nat} {rich : FlowGraph} {s : Lowering.Progress}
  {drawn : List Strand} {p : PointId}

/-- The strand of a return is a single return. -/
theorem Spun.rest_eq_nil_of_ret (h : Spun registry depth rich s drawn) (hg : rich.Wired)
    {st : Strand} (hst : st ∈ drawn) {values : List ValueId} (hop : st.edge.op = .ret values) :
    st.rest = [] := by
  obtain ⟨outcome, ho, hops⟩ := h.exists_outcome hg hst
  rw [hop] at ho hops
  rw [List.mem_singleton.mp ho] at hops
  have hlength : st.ops.length = 1 := by
    rw [hops]
    rfl
  simpa [Strand.ops, Strand.trace] using hlength

/-- **Lowering adds nothing behind a return.** -/
theorem Spun.successors_of_returnsTo (h : Spun registry depth rich s drawn) (hg : rich.Wired)
    (hends : ∀ p, rich.ReturnsTo p → rich.successors p = [])
    (hp : s.cursor.graph.ReturnsTo p) : s.cursor.graph.successors p = [] := by
  obtain ⟨q, cells, hu⟩ := hp
  obtain ⟨st, hst, hmem⟩ := h.woven.traced q _ hu
  -- the strand is that of a return
  have hop : ∃ values, st.edge.op = .ret values := by
    obtain ⟨outcome, -, hops⟩ := h.exists_outcome hg hst
    have hcells : .ret cells ∈ st.ops := List.mem_map_of_mem hmem
    rw [hops, ← padded_false] at hcells
    rcases mem_padded hcells with hchain | hnoop
    · exact LeafRules.exists_ret_of_mem_chain hchain
    · cases hnoop
  obtain ⟨values, hop⟩ := hop
  have hrest := h.rest_eq_nil_of_ret hg hst hop
  -- so it ends at the image of a point behind a return
  obtain ⟨stop, hstop, hforced⟩ := (h.woven.holds st hst).forced
  have hfirst : ⟨p, .ret cells⟩ = st.first := by
    rw [Strand.trace, hrest] at hmem
    exact List.mem_singleton.mp hmem
  have hat : p = stop := by
    rw [hrest] at hforced
    exact (congrArg Transition.target hfirst).trans hforced
  rw [hat, h.woven.heads _ stop hstop, List.map_eq_nil_iff, List.filter_eq_nil_iff]
  intro other hother hsource
  have hedge := (h.mem_successors hother).2
  have hret : rich.ReturnsTo st.edge.target := by
    refine ⟨st.source, values, ?_⟩
    rw [← hop]
    exact (h.mem_successors hst).2
  rw [of_decide_eq_true hsource, hends _ hret] at hedge
  cases hedge

end FlowGraph

/-- **Nothing follows a return.** Nothing leaves a point behind a return. At every position of the
body where a return stands in a statement list, the points that the rest of the list makes cannot be
reached, nor the one where the walk goes on. A return in a trace, of the rich or of the primitive
graph, is its last step. And if the body itself goes on after a return, what can be reached is the
same as without the rest. -/
theorem returns_come_last {registry : Registry} {f : FunctionDecl} {g : FlowGraph}
    (h : f.graph registry = .ok g) :
    (∀ p, g.ReturnsTo p → g.successors p = []) ∧
    (∀ enter results span post,
      Build.Leads (f.context registry) f.body.stmts enter (.ret results span :: post) →
      ∃ s s₁ s₂, enter.run f.bodyState = .ok ((), s) ∧
        (Build.statement (f.context registry) (.ret results span)).run s =
          .ok ((), s₁) ∧
        (Build.statements (f.context registry) post).run s₁ = .ok ((), s₂) ∧
        ¬ g.Reaches s₁.cursor.current ∧
        ∀ p : PointId, s₁.cursor.graph.pointCount ≤ p.index →
          p.index < s₂.cursor.graph.pointCount → ¬ g.Reaches p) ∧
    (∀ limit budget, ∀ trace ∈ g.traces limit budget, trace.ReturnsLast) ∧
    (∀ depth, ∃ l, g.lower registry depth = .ok l ∧
      ∀ limit budget, ∀ trace ∈ l.graph.traces limit budget, trace.ReturnsLast) ∧
    ∀ pre results span post, f.body.stmts = pre ++ .ret results span :: post →
      ∃ g₀, (f.withBody (pre ++ [.ret results span])).graph registry = .ok g₀ ∧
        g.root = g₀.root ∧ g.reachable = g₀.reachable ∧
        ∀ p ∈ g₀.reachable, g.successors p = g₀.successors p ∧
          g.reference? p = g₀.reference? p := by
  have hends : ∀ p, g.ReturnsTo p → g.successors p = [] :=
    fun p hp => FunctionDecl.successors_of_returnsTo h hp
  refine ⟨hends, fun enter results span post hleads => ?_, fun limit budget trace ht => ?_,
    fun depth => ?_, fun pre results span post hbody => ?_⟩
  · exact FunctionDecl.exists_unreachable_of_leads h hleads
  · exact (FlowGraph.isPath_of_mem_traces ht).returnsLast hends
  · obtain ⟨l, hl, -⟩ := FlowGraph.exists_lower registry depth (FunctionDecl.allOps_graph h)
    obtain ⟨s, drawn, hspun, rfl⟩ := FlowGraph.exists_spun hl
    refine ⟨_, hl, fun limit budget trace ht => ?_⟩
    exact (FlowGraph.isPath_of_mem_traces ht).returnsLast fun p hp =>
      hspun.successors_of_returnsTo (FunctionDecl.wired_graph h) hends hp
  · rw [← f.withBody_stmts, hbody] at h
    obtain ⟨g₀, hg₀, hlive⟩ := FunctionDecl.exists_graph_of_returns h
    refine ⟨g₀, hg₀, hlive.grows.root, hlive.reachable_eq, fun p hp => ?_⟩
    have hreaches := FlowGraph.mem_reachable_iff.mp hp
    exact ⟨hlive.edges p hreaches, hlive.spans p hreaches⟩

open FunctionDecl in
/-- The walk comes to the return in the loop, and the statement after it makes two points. One of
the three traces that enter no point twice returns. -/
theorem earlyReturn_returns_last :
    ∃ g enter post s s₁ s₂, earlyReturn.graph .builtin = .ok g ∧
      Build.Leads (earlyReturn.context .builtin) earlyReturn.body.stmts enter
        (.ret [.ident "x" default] default :: post) ∧
      enter.run earlyReturn.bodyState = .ok ((), s) ∧
      (Build.statement (earlyReturn.context .builtin) (.ret [.ident "x" default] default)).run s =
        .ok ((), s₁) ∧
      (Build.statements (earlyReturn.context .builtin) post).run s₁ = .ok ((), s₂) ∧
      s₁.cursor.graph.pointCount = 6 ∧ s₂.cursor.graph.pointCount = 8 ∧
      (∀ p : PointId, 6 ≤ p.index → p.index < 8 → ¬ g.Reaches p) ∧
      (g.traces 1 none).length = 3 ∧ ∀ trace ∈ g.traces 1 none, trace.ReturnsLast := by
  obtain ⟨enter, post, hleads, hfirst, hlast⟩ : ∃ enter post,
      Build.Leads (earlyReturn.context .builtin) earlyReturn.body.stmts enter
        (.ret [.ident "x" default] default :: post) ∧
      ((do
        enter
        Build.statement (earlyReturn.context .builtin) (.ret [.ident "x" default] default) :
          Build Unit).run earlyReturn.bodyState).map (·.2.cursor.graph.pointCount) = .ok 6 ∧
      ((do
        enter
        Build.statement (earlyReturn.context .builtin) (.ret [.ident "x" default] default)
        Build.statements (earlyReturn.context .builtin) post :
          Build Unit).run earlyReturn.bodyState).map (·.2.cursor.graph.pointCount) = .ok 8 := by
    refine ⟨_, _, .inside _ .forBody (.inside _ (.arms .thenBlock) (.here _)), ?_, ?_⟩ <;> cbv
  have htraces : (do
      let g ← earlyReturn.graph .builtin
      return (g.traces 1 none).length) = .ok 3 := by
    cbv
  cases hg : earlyReturn.graph .builtin with
  | error e =>
      rw [hg] at htraces
      cases htraces
  | ok g =>
      rw [hg] at htraces
      obtain ⟨-, hdead, hends, -⟩ := returns_come_last hg
      obtain ⟨s, s₁, s₂, henter, hret, hpost, -, hnone⟩ := hdead _ _ _ _ hleads
      rw [run_bind_of_ok henter, hret] at hfirst
      rw [run_bind_of_ok henter, run_bind_of_ok hret, hpost] at hlast
      have hsix : s₁.cursor.graph.pointCount = 6 := Except.ok.inj hfirst
      have height : s₂.cursor.graph.pointCount = 8 := Except.ok.inj hlast
      rw [hsix, height] at hnone
      exact ⟨g, enter, post, s, s₁, s₂, rfl, hleads, henter, hret, hpost, hsix, height, hnone,
        Except.ok.inj htraces, hends 1 none⟩

end SliceLineage
