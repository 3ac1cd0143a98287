import Mathlib
import SliceLineage.Proofs.Build.Shape
import SliceLineage.Proofs.Lowering.Emission

/-!
# Calls without outputs

The assignments of a call are those to its outputs. A call that is asked for no output performs
none, in any outcome, and its chains are empty: lowering treats it as an empty edge.

* `FlowGraph.silence`: the graph with empty edges in the place of calls without outputs.
* `Registry.bindCall_nil`: such a call has outcomes without assignments.
* `Lowering.run_putChains_replicate`: several empty chains are as good as one.
* `FlowGraph.lower_silence`: lowering makes no difference between the two graphs.
-/

namespace SliceLineage

/-- A call without outputs becomes an empty operation. -/
def Operation.silence : Operation → Operation
  | .call _ _ [] => .noop
  | op => op

def Transition.silence (t : Transition) : Transition := ⟨t.target, t.op.silence⟩

/-- The graph with empty edges in the place of calls without outputs. -/
def FlowGraph.silence (g : FlowGraph) : FlowGraph :=
  { g with outgoing := g.outgoing.map fun _ ts => ts.map Transition.silence }

/-- Either the operation is a call without outputs, or it stays. -/
theorem Operation.silence_cases (op : Operation) :
    (∃ func inputs, op = .call func inputs [] ∧ op.silence = .noop) ∨ op.silence = op := by
  unfold silence
  split
  · exact Or.inl ⟨_, _, rfl, rfl⟩
  · exact Or.inr rfl

theorem Summary.bindOutcome_nil (s : Summary) (args : List Composition) (o : Outcome) :
    s.bindOutcome args [] o = [] := by
  rw [bindOutcome, List.zip_nil_right, List.flatMap_nil]

/-- A call without outputs has some number of outcomes, and assigns nothing in any of them. -/
theorem Registry.bindCall_nil {registry : Registry}
    (h : ∀ s ∈ registry.summaries, s.outcomes ≠ []) (func : FuncId) (inputs : List Composition) :
    ∃ k, registry.bindCall func inputs [] = List.replicate (k + 1) [] := by
  unfold bindCall
  cases hs : registry.get? func with
  | none => exact ⟨0, rfl⟩
  | some s =>
      obtain ⟨o, rest, houtcomes⟩ := List.exists_cons_of_ne_nil (h s (List.mem_of_getElem? hs))
      refine ⟨rest.length, ?_⟩
      have hall : s.bindOutcome inputs [] = fun _ => [] := funext (s.bindOutcome_nil inputs)
      show s.outcomes.map (s.bindOutcome inputs []) = _
      rw [hall, List.map_const', houtcomes, List.length_cons]

/-! ## Empty chains -/

namespace CellM

/-- Outcomes without assignments have empty chains. -/
theorem mapM_assignments_replicate (rules : LeafRules) (k : Nat) (t : CellTable) :
    ((List.replicate k []).mapM (assignments rules)).run t = .ok (List.replicate k [], t) := by
  induction k with
  | zero => rfl
  | succ k ih =>
      rw [List.replicate_succ, List.mapM_cons]
      have hfirst : (assignments rules []).run t = .ok ([], t) := rfl
      rw [run_bind_of_ok hfirst, run_bind_of_ok ih]
      rfl

end CellM

namespace Lowering

variable {registry : Registry} {rules : LeafRules} (rich : FlowGraph) {start stop : PointId}

/-- An empty chain between different points is an empty edge. -/
theorem run_putChain_nil (hne : start ≠ stop) (target : PointId) {s : Progress} {c : Cursor}
    (hc : (s.cursor.moveTo start).join stop = (.ok (), c)) :
    (do moveTo start; putChain rich target stop []).run s = .ok ((), { s with cursor := c }) := by
  have hmove : (moveTo start).run s = .ok ((), { s with cursor := s.cursor.moveTo start }) := rfl
  have hat : decide ((s.cursor.moveTo start).current = stop) = false :=
    decide_eq_false fun h => hne h
  rw [run_bind_of_ok hmove, putChain, run_atPoint_bind, hat]
  exact run_join (s := { s with cursor := s.cursor.moveTo start }) hc

/-- Where an empty edge was joined it is found again. -/
theorem join_again {c c' : Cursor} (h : (c.moveTo start).join stop = (.ok (), c')) :
    (c'.moveTo start).join stop = (.ok (), c') := by
  have hedge : ⟨stop, .noop⟩ ∈ c'.graph.successors start := Cursor.mem_successors_join h
  have hhas : (c'.moveTo start).graph.hasEdge (c'.moveTo start).current stop .noop = true :=
    List.contains_iff_mem.mpr hedge
  rw [Cursor.join, hhas, if_pos rfl]
  obtain rfl := (Cursor.join_cases h).1
  rfl

/-- **Several empty chains between different points are as good as one.** -/
theorem run_putChains_replicate (hne : start ≠ stop) (target : PointId) {c : Cursor} (k : Nat) :
    ∀ {s : Progress}, (s.cursor.moveTo start).join stop = (.ok (), c) →
      (putChains rich start stop target (List.replicate (k + 1) [])).run s =
        .ok ((), { s with cursor := c }) := by
  induction k with
  | zero =>
      intro s hc
      rw [List.replicate_one, putChains, ← bind_assoc,
        run_bind_of_ok (run_putChain_nil rich hne target hc)]
      rfl
  | succ k ih =>
      intro s hc
      rw [List.replicate_succ, putChains, ← bind_assoc,
        run_bind_of_ok (run_putChain_nil rich hne target hc)]
      exact ih (join_again hc)

/-- Of the rich graph, lowering its edges looks at the spans only. -/
theorem edges_congr {rich rich' : FlowGraph} (h : rich'.reference? = rich.reference?) :
    edges registry rules rich' = edges registry rules rich := by
  have himage : image rich' = image rich := by
    funext p
    simp only [image, h]
  have hchain : ∀ target stop chain, putChain rich' target stop chain =
      putChain rich target stop chain := by
    intro target stop chain
    induction chain with
    | nil => simp only [putChain, inner, h]
    | cons op ops ih =>
        cases ops with
        | nil => simp only [putChain, inner, h]
        | cons next ops => simp only [putChain, inner, h, ih]
  have hchains : ∀ start stop target chains, putChains rich' start stop target chains =
      putChains rich start stop target chains := by
    intro start stop target chains
    induction chains with
    | nil => rfl
    | cons chain chains ih => simp only [putChains, hchain, ih]
  funext es
  induction es with
  | nil => rfl
  | cons e es ih => simp only [edges, edge, himage, hchains, ih]

variable (hregistry : ∀ s ∈ registry.summaries, s.outcomes ≠ [])
include hregistry

/-- The chains of a call without outputs are empty. -/
theorem run_chains_silent (rules : LeafRules) (func : FuncId) (inputs : List Composition)
    (s : Progress) :
    ∃ k, (chains registry rules (.call func inputs [])).run s =
      .ok (List.replicate (k + 1) [], s) := by
  obtain ⟨k, hk⟩ := Registry.bindCall_nil hregistry func inputs
  refine ⟨k, ?_⟩
  have hcells : (CellM.chains registry rules (.call func inputs [])).run s.cells =
      .ok (List.replicate (k + 1) [], s.cells) := by
    rw [CellM.chains, hk]
    exact CellM.mapM_assignments_replicate rules (k + 1) s.cells
  show (((CellM.chains registry rules (.call func inputs [])).run s.cells >>= fun r =>
    Except.ok (r, s)) >>= fun r => Except.ok (r.1.1, { s with cells := r.1.2 })) = _
  rw [hcells]
  rfl

/-- **Lowering an edge makes no difference between a call without outputs and an empty edge.** -/
theorem run_edge_silence {p : PointId} {t : Transition} (hne : t.target ≠ p) {s : Progress}
    (hs : s.Sound rules) :
    (edge registry rules rich (p, t.silence)).run s = (edge registry rules rich (p, t)).run s := by
  obtain ⟨target, op⟩ := t
  rcases op.silence_cases with ⟨func, inputs, rfl, hop⟩ | hop
  · obtain ⟨first, s₁, hrun₁, hs₁, -, hfirst⟩ := image_spec rich hs p
    obtain ⟨last, s₂, hrun₂, hs₂, hgrows, hlast⟩ := image_spec rich hs₁ target
    -- Different points have different images.
    have himages : first ≠ last := by
      rintro rfl
      have hp := hs₂.images _ _ (hgrows.images _ _ hfirst)
      exact hne (Option.some.inj ((hs₂.images _ _ hlast).symm.trans hp))
    obtain ⟨c, hc⟩ := Cursor.exists_join (c := s₂.cursor.moveTo first) (q := last)
      fun h => himages h.symm
    obtain ⟨k, hchains⟩ := run_chains_silent hregistry rules func inputs s₂
    have hnoop : (chains registry rules .noop).run s₂ = .ok ([[]], s₂) := rfl
    rw [Transition.silence, hop, edge, edge, run_bind_of_ok hrun₁, run_bind_of_ok hrun₁,
      run_bind_of_ok hrun₂, run_bind_of_ok hrun₂, run_bind_of_ok hchains, run_bind_of_ok hnoop,
      run_putChains_replicate rich himages target k hc]
    exact run_putChains_replicate rich himages target 0 hc
  · rw [Transition.silence, hop]

/-- Edges one after the other. -/
theorem run_edges_silence {es : List (PointId × Transition)} :
    ∀ {s : Progress}, s.Sound rules → (∀ e ∈ es, rules.Covers registry e.2.op) →
      (∀ e ∈ es, e.2.target ≠ e.1) →
      (edges registry rules rich (es.map fun e => (e.1, e.2.silence))).run s =
        (edges registry rules rich es).run s := by
  induction es with
  | nil => exact fun _ _ _ => rfl
  | cons e rest ih =>
      intro s hs hcovers hne
      obtain ⟨p, t⟩ := e
      have hedge := run_edge_silence rich hregistry (hne (p, t) List.mem_cons_self) hs
      rw [List.map_cons, edges, edges, StateT.run_bind, StateT.run_bind, hedge]
      cases hop : t.op.isMove with
      | true =>
          rw [edge_move rich hs hop]
          rfl
      | false =>
          obtain ⟨s₁, hrun₁, hs₁, -⟩ :=
            edge_spec rich p hs hop (hcovers (p, t) List.mem_cons_self)
          rw [hrun₁]
          exact ih hs₁ (fun e he => hcovers e (List.mem_cons_of_mem _ he))
            fun e he => hne e (List.mem_cons_of_mem _ he)

end Lowering

/-! ## The silenced graph -/

namespace FlowGraph

variable {registry : Registry} {g : FlowGraph}

theorem successors_silence (g : FlowGraph) (p : PointId) :
    g.silence.successors p = (g.successors p).map Transition.silence := by
  rw [successors, silence, Std.TreeMap.getD_map, successors, Std.TreeMap.getD_eq_getD_getElem?]
  cases g.outgoing[p]? <;> rfl

theorem edges_silence (g : FlowGraph) :
    g.silence.edges = g.edges.map fun e => (e.1, e.2.silence) := by
  rw [edges, silence, Std.TreeMap.toList_map, List.flatMap_map, edges, List.map_flatMap]
  refine List.flatMap_congr fun entry _ => ?_
  rw [List.map_map, List.map_map]
  rfl

theorem targets_silence (g : FlowGraph) : g.silence.targets = g.targets := by
  funext p
  rw [targets, successors_silence, List.map_map]
  rfl

theorem reachableEdges_silence (g : FlowGraph) :
    g.silence.reachableEdges = g.reachableEdges.map fun e => (e.1, e.2.silence) := by
  have hreachable : g.silence.reachable = g.reachable := by
    have htargets : ∀ p, True → g.silence.targets p = g.targets p :=
      fun p _ => congrFun g.targets_silence p
    exact saturate_congr htargets (fun _ _ _ _ => trivial) _ _ _ _ _ _ fun _ _ => trivial
  rw [reachableEdges, hreachable, reachableEdges, List.map_flatMap]
  refine List.flatMap_congr fun p _ => ?_
  rw [successors_silence, List.map_map, List.map_map]
  rfl

variable (hregistry : ∀ s ∈ registry.summaries, s.outcomes ≠ [])
include hregistry

/-- A call without outputs performs no assignment. -/
theorem assignments_silence (g : FlowGraph) :
    g.silence.assignments registry = g.assignments registry := by
  rw [assignments, edges_silence, List.flatMap_map, assignments]
  refine List.flatMap_congr fun e _ => ?_
  rcases e.2.op.silence_cases with ⟨func, inputs, hop, -⟩ | hsame
  · obtain ⟨k, hk⟩ := Registry.bindCall_nil hregistry func inputs
    simp [Transition.silence, hop, Operation.silence, hk]
  · simp only [Transition.silence, hsame]

/-- **Lowering makes no difference between calls without outputs and empty edges.** -/
theorem lower_silence (hg : g.Wired) (depth : Nat) :
    g.silence.lower registry depth = g.lower registry depth := by
  obtain ⟨rules, hrules⟩ : ∃ rules, rules = leafRules depth (g.assignments registry) := ⟨_, rfl⟩
  have hcovers : ∀ e ∈ g.reachableEdges, rules.Covers registry e.2.op := by
    rw [hrules]
    exact fun e he => covers_of_mem_successors registry depth (mem_reachableEdges_iff.mp he).2
  have hsame : Lowering.edges registry rules g.silence = Lowering.edges registry rules g :=
    Lowering.edges_congr rfl
  have hedges : (Lowering.edges registry rules g.silence g.silence.reachableEdges).run
      (.start g.silence) = (Lowering.edges registry rules g g.reachableEdges).run (.start g) := by
    rw [hsame, reachableEdges_silence]
    exact Lowering.run_edges_silence g hregistry (Lowering.Progress.sound_start rules g) hcovers
      fun e he => hg.loopless _ _ (mem_reachableEdges_iff.mp he).2
  rw [lower, lower, assignments_silence hregistry, ← hrules, hedges]

end FlowGraph

end SliceLineage
