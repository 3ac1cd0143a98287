import Mathlib
import SliceLineage.Proofs.Build.BoundedGrowths
import SliceLineage.Proofs.Check.Limits
import SliceLineage.Proofs.Check.Regrowth
import SliceLineage.Proofs.Lowering.CallOutputs

/-!
# What is reported of bounded growths

If a function grows bounded slices only, nothing but bounded slice expressions is moved to the cells
that its traces grow. What is reported of such a function can then be read off the moves of its
traces, without generations: a growth is reported where its cell regrows. To bound the capacity does
not keep a growth from being reported. It is enough that something was stored in the operand before.

* `Registry.mem_grown_of_grows`, `Registry.value_mem_written`, `Registry.step_eq_prev`: the built-in
  functions, as the operations of a graph use them.
* `FlowGraph.Detached.detached_trace`: the traces of a detached graph are detached.
* `bounded_growth_reported_iff_regrows`: what is reported of a function that grows bounded slices
  only.
-/

namespace SliceLineage

/-! ## The built-in functions -/

theorem Summary.component_unaryAlias {name : String} {step : GenStep} {outcome : Outcome}
    {slot : OutputSlot} {c : OutputComponent} (ho : outcome ∈ (unaryAlias name step).outcomes)
    (hslot : slot ∈ outcome.outputs) (hc : c ∈ slot.components) : c = .ofInput 0 step := by
  rw [List.mem_singleton.mp ho] at hslot
  rw [List.mem_singleton.mp hslot] at hc
  exact List.mem_singleton.mp hc

namespace Registry

theorem builtin_get?_cases {func : FuncId} {s : Summary} (h : builtin.get? func = some s) :
    s = .unaryAlias sliceName .prev ∨
      builtin.append? = some func ∧ s = .unaryAlias appendName .next := by
  obtain ⟨_ | _ | i⟩ := func
  · cases h
    exact Or.inl rfl
  · cases h
    exact Or.inr ⟨by decide, rfl⟩
  · cases h

/-- Of the built-in functions, `append` grows its first argument and nothing else is grown. -/
theorem mem_grown_of_grows {op : Operation} {v : ValueId} (h : builtin.Grows op v) :
    v ∈ op.grown := by
  obtain ⟨func, inputs, outputs, rfl, s, hs, ref, ⟨-, outcome, ho, slot, hslot, c, hc, hstep, href⟩,
    input, hinput, e, he, hb, rfl⟩ := h
  rcases builtin_get?_cases hs with rfl | ⟨hfunc, rfl⟩
  · rw [Summary.component_unaryAlias ho hslot hc] at hstep
    cases hstep
  · rw [Summary.component_unaryAlias ho hslot hc] at href
    cases href
    cases inputs with
    | nil => cases hinput
    | cons first rest =>
        cases hinput
        simp only [Operation.grown, if_pos hfunc]
        exact Composition.mem_followed.mpr ⟨ValueId.isBlank_eq_false_iff.mp hb, e, he, rfl⟩

/-- The target of an assignment is a value that the operation stores something in. -/
theorem value_mem_written {registry : Registry} {op : Operation} {outcome : List BoundAssignment}
    (ho : outcome ∈ registry.outcomes op) {a : BoundAssignment} (ha : a ∈ outcome) :
    a.target.value ∈ op.written := by
  cases op with
  | assign source target =>
      rw [List.mem_singleton.mp ho] at ha
      rw [List.mem_singleton.mp ha]
      exact List.mem_singleton_self _
  | ret values =>
      rw [List.mem_singleton.mp ho] at ha
      cases ha
  | noop =>
      rw [List.mem_singleton.mp ho] at ha
      cases ha
  | move source target step => cases ho
  | call func inputs outputs =>
      have ho : outcome ∈ registry.bindCall func inputs outputs := ho
      unfold bindCall at ho
      split at ho
      · obtain ⟨o, -, rfl⟩ := List.mem_map.mp ho
        obtain ⟨⟨slot, output⟩, hslot, ha⟩ := List.mem_flatMap.mp ha
        obtain ⟨c, -, ha⟩ := List.mem_flatMap.mp ha
        rw [Summary.value_of_mem_bindComponent ha]
        exact (List.of_mem_zip hslot).2
      · rw [List.mem_singleton.mp ho] at ha
        obtain ⟨output, houtput, rfl⟩ := List.mem_map.mp ha
        exact houtput

/-- A bounded slice expression exposes the generation before. -/
theorem step_eq_prev {op : Operation} (hop : op.isSlicing = true) {outcome : List BoundAssignment}
    (ho : outcome ∈ builtin.outcomes op) {a : BoundAssignment} (ha : a ∈ outcome) :
    a.step = .prev := by
  cases op with
  | call func inputs outputs =>
      have hfunc : builtin.slice? = some func := beq_iff_eq.mp hop
      have hslice : builtin.slice? = some ⟨0⟩ := by decide
      obtain rfl := Option.some.inj (hslice.symm.trans hfunc)
      obtain ⟨o, hout, rfl⟩ := List.mem_map.mp ho
      obtain ⟨⟨slot, output⟩, hslot, ha⟩ := List.mem_flatMap.mp ha
      obtain ⟨c, hc, ha⟩ := List.mem_flatMap.mp ha
      rw [Summary.step_of_mem_bindComponent ha,
        Summary.component_unaryAlias hout (List.of_mem_zip hslot).1 hc]
      rfl
  | _ => cases hop

end Registry

/-! ## Traces of detached graphs -/

namespace FlowGraph

/-- The history has every operation that stores something or grows something. -/
theorem mem_history {g : FlowGraph} {p : PointId} {t : Transition} (ht : t ∈ g.successors p)
    {v : ValueId} (hv : v ∈ t.op.written ∨ v ∈ t.op.grown) : t.op ∈ g.history := by
  have hop : t.op.isNoop = false := by
    cases hcase : t.op with
    | noop =>
        rw [hcase] at hv
        rcases hv with hv | hv <;> cases hv
    | _ => rfl
  refine g.perm_history.mem_iff.mpr (List.mem_map.mpr ⟨(p, t), ?_, rfl⟩)
  exact List.mem_filter.mpr ⟨mem_edges.mpr ht, by simp [hop]⟩

/-- **The traces of a detached graph are detached.** A cell that is grown is a leaf of a value that
the graph grows, and a move to the cell belongs to an operation that stores something in the value,
which is a bounded slice expression. -/
theorem Detached.detached_trace {rich : FlowGraph} (hd : rich.Detached) {depth : Nat}
    {l : Lowering} (h : rich.lower .builtin depth = .ok l) {limit : Nat} {trace : Trace}
    (htrace : trace ∈ l.graph.allTraces limit) : trace.Detached := by
  obtain ⟨s, drawn, hspun, rfl⟩ := exists_spun h
  have hedges := mem_successors_of_mem_allTraces htrace
  intro t ht u hu cell target source step hgrows hcell hmove
  obtain ⟨q, hq⟩ := hedges t ht
  obtain ⟨q', hq'⟩ := hedges u hu
  obtain ⟨p, -, grower, hgrower, -, leaf, hleaf, -, hgrown⟩ :=
    hspun.grows_of_move hq hgrows hcell
  obtain ⟨p', -, writer, hwriter, -, outcome, ho, a, ha, m, hm, -, htarget, hstep, hknows⟩ :=
    hspun.exists_leafMove hq' hmove
  obtain ⟨hb, -, hleaf'⟩ := hspun.lowered.sound.cells.selector?_of_cell_eq htarget hcell
    (hknows m.target m.target_mem_sides)
  -- the cell is that of one leaf, which the one operation grows and the other one stores to
  obtain rfl := Option.some.inj (hleaf.symm.trans hleaf')
  have hgrown := Registry.mem_grown_of_grows hgrown
  have hwritten : m.target.value ∈ writer.op.written := by
    rw [(LeafRules.prefix_of_mem_leafMoves hm hb).2.1]
    exact Registry.value_mem_written ho ha
  have hslicing := hd grower.op (mem_history hgrower (Or.inr hgrown)) _ hgrown writer.op
    (mem_history hwriter (Or.inl hwritten)) hwritten
  rw [← hstep, LeafRules.step_of_mem_leafMoves hm]
  exact Registry.step_eq_prev hslicing ho ha

end FlowGraph

/-! ## Reports -/

/-- A growth on the trace that leads to the point goes back to a generation that was there already,
by the moves before it. -/
def Trace.RegrowsAt (trace : Trace) (p : PointId) : Prop :=
  ∃ before t after cell target, trace = before ++ t :: after ∧ t.target = p ∧
    t.op = .move cell target .next ∧ cell ≠ .blank ∧ target ≠ .blank ∧ Regrows before cell

/-- The points at which a detached trace has conflicts. -/
theorem Trace.Detached.exists_conflict_iff {trace : Trace} (hd : trace.Detached)
    (hprimitive : ∀ t ∈ trace, t.op.isPrimitive = true) (p : PointId) :
    (∃ c ∈ conflictsOf trace, c.point = p) ↔ trace.RegrowsAt p := by
  have hmem : ∀ c, c ∈ conflictsOf trace ↔ ∃ before t after, trace = before ++ t :: after ∧
      (History.ofTrace before).Repeats t c := fun c =>
    mem_conflicts_iff Ledger.records_empty hprimitive (traceConflicts_eq_ok hprimitive)
  -- what comes after a growth has no part in its conflict
  have hupTo : ∀ {before after : Trace} {t : Transition}, trace = before ++ t :: after →
      Detached (before ++ [t]) := by
    rintro before after t rfl
    exact Detached.of_append (by simpa using hd)
  constructor
  · rintro ⟨c, hc, rfl⟩
    obtain ⟨before, t, after, hsplit, hrepeats⟩ := (hmem c).mp hc
    obtain ⟨cell, target, hop, hcell, ht, hregrows⟩ :=
      (hupTo hsplit).repeats_iff.mp ⟨c, hrepeats⟩
    obtain ⟨-, -, -, -, -, -, rfl⟩ := hrepeats
    exact ⟨before, t, after, cell, target, hsplit, rfl, hop, hcell, ht, hregrows⟩
  · rintro ⟨before, t, after, cell, target, hsplit, rfl, hop, hcell, ht, hregrows⟩
    obtain ⟨c, hrepeats⟩ :=
      (hupTo hsplit).repeats_iff.mpr ⟨cell, target, hop, hcell, ht, hregrows⟩
    refine ⟨c, (hmem c).mpr ⟨before, t, after, hsplit, hrepeats⟩, ?_⟩
    obtain ⟨-, -, -, -, -, -, rfl⟩ := hrepeats
    rfl

/-- The points that a report has warnings about. -/
theorem Lowering.exists_warning_iff (l : Lowering) (rich : FlowGraph) (s : TraceSettings)
    (p : PointId) :
    (∃ w ∈ (l.report rich s).warnings, w.point = p) ↔
      ∃ trace ∈ l.visited s, ∃ c ∈ conflictsOf trace, l.richPoint c.point = p := by
  constructor
  · rintro ⟨w, hw, rfl⟩
    obtain ⟨c, hc, rfl⟩ := List.mem_map.mp hw
    obtain ⟨trace, htrace, hmem⟩ := List.mem_flatMap.mp (firsts_subset _ _ hc)
    exact ⟨trace, htrace, c, hmem, rfl⟩
  · rintro ⟨trace, htrace, c, hc, rfl⟩
    obtain ⟨b, hb, hplace⟩ :=
      exists_mem_firsts l.place (List.mem_flatMap.mpr ⟨trace, htrace, hc⟩)
    exact ⟨l.warning rich b, List.mem_map_of_mem hb, hplace⟩

/-- **A bounded growth is reported exactly where its cell regrows.** Let the first argument of every
growth in a function be a bounded slice expression. Under any settings the function is analysed to
the end, and a point is reported if and only if on a visited trace a growth there regrows its cell:
something had been stored in the operand of the slice expression, or the operand was handed on
before, or the cell was grown since it was last stored to. So nothing is reported exactly if no
visited trace has such a growth. -/
theorem bounded_growth_reported_iff_regrows {f : FunctionDecl} {g : FlowGraph}
    (hbuild : f.graph .builtin = .ok g) (hbounds : f.BoundsGrowths) (settings : Settings) :
    ∃ l report, g.lower .builtin settings.paths.maxPathDepth.toNat = .ok l ∧
      f.analyze .builtin settings = .ok report ∧
      (∀ p, (∃ w ∈ report.warnings, w.point = p) ↔
        ∃ trace ∈ l.visited settings.trace, ∃ q, trace.RegrowsAt q ∧ l.richPoint q = p) ∧
      (report.warnings = [] ↔
        ∀ trace ∈ l.visited settings.trace, ∀ q, ¬ trace.RegrowsAt q) := by
  obtain ⟨l, hlower, -⟩ := FlowGraph.exists_lower .builtin settings.paths.maxPathDepth.toNat
    (FunctionDecl.allOps_graph hbuild)
  have hpoints : ∀ p, (∃ w ∈ (l.report g settings.trace).warnings, w.point = p) ↔
      ∃ trace ∈ l.visited settings.trace, ∃ q, trace.RegrowsAt q ∧ l.richPoint q = p := by
    intro p
    rw [l.exists_warning_iff]
    refine exists_congr fun trace => and_congr_right fun htrace => ?_
    have hall := (l.visited_isPrefix_allTraces settings.trace).subset htrace
    have hconflict := ((FunctionDecl.detached_graph hbuild hbounds).detached_trace hlower
      hall).exists_conflict_iff (FlowGraph.isPrimitive_of_mem_allTraces hlower hall)
    constructor
    · rintro ⟨c, hc, rfl⟩
      exact ⟨c.point, (hconflict _).mp ⟨c, hc, rfl⟩, rfl⟩
    · rintro ⟨q, hq, rfl⟩
      obtain ⟨c, hc, rfl⟩ := (hconflict q).mpr hq
      exact ⟨c, hc, rfl⟩
  refine ⟨l, ⟨f.name, f.span, (l.report g settings.trace).warnings,
    (l.report g settings.trace).stats⟩, hlower, ?_, hpoints, ?_⟩
  · rw [FunctionDecl.analyze, hbuild]
    show (g.check .builtin settings >>= fun report => _) = _
    rw [FlowGraph.check_eq_report hlower]
    rfl
  · constructor
    · intro hnone trace htrace q hq
      have hnone : (l.report g settings.trace).warnings = [] := hnone
      obtain ⟨w, hw, -⟩ := (hpoints (l.richPoint q)).mpr ⟨trace, htrace, q, hq, rfl⟩
      rw [hnone] at hw
      cases hw
    · intro hnone
      refine List.eq_nil_iff_forall_not_mem.mpr fun w hw => ?_
      obtain ⟨trace, htrace, q, hq, -⟩ := (hpoints w.point).mp ⟨w, hw, rfl⟩
      exact hnone trace htrace q hq

namespace FunctionDecl

/-- The expression `append(name[:n:n])` on a line. -/
def growBounded (name : String) (line : UInt32) : Expr :=
  let n : Expr := .ident "n" (.ofLine line)
  .callNamed "append" [.slice (.ident name (.ofLine line)) none (some n) (some n) (.ofLine line)]
    (.ofLine line)

/-- A bounded slice of a parameter is grown twice. -/
def boundedTwice : FunctionDecl :=
  ⟨"f", ["v", "n"], [], ⟨[.define ["x"] [growBounded "v" 1] (.ofLine 1),
    .define ["y"] [growBounded "v" 2] (.ofLine 2)], default⟩, default⟩

/-- Of the two growths the first one is not reported. The second one is, since the first one has led
to the generation of the parameter. -/
theorem boundedTwice_reported_once : boundedTwice.BoundsGrowths ∧
    ∃ (g : FlowGraph) (l : Lowering) (report : FunctionReport),
      boundedTwice.graph .builtin = .ok g ∧
      g.lower .builtin (default : Settings).paths.maxPathDepth.toNat = .ok l ∧
      boundedTwice.analyze .builtin default = .ok report ∧
      report.warnings.map Warning.span = [some (.ofLine 2)] ∧
      ∃ trace ∈ l.visited (default : Settings).trace, ∃ q, trace.RegrowsAt q ∧
        l.richPoint q = ⟨5⟩ := by
  have hbounds : boundedTwice.BoundsGrowths := by decide
  have hreport : (boundedTwice.analyze .builtin default).map
      (·.warnings.map fun w => (w.point, w.span)) = .ok [(⟨5⟩, some (.ofLine 2))] := by cbv
  cases hg : boundedTwice.graph .builtin with
  | error e =>
      rw [analyze, hg] at hreport
      cases hreport
  | ok g =>
      obtain ⟨l, report, hlower, hanalyze, hpoints, -⟩ :=
        bounded_growth_reported_iff_regrows hg hbounds default
      rw [hanalyze] at hreport
      have hfound : report.warnings.map (fun w => (w.point, w.span)) =
          [(⟨5⟩, some (.ofLine 2))] := Except.ok.inj hreport
      have hspans : report.warnings.map Warning.span = [some (.ofLine 2)] := by
        have hsnd := congrArg (List.map Prod.snd) hfound
        rwa [List.map_map] at hsnd
      obtain ⟨w, hw, hpoint⟩ : ∃ w ∈ report.warnings, (w.point, w.span) = (⟨5⟩, some (.ofLine 2)) :=
        List.mem_map.mp (hfound ▸ List.mem_singleton_self _)
      exact ⟨hbounds, g, l, report, rfl, hlower, hanalyze, hspans,
        (hpoints ⟨5⟩).mp ⟨w, hw, congrArg Prod.fst hpoint⟩⟩

/-- The one growth is that of a bounded slice of a local variable. -/
def boundedOnce : FunctionDecl :=
  ⟨"f", ["n"], [], ⟨[.define ["x"] [.callNamed "g" [] (.ofLine 1)] (.ofLine 1),
    .define ["y"] [growBounded "x" 2] (.ofLine 2)], default⟩, default⟩

/-- **A bounded slice expression does not detach its result**: the only growth of a function is
reported, although its argument is one. -/
theorem boundedOnce_reported : boundedOnce.BoundsGrowths ∧
    (boundedOnce.analyze .builtin default).map (·.warnings.map Warning.span) =
      .ok [some (.ofLine 2)] := by
  refine ⟨by decide, ?_⟩
  cbv

end FunctionDecl

end SliceLineage
