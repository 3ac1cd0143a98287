import SliceLineage.Analysis
import SliceLineage.Proofs.Build.Invariants
import SliceLineage.Proofs.Flow.Traces
import SliceLineage.Proofs.Lowering.Emission

/-!
# When a check succeeds

Lowering puts only cell operations, returns and empty edges into the primitive graph, and these are
what a replay of its traces accepts. So the stages of a check fit together: the one thing that can
go wrong is a cell operation in the rich graph itself, and the graph of a function has none.

* `Ledger.exists_conflicts`: a primitive trace can be replayed.
* `FlowGraph.exists_forEachTrace`: a visit that accepts every trace comes to its end.
* `FlowGraph.check_cases`: a check succeeds, or names a reachable cell operation.
* `check_succeeds_iff_no_reachable_move`: the result, for graphs and for functions.
-/

namespace SliceLineage

theorem Ledger.exists_step (l : Ledger) {t : Transition} (ht : t.op.isPrimitive = true) :
    ∃ found l', l.step t = (.ok found, l') := by
  unfold step
  cases hop : t.op with
  | assign source target => simp [hop, Operation.isPrimitive] at ht
  | call func inputs outputs => simp [hop, Operation.isPrimitive] at ht
  | ret values => exact ⟨_, _, rfl⟩
  | noop => exact ⟨_, _, rfl⟩
  | move source target step => exact ⟨_, _, rfl⟩

theorem Ledger.exists_conflicts {trace : Trace} (h : ∀ t ∈ trace, t.op.isPrimitive = true) :
    ∀ l : Ledger, ∃ found, l.conflicts trace = .ok found := by
  induction trace with
  | nil => exact fun l => ⟨[], rfl⟩
  | cons t rest ih =>
      intro l
      obtain ⟨found, l', hstep⟩ := l.exists_step (h t List.mem_cons_self)
      obtain ⟨later, hlater⟩ := ih (fun u hu => h u (List.mem_cons_of_mem _ hu)) l'
      exact ⟨_, conflicts_cons hstep hlater⟩

namespace FlowGraph

variable {g : FlowGraph}

/-- The transitions of a followed path are edges of the graph. -/
theorem mem_successors_of_follow? {choices : List Nat} :
    ∀ {p : PointId} {trace : Trace}, g.follow? p choices = some trace →
      ∀ t ∈ trace, ∃ q, t ∈ g.successors q := by
  induction choices with
  | nil =>
      intro p trace h t ht
      obtain rfl : [] = trace := Option.some.inj h
      cases ht
  | cons i choices ih =>
      intro p trace h t ht
      obtain ⟨u, rest, hu, hrest, rfl⟩ := follow?_cons_eq_some.mp h
      rcases List.mem_cons.mp ht with rfl | ht
      · exact ⟨p, List.mem_of_getElem? hu⟩
      · exact ih hrest t ht

theorem mem_successors_of_mem_allTraces {limit : Nat} {trace : Trace}
    (h : trace ∈ g.allTraces limit) : ∀ t ∈ trace, ∃ q, t ∈ g.successors q := by
  obtain ⟨⟨choices, _⟩, hc, rfl⟩ := List.mem_map.mp h
  exact mem_successors_of_follow? (mem_completions_iff.mp hc).follows

/-- A visit that accepts every trace comes to its end. -/
theorem exists_forEachTrace {α ε : Type} {limit : Nat} {visit : α → Trace → Except ε α}
    (h : ∀ trace ∈ g.allTraces limit, ∀ a, ∃ b, visit a trace = .ok b) (budget : Option Nat)
    (init : α) : ∃ result, g.forEachTrace limit budget visit init = .ok result := by
  have hfold : ∀ (traces : List Trace), (∀ trace ∈ traces, ∀ a, ∃ b, visit a trace = .ok b) →
      ∀ a, ∃ b, traces.foldlM visit a = .ok b := by
    intro traces
    induction traces with
    | nil => exact fun _ a => ⟨a, rfl⟩
    | cons trace rest ih =>
        intro hall a
        obtain ⟨b, hb⟩ := hall trace List.mem_cons_self a
        rw [List.foldlM_cons, hb]
        exact ih (fun t ht => hall t (List.mem_cons_of_mem _ ht)) b
  obtain ⟨b, hb⟩ := hfold _ (fun trace ht => h trace (Walker.mem_of_mem_affordable ht)) init
  rw [forEachTrace_eq, hb]
  exact ⟨_, rfl⟩

/-- A primitive graph is checked to its end. -/
theorem exists_forEachTrace_addTrace (h : g.AllOps (·.isPrimitive = true)) (limit : Nat)
    (budget : Option Nat) (init : Findings) :
    ∃ result, g.forEachTrace limit budget Findings.addTrace init = .ok result := by
  refine exists_forEachTrace (fun trace ht findings => ?_) budget init
  have hprimitive : ∀ t ∈ trace, t.op.isPrimitive = true := by
    intro t hmem
    obtain ⟨q, hq⟩ := mem_successors_of_mem_allTraces ht t hmem
    exact h q t hq
  obtain ⟨found, hfound⟩ := Ledger.exists_conflicts hprimitive Ledger.empty
  exact ⟨found.foldl Findings.add findings, by rw [Findings.addTrace, traceConflicts, hfound]; rfl⟩

/-- A cell operation on an edge that can be reached from the root. -/
def ReachesMove (g : FlowGraph) (op : Operation) : Prop :=
  op.isMove = true ∧ ∃ p, g.Reaches p ∧ ∃ t ∈ g.successors p, t.op = op

/-- A check succeeds, or names a reachable cell operation. -/
theorem check_cases (registry : Registry) (settings : Settings) (rich : FlowGraph) :
    ((∃ report, rich.check registry settings = .ok report) ∧ ∀ op, ¬ rich.ReachesMove op) ∨
      ∃ op, rich.ReachesMove op ∧
        rich.check registry settings = .error (.internal (.cellOperation op)) := by
  rcases rich.lower_cases registry settings.paths.maxPathDepth.toNat with
    ⟨s, hlower, hl⟩ | ⟨p, t, hp, ht, hmove, hlower⟩
  · refine Or.inl ⟨?_, ?_⟩
    · obtain ⟨result, hresult⟩ := exists_forEachTrace_addTrace hl.sound.ops
        settings.trace.repeatLimit.toNat (settings.trace.maxTraces.map UInt64.toNat) {}
      rw [check, hlower]
      show ∃ report, (s.cursor.graph.forEachTrace _ _ _ _ >>= fun result => _) = .ok report
      rw [hresult]
      exact ⟨_, rfl⟩
    · rintro op ⟨hop, p, hp, t, ht, rfl⟩
      rw [(hl.carries p hp t ht).1] at hop
      cases hop
  · refine Or.inr ⟨t.op, ⟨hmove, p, hp, t, ht, rfl⟩, ?_⟩
    rw [check, hlower]
    rfl

end FlowGraph

/-- The analysis of a function fails where its graph cannot be built, and with the same error. -/
theorem FunctionDecl.analyze_eq_error_iff (registry : Registry) (settings : Settings)
    (f : FunctionDecl) (e : AnalysisError) :
    f.analyze registry settings = .error e ↔ f.graph registry = .error e := by
  unfold analyze
  cases hg : f.graph registry with
  | error e' => constructor <;> intro h <;> cases h <;> rfl
  | ok g =>
      have hnone : ∀ op, ¬ g.ReachesMove op := by
        rintro op ⟨hop, p, -, t, ht, rfl⟩
        rw [FunctionDecl.allOps_graph hg p t ht] at hop
        cases hop
      rcases g.check_cases registry settings with ⟨⟨report, hreport⟩, -⟩ | ⟨op, hop, -⟩
      · show (g.check registry settings >>= fun report => _) = _ ↔ _
        rw [hreport]
        constructor <;> intro h <;> cases h
      · exact absurd hop (hnone op)

/-- **No stage of a check breaks what another one relies on.** For every graph, registry and
settings, the check succeeds if and only if no cell operation can be reached from the root, and its
only error names such an operation; no region lacks leaves, no leaf lacks its partner, no edge from
a point to itself is requested, and no field operation gets into a replay. So the analysis of a
function fails exactly when its graph cannot be built. -/
theorem check_succeeds_iff_no_reachable_move (registry : Registry) (settings : Settings) :
    (∀ rich : FlowGraph,
      ((∃ report, rich.check registry settings = .ok report) ↔ ∀ op, ¬ rich.ReachesMove op) ∧
      ∀ e, rich.check registry settings = .error e →
        ∃ op, rich.ReachesMove op ∧ e = .internal (.cellOperation op)) ∧
    ∀ (f : FunctionDecl) (e : AnalysisError),
      f.analyze registry settings = .error e ↔ f.graph registry = .error e := by
  refine ⟨fun rich => ?_, fun f e => f.analyze_eq_error_iff registry settings e⟩
  rcases rich.check_cases registry settings with ⟨⟨report, hreport⟩, hnone⟩ | ⟨op, hop, herror⟩
  · refine ⟨⟨fun _ => hnone, fun _ => ⟨report, hreport⟩⟩, fun e he => ?_⟩
    rw [hreport] at he
    cases he
  · refine ⟨⟨?_, fun hnone => absurd hop (hnone op)⟩, fun e he => ?_⟩
    · rintro ⟨report, hreport⟩
      rw [herror] at hreport
      cases hreport
    · rw [herror] at he
      exact ⟨op, hop, (Except.error.inj he).symm⟩

end SliceLineage
