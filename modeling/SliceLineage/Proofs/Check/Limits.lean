import Mathlib
import SliceLineage.Proofs.Check.FirstConflicts
import SliceLineage.Proofs.Check.Success
import SliceLineage.Proofs.Lowering.Strands

/-!
# What the limits of a check leave of its report

Two settings bound how much a check looks at: how often a trace may enter the same point, and how
many traces are visited. Neither of them has a part in lowering, so a check is a function of the
primitive graph, and the limits can be compared on the traces of one and the same graph.

* `conflictsOf`: the conflicts along a primitive trace; `FlowGraph.check_eq_map` says what a check
  reports in terms of them.
* `FlowGraph.exists_append_mem_allTraces`: a trace is the beginning of a trace under any higher
  limit, and `isPrefix_conflictsOf`: its conflicts are the first conflicts of that one.
* `higher_limit_keeps_findings`: so a higher limit reports every point that a lower one does.
* `firsts_isPrefix`: leaving out repetitions keeps prefixes.
* `smaller_budget_reports_prefix`: so a budget does nothing but cut the report short.
-/

namespace SliceLineage

/-! ## The report as a function of the primitive graph -/

/-- The conflicts along a trace that can be replayed. -/
def conflictsOf (trace : Trace) : List Conflict := (traceConflicts trace).toOption.getD []

theorem traceConflicts_eq_ok {trace : Trace} (h : ∀ t ∈ trace, t.op.isPrimitive = true) :
    traceConflicts trace = .ok (conflictsOf trace) := by
  obtain ⟨found, hfound⟩ := Ledger.exists_conflicts h Ledger.empty
  rw [conflictsOf, traceConflicts, hfound]
  rfl

theorem mapM_traceConflicts {traces : List Trace}
    (h : ∀ trace ∈ traces, ∀ t ∈ trace, t.op.isPrimitive = true) :
    traces.mapM traceConflicts = .ok (traces.map conflictsOf) := by
  induction traces with
  | nil => rfl
  | cons trace rest ih =>
      rw [List.mapM_cons, traceConflicts_eq_ok (h trace List.mem_cons_self),
        ih fun other ho => h other (List.mem_cons_of_mem _ ho)]
      rfl

namespace Lowering

/-- The traces that the settings leave of the primitive graph. -/
def visited (l : Lowering) (s : TraceSettings) : List Trace :=
  l.graph.traces s.repeatLimit.toNat (s.maxTraces.map UInt64.toNat)

/-- The report about a rich graph that was lowered. -/
def report (l : Lowering) (rich : FlowGraph) (s : TraceSettings) : CheckReport where
  warnings := (firsts l.place ((l.visited s).flatMap conflictsOf)).map (l.warning rich)
  stats := {
    richPoints := rich.pointCount
    primitivePoints := l.graph.pointCount
    primitiveTransitions := l.graph.edgeCount
    traces := (l.visited s).length
    traceBudgetExhausted :=
      decide ((l.visited s).length < (l.graph.allTraces s.repeatLimit.toNat).length)
    conflicts := ((l.visited s).flatMap conflictsOf).length }

end Lowering

namespace FlowGraph

variable {g : FlowGraph}

/-- What lowering makes can be replayed along every trace. -/
theorem isPrimitive_of_mem_allTraces {registry : Registry} {depth : Nat} {rich : FlowGraph}
    {l : Lowering} (h : rich.lower registry depth = .ok l) {limit : Nat} {trace : Trace}
    (htrace : trace ∈ l.graph.allTraces limit) : ∀ t ∈ trace, t.op.isPrimitive = true := by
  obtain ⟨s, drawn, hspun, rfl⟩ := exists_spun h
  intro t ht
  obtain ⟨q, hq⟩ := mem_successors_of_mem_allTraces htrace t ht
  exact hspun.lowered.sound.ops q t hq

/-- **A check is lowering, and what the settings for traces leave of the primitive graph.** -/
theorem check_eq_map (registry : Registry) (settings : Settings) (rich : FlowGraph) :
    rich.check registry settings =
      (rich.lower registry settings.paths.maxPathDepth.toNat).map
        (·.report rich settings.trace) := by
  rw [check_eq]
  cases hlower : rich.lower registry settings.paths.maxPathDepth.toNat with
  | error e => rfl
  | ok l =>
      have hreplay : (l.visited settings.trace).mapM traceConflicts =
          .ok ((l.visited settings.trace).map conflictsOf) := by
        refine mapM_traceConflicts fun trace htrace => ?_
        rw [Lowering.visited, traces_eq] at htrace
        exact isPrimitive_of_mem_allTraces hlower (Walker.mem_of_mem_affordable htrace)
      show (l.visited settings.trace).mapM traceConflicts >>= _ = _
      rw [hreplay]
      rfl

theorem check_eq_report {registry : Registry} {settings : Settings} {rich : FlowGraph}
    {l : Lowering} (h : rich.lower registry settings.paths.maxPathDepth.toNat = .ok l) :
    rich.check registry settings = .ok (l.report rich settings.trace) := by
  rw [check_eq_map, h]
  rfl

/-! ## A higher limit -/

/-- Every path can be continued to a trace. -/
theorem exists_completes (limit : Nat) (path : Trace) (p : PointId) :
    ∃ choices trace, g.Completes limit path p choices trace := by
  cases hadmitted : g.admitted limit path p with
  | nil => exact ⟨[], [], completes_nil_iff.mpr ⟨hadmitted, rfl⟩⟩
  | cons t others =>
      have ht : t ∈ g.admitted limit path p := hadmitted ▸ List.mem_cons_self
      obtain ⟨hmem, hlt⟩ := List.mem_filter.mp ht
      obtain ⟨i, hi⟩ := List.mem_iff_getElem?.mp hmem
      obtain ⟨choices, trace, h⟩ := exists_completes limit (t :: path) t.target
      exact ⟨i :: choices, t :: trace,
        completes_cons_iff.mpr ⟨t, trace, hi, of_decide_eq_true hlt, rfl, h⟩⟩
termination_by path.room limit g.entryPoints
decreasing_by exact room_lt_of_mem_admitted ht

/-- What completes a path under a limit can go on under a higher one. -/
theorem Completes.exists_append {limit limit' : Nat} (hle : limit ≤ limit') {choices : List Nat} :
    ∀ {path : Trace} {p : PointId} {trace : Trace}, g.Completes limit path p choices trace →
      ∃ more rest, g.Completes limit' path p (choices ++ more) (trace ++ rest) := by
  induction choices with
  | nil =>
      intro path p trace h
      obtain ⟨-, rfl⟩ := completes_nil_iff.mp h
      exact exists_completes limit' path p
  | cons i choices ih =>
      intro path p trace h
      obtain ⟨t, tail, hi, hlt, rfl, htail⟩ := completes_cons_iff.mp h
      obtain ⟨more, rest, hmore⟩ := ih htail
      exact ⟨more, rest, completes_cons_iff.mpr
        ⟨t, tail ++ rest, hi, Nat.lt_of_lt_of_le hlt hle, rfl, hmore⟩⟩

/-- **A trace is the beginning of a trace under any higher limit.** -/
theorem exists_append_mem_allTraces {limit limit' : Nat} (hle : limit ≤ limit') {trace : Trace}
    (h : trace ∈ g.allTraces limit) : ∃ rest, trace ++ rest ∈ g.allTraces limit' := by
  obtain ⟨⟨choices, _⟩, hc, rfl⟩ := List.mem_map.mp h
  obtain ⟨more, rest, hmore⟩ := (mem_completions_iff.mp hc).exists_append hle
  exact ⟨rest, List.mem_map_of_mem (f := Prod.snd) (mem_completions_iff.mpr hmore)⟩

end FlowGraph

/-- A replay that goes on keeps the conflicts that it has met. -/
theorem Ledger.isPrefix_conflicts {before after : Trace} :
    ∀ {l : Ledger} {all : List Conflict}, l.conflicts (before ++ after) = .ok all →
      ∃ found, l.conflicts before = .ok found ∧ found <+: all := by
  induction before with
  | nil => exact fun _ => ⟨[], rfl, List.nil_prefix⟩
  | cons t before ih =>
      intro l all h
      obtain ⟨first, l', later, hstep, hlater, rfl⟩ := exists_of_conflicts_cons h
      obtain ⟨found, hfound, hstart⟩ := ih hlater
      exact ⟨_, conflicts_cons hstep hfound, (List.prefix_append_right_inj _).mpr hstart⟩

theorem isPrefix_conflictsOf {before after : Trace}
    (h : ∀ t ∈ before ++ after, t.op.isPrimitive = true) :
    conflictsOf before <+: conflictsOf (before ++ after) := by
  obtain ⟨found, hfound, hstart⟩ := Ledger.isPrefix_conflicts (traceConflicts_eq_ok h)
  have hbefore : conflictsOf before = found := by
    rw [conflictsOf, traceConflicts, hfound]
    rfl
  exact hbefore ▸ hstart

namespace FlowGraph

/-- Every point that is reported under a limit and without a budget is reported under a higher
limit, at the same span. -/
theorem exists_warning_of_limit_le {registry : Registry} (low high : Settings) {rich : FlowGraph}
    {report : CheckReport} (hpaths : high.paths = low.paths) (hhigh : high.trace.maxTraces = none)
    (hlimit : low.trace.repeatLimit ≤ high.trace.repeatLimit)
    (h : rich.check registry low = .ok report) :
    ∃ report', rich.check registry high = .ok report' ∧
      ∀ w ∈ report.warnings, ∃ w' ∈ report'.warnings, w'.point = w.point ∧ w'.span = w.span := by
  rw [check_eq_map] at h ⊢
  rw [hpaths]
  cases hlower : rich.lower registry low.paths.maxPathDepth.toNat with
  | error e =>
      rw [hlower] at h
      cases h
  | ok l =>
      rw [hlower] at h
      obtain rfl : l.report rich low.trace = report := Except.ok.inj h
      refine ⟨l.report rich high.trace, rfl, fun w hw => ?_⟩
      obtain ⟨c, hc, rfl⟩ := List.mem_map.mp hw
      obtain ⟨trace, htrace, hmem⟩ := List.mem_flatMap.mp (firsts_subset _ _ hc)
      rw [Lowering.visited, traces_eq] at htrace
      obtain ⟨rest, hrest⟩ := exists_append_mem_allTraces (UInt32.le_iff_toNat_le.mp hlimit)
        (Walker.mem_of_mem_affordable htrace)
      -- the conflict is met again on the longer trace, but another one may stand for its point
      have hagain : c ∈ (l.visited high.trace).flatMap conflictsOf := by
        refine List.mem_flatMap.mpr ⟨trace ++ rest, ?_, ?_⟩
        · rw [Lowering.visited, hhigh, traces_eq]
          exact hrest
        · exact (isPrefix_conflictsOf (isPrimitive_of_mem_allTraces hlower hrest)).subset hmem
      obtain ⟨b, hb, hplace⟩ := exists_mem_firsts l.place hagain
      exact ⟨l.warning rich b, List.mem_map_of_mem hb, hplace, congrArg rich.reference? hplace⟩

end FlowGraph

/-- **A higher repeat limit loses no finding.** Of two settings without a budget for traces that
differ in the repeat limit only, the higher limit gives a report whenever the lower one does, and it
reports every rich point that the lower one reports. So the thorough preset reports every point that
the balanced preset reports. -/
theorem higher_limit_keeps_findings (registry : Registry) (rich : FlowGraph) :
    (∀ (settings : Settings) (limit : UInt32) (report : CheckReport),
      settings.trace.maxTraces = none → settings.trace.repeatLimit ≤ limit →
      rich.check registry settings = .ok report →
      ∃ report', rich.check registry
          { settings with trace := { settings.trace with repeatLimit := limit } } = .ok report' ∧
        ∀ w ∈ report.warnings, ∃ w' ∈ report'.warnings, w'.point = w.point ∧ w'.span = w.span) ∧
    ∀ report, rich.check registry (.ofPreset .balanced) = .ok report →
      ∃ report', rich.check registry (.ofPreset .thorough) = .ok report' ∧
        ∀ w ∈ report.warnings, ∃ w' ∈ report'.warnings, w'.point = w.point ∧ w'.span = w.span := by
  constructor
  · intro settings limit report hbudget hlimit h
    exact FlowGraph.exists_warning_of_limit_le settings _ rfl hbudget hlimit h
  · intro report h
    exact FlowGraph.exists_warning_of_limit_le (.ofPreset .balanced) _ rfl rfl (by decide) h

/-- A base with two fields is grown in a loop. -/
def FlowGraph.grownInLoop : FlowGraph :=
  let entered := FlowGraph.insert ⟨.root, 5, ∅, ∅⟩ ⟨0⟩ ⟨1⟩ .noop
  let grown := entered.insert ⟨1⟩ ⟨2⟩ (.call ⟨1⟩ [.of (.whole (.tracked 0))] [.tracked 1])
  (grown.insert ⟨2⟩ ⟨1⟩ .noop).readFields ⟨2⟩ ⟨3⟩ ⟨4⟩

/-- The second round through the loop meets two conflicts and is reported once, and so it is under a
limit of three. -/
theorem grownInLoop_reported_under_higher_limit :
    ∃ report report', FlowGraph.grownInLoop.check .builtin default = .ok report ∧
      report.warnings.map Warning.point = [⟨2⟩] ∧ report.stats.conflicts = 2 ∧
      FlowGraph.grownInLoop.check .builtin
        { (default : Settings) with trace := { repeatLimit := 3 } } = .ok report' ∧
      ∃ w' ∈ report'.warnings, w'.point = ⟨2⟩ := by
  have hcheck : FlowGraph.grownInLoop.check .builtin default =
      .ok ⟨[⟨⟨2⟩, none, some ⟨.tracked 0, ["a"]⟩, some ⟨.tracked 0, ["a"]⟩⟩],
        ⟨5, 6, 6, 2, false, 2⟩⟩ := by cbv
  obtain ⟨report', hreport', hkept⟩ := (higher_limit_keeps_findings .builtin .grownInLoop).1
    default 3 _ rfl (by decide) hcheck
  obtain ⟨w', hw', hpoint, -⟩ := hkept _ List.mem_cons_self
  exact ⟨_, report', hcheck, rfl, rfl, hreport', w', hw', hpoint⟩

/-! ## A smaller budget -/

/-- Leaving out repetitions keeps prefixes. -/
theorem firsts_isPrefix {α κ : Type} [DecidableEq κ] (key : α → κ) {xs : List α} :
    ∀ {ys : List α}, xs <+: ys → firsts key xs <+: firsts key ys := by
  induction xs with
  | nil => exact fun _ => List.nil_prefix
  | cons a xs ih =>
      rintro _ ⟨rest, rfl⟩
      rw [List.cons_append, firsts, firsts]
      exact (List.prefix_cons_inj a).mpr ((ih (List.prefix_append xs rest)).filter _)

theorem flatMap_isPrefix {α β : Type} (f : α → List β) {xs ys : List α} (h : xs <+: ys) :
    xs.flatMap f <+: ys.flatMap f := by
  obtain ⟨rest, rfl⟩ := h
  rw [List.flatMap_append]
  exact List.prefix_append _ _

/-- One budget allows no more than another; no budget allows everything. -/
def BudgetLe (m m' : Option UInt64) : Prop := ∀ b' ∈ m', ∃ b ∈ m, b ≤ b'

namespace Lowering

variable {l : Lowering} {small large : TraceSettings}

theorem visited_isPrefix_allTraces (l : Lowering) (s : TraceSettings) :
    l.visited s <+: l.graph.allTraces s.repeatLimit.toNat := by
  rw [visited, FlowGraph.traces_eq]
  cases s.maxTraces with
  | none => exact List.prefix_rfl
  | some m => exact List.take_prefix _ _

/-- A smaller budget leaves the first of the traces that a larger one leaves. -/
theorem visited_isPrefix (hlimit : large.repeatLimit = small.repeatLimit)
    (hbudget : BudgetLe small.maxTraces large.maxTraces) : l.visited small <+: l.visited large := by
  cases hlarge : large.maxTraces with
  | none =>
      have hall : l.visited large = l.graph.allTraces small.repeatLimit.toNat := by
        rw [visited, hlarge, hlimit, FlowGraph.traces_eq]
        rfl
      rw [hall]
      exact l.visited_isPrefix_allTraces small
  | some m' =>
      obtain ⟨m, hm, hle⟩ := hbudget m' hlarge
      have hm : small.maxTraces = some m := hm
      rw [visited, visited, hm, hlarge, hlimit, FlowGraph.traces_eq, FlowGraph.traces_eq]
      exact List.take_prefix_take_left (UInt64.le_iff_toNat_le.mp hle)

/-- If the smaller budget leaves all traces, so does the larger one. -/
theorem visited_eq_of_not_exhausted (hlimit : large.repeatLimit = small.repeatLimit)
    (hbudget : BudgetLe small.maxTraces large.maxTraces)
    (hall : ¬ (l.visited small).length < (l.graph.allTraces small.repeatLimit.toNat).length) :
    l.visited small = l.visited large := by
  have hlarge := l.visited_isPrefix_allTraces large
  rw [hlimit] at hlarge
  have hle := hlarge.length_le
  refine (visited_isPrefix hlimit hbudget).eq_of_length_le ?_
  omega

/-- What a smaller budget leaves of a report. -/
theorem report_of_budgetLe (rich : FlowGraph) (hlimit : large.repeatLimit = small.repeatLimit)
    (hbudget : BudgetLe small.maxTraces large.maxTraces) :
    (l.report rich small).warnings <+: (l.report rich large).warnings ∧
      (l.report rich small).stats.conflicts ≤ (l.report rich large).stats.conflicts ∧
      ((l.report rich small).stats.traceBudgetExhausted = false →
        l.report rich small = l.report rich large) := by
  have hconflicts := flatMap_isPrefix conflictsOf (visited_isPrefix (l := l) hlimit hbudget)
  refine ⟨(firsts_isPrefix l.place hconflicts).map _, hconflicts.length_le, fun hall => ?_⟩
  have hsame := visited_eq_of_not_exhausted hlimit hbudget (of_decide_eq_false hall)
  simp only [report, hsame, hlimit]

end Lowering

/-- **A budget for traces only cuts the report short.** Take two settings that differ in the budget
only, no budget counting as an infinite one. Either the check fails with the same error under both,
or the warnings under the smaller budget are a prefix of those under the larger one, it counts no
more conflicts, and where it was not exhausted the two reports are equal. -/
theorem smaller_budget_reports_prefix (registry : Registry) (rich : FlowGraph) (settings : Settings)
    (m m' : Option UInt64) (hbudget : BudgetLe m m') :
    let small := { settings with trace := { settings.trace with maxTraces := m } }
    let large := { settings with trace := { settings.trace with maxTraces := m' } }
    (∃ e, rich.check registry small = .error e ∧ rich.check registry large = .error e) ∨
      ∃ report report', rich.check registry small = .ok report ∧
        rich.check registry large = .ok report' ∧
        report.warnings <+: report'.warnings ∧
        report.stats.conflicts ≤ report'.stats.conflicts ∧
        (report.stats.traceBudgetExhausted = false → report = report') := by
  intro small large
  rw [FlowGraph.check_eq_map, FlowGraph.check_eq_map]
  show (∃ e, Except.map _ (rich.lower registry settings.paths.maxPathDepth.toNat) = _ ∧
    Except.map _ (rich.lower registry settings.paths.maxPathDepth.toNat) = _) ∨ _
  cases hlower : rich.lower registry settings.paths.maxPathDepth.toNat with
  | error e => exact Or.inl ⟨e, rfl, rfl⟩
  | ok l => exact Or.inr ⟨l.report rich small.trace, l.report rich large.trace, rfl, rfl,
      Lowering.report_of_budgetLe rich rfl hbudget⟩

/-- A base with two fields is grown, and once more on each of two ways that lead on. -/
def FlowGraph.grownOnBothWays : FlowGraph :=
  let grow (target : Nat) : Operation :=
    .call ⟨1⟩ [.of (.whole (.tracked 0))] [.tracked target]
  let grown := FlowGraph.insert ⟨.root, 6, ∅, ∅⟩ ⟨0⟩ ⟨1⟩ (grow 1)
  ((grown.insert ⟨1⟩ ⟨2⟩ (grow 2)).insert ⟨1⟩ ⟨3⟩ (grow 3)).readFields ⟨2⟩ ⟨4⟩ ⟨5⟩

/-- With a budget of one trace only the first way is reported. -/
theorem grownOnBothWays_cut_short :
    ∃ report report', FlowGraph.grownOnBothWays.check .builtin
        { (default : Settings) with trace := { maxTraces := some 1 } } = .ok report ∧
      report.warnings.map Warning.point = [⟨2⟩] ∧ report.stats.traceBudgetExhausted = true ∧
      FlowGraph.grownOnBothWays.check .builtin default = .ok report' ∧
      report'.warnings.map Warning.point = [⟨2⟩, ⟨3⟩] ∧
      report.warnings <+: report'.warnings ∧ report.stats.conflicts ≤ report'.stats.conflicts := by
  have hsmall : FlowGraph.grownOnBothWays.check .builtin
      { (default : Settings) with trace := { maxTraces := some 1 } } =
        .ok ⟨[⟨⟨2⟩, none, some ⟨.tracked 0, ["a"]⟩, some ⟨.tracked 0, ["a"]⟩⟩],
          ⟨6, 9, 8, 1, true, 2⟩⟩ := by cbv
  have hlarge : FlowGraph.grownOnBothWays.check .builtin default =
      .ok ⟨[⟨⟨2⟩, none, some ⟨.tracked 0, ["a"]⟩, some ⟨.tracked 0, ["a"]⟩⟩,
        ⟨⟨3⟩, none, some ⟨.tracked 0, ["a"]⟩, some ⟨.tracked 0, ["a"]⟩⟩],
          ⟨6, 9, 8, 2, false, 4⟩⟩ := by cbv
  have hbudget : BudgetLe (some 1) none := by
    intro b hb
    cases hb
  rcases smaller_budget_reports_prefix .builtin .grownOnBothWays default (some 1) none hbudget with
    ⟨e, he, -⟩ | ⟨report, report', hreport, hreport', hwarnings, hconflicts, -⟩
  · cases hsmall.symm.trans he
  · obtain rfl := Except.ok.inj (hsmall.symm.trans hreport)
    obtain rfl := Except.ok.inj (hlarge.symm.trans hreport')
    exact ⟨_, _, hsmall, rfl, rfl, hlarge, rfl, hwarnings, hconflicts⟩

end SliceLineage
