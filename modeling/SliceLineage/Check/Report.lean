import SliceLineage.Check.Ledger
import SliceLineage.Flow.Trace
import SliceLineage.Lowering.Basic
import SliceLineage.Settings.Basic

/-!
# Checking a graph

`FlowGraph.check` lowers a rich graph, replays the bounded traces of the primitive graph, and
reports the conflicts that it meets as warnings about points of the rich graph. Of several conflicts
at one point only the first is reported, first in the order of the traces.
-/

namespace SliceLineage

/-- A growth of a slice that may share its storage with an earlier growth (`ValidationWarning`). -/
structure Warning where
  point : PointId
  span : Option Span
  /-- The region whose slice both growths go back to, if it is followed. -/
  origin : Option Selector
  /-- The region that is grown. -/
  value : Option Selector
  deriving DecidableEq

def Warning.text (w : Warning) : String :=
  let place := match w.span with
    | some span => span.text
    | none => w.point.text
  let value := match w.value with
    | some s => " of " ++ s.text
    | none => ""
  let origin := match w.origin with
    | some s => " (origin " ++ s.text ++ ")"
    | none => ""
  place ++ ": append result may share backing storage with an earlier append" ++ value ++ origin

/-- What a check took (`ValidationStats`). -/
structure CheckStats where
  richPoints : Nat
  primitivePoints : Nat
  primitiveTransitions : Nat
  traces : Nat
  traceBudgetExhausted : Bool
  /-- Number of conflicts in all traces, before any are left out as repetitions. -/
  conflicts : Nat
  deriving DecidableEq, Inhabited

structure CheckReport where
  warnings : List Warning
  stats : CheckStats
  deriving DecidableEq

/-- The conflicts met so far: how many, and the first at each primitive point. -/
structure Findings where
  total : Nat := 0
  first : List Conflict := []

namespace Findings

def add (f : Findings) (c : Conflict) : Findings :=
  { total := f.total + 1
    first := if f.first.any (·.point == c.point) then f.first else f.first ++ [c] }

/-- Adds the conflicts of one trace. -/
def addTrace (f : Findings) (trace : Trace) : Except AnalysisError Findings := do
  return (← traceConflicts trace).foldl add f

end Findings

namespace Lowering

/-- The rich point to report for a primitive point. -/
def richPoint (l : Lowering) (p : PointId) : PointId := (l.origin? p).getD p

/-- The warning for a conflict. -/
def warning (l : Lowering) (rich : FlowGraph) (c : Conflict) : Warning :=
  let point := l.richPoint c.point
  { point
    span := rich.reference? point
    origin := match c.origin with
      | .value cell => l.selector? cell
      | .fresh _ => none
    value := l.selector? c.source }

/-- The warnings for conflicts, the first only for each rich point that was not reported before
(`map_back`). -/
def warnings (l : Lowering) (rich : FlowGraph) (reported : List PointId) :
    List Conflict → List Warning
  | [] => []
  | c :: rest =>
      if l.richPoint c.point ∈ reported then warnings l rich reported rest
      else l.warning rich c :: warnings l rich (l.richPoint c.point :: reported) rest

end Lowering

namespace FlowGraph

/-- The warnings about a rich graph (`check_execution`). -/
def check (registry : Registry) (settings : Settings) (rich : FlowGraph) :
    Except AnalysisError CheckReport := do
  let l ← rich.lower registry settings.paths.maxPathDepth.toNat
  let (findings, stats) ← l.graph.forEachTrace settings.trace.repeatLimit.toNat
    (settings.trace.maxTraces.map UInt64.toNat) Findings.addTrace {}
  return {
    warnings := l.warnings rich [] findings.first
    stats := {
      richPoints := rich.pointCount
      primitivePoints := l.graph.pointCount
      primitiveTransitions := l.graph.edgeCount
      traces := stats.traces
      traceBudgetExhausted := stats.budgetExhausted
      conflicts := findings.total } }

/-- Only the warnings about a rich graph (`validate_execution`). -/
def warnings (registry : Registry) (settings : Settings) (rich : FlowGraph) :
    Except AnalysisError (List Warning) :=
  CheckReport.warnings <$> rich.check registry settings

end FlowGraph

end SliceLineage
