import SliceLineage.Analysis
import SliceLineage.Json.Graph
import SliceLineage.Json.Text

/-!
# Reports as JSON

Conflicts, warnings and statistics, and the records in which the results of functions are kept: a
`ReportRecord` adds to a report the time that it took, an `OutcomeRecord` holds a report or the text
of an error.
-/

namespace SliceLineage

namespace Origin

def toJson : Origin → Json
  | value cell => .obj [("value", cell.toJson)]
  | fresh number => .obj [("fresh", .nat number)]

def ofJson? : Json → Option Origin
  | .obj [("value", k)] => (ValueId.ofJson? k).map value
  | .obj [("fresh", k)] => (k.natBelow? UInt32.size).map fresh
  | _ => none

end Origin

def Conflict.toJson (c : Conflict) : Json :=
  .obj [("point", c.point.toJson), ("origin", c.origin.toJson),
    ("origin_text", .str c.origin.text), ("source", c.source.toJson)]

namespace Warning

/-- The members of a warning. -/
def members (w : Warning) : List (String × Json) :=
  [("point", w.point.toJson), ("span", .opt Span.toJson w.span),
    ("origin", .opt Selector.toJson w.origin), ("value", .opt Selector.toJson w.value)]

def toJson (w : Warning) : Json := .obj w.members

def ofJson? (j : Json) : Option Warning := do
  let point ← j.get? "point" fun k _ => PointId.ofJson? k
  let span ← j.getOpt? "span" fun k _ => Span.ofJson? k
  let origin ← j.getOpt? "origin" fun k _ => Selector.ofJson? k
  let value ← j.getOpt? "value" fun k _ => Selector.ofJson? k
  return ⟨point, span, origin, value⟩

end Warning

namespace CheckStats

def toJson (s : CheckStats) : Json :=
  .obj [("rich_points", .nat s.richPoints), ("primitive_points", .nat s.primitivePoints),
    ("primitive_transitions", .nat s.primitiveTransitions), ("traces", .nat s.traces),
    ("trace_budget_exhausted", .bool s.traceBudgetExhausted), ("conflicts", .nat s.conflicts)]

def ofJson? (j : Json) : Option CheckStats := do
  let count (name : String) : Option Nat := j.get? name fun k _ => k.natBelow? UInt64.size
  let richPoints ← count "rich_points"
  let primitivePoints ← count "primitive_points"
  let primitiveTransitions ← count "primitive_transitions"
  let traces ← count "traces"
  let exhausted ← j.get? "trace_budget_exhausted" fun k _ => k.bool?
  let conflicts ← count "conflicts"
  return ⟨richPoints, primitivePoints, primitiveTransitions, traces, exhausted, conflicts⟩

end CheckStats

/-- The members of a report. -/
def FunctionReport.members (r : FunctionReport) : List (String × Json) :=
  [("function", .str r.function), ("span", r.span.toJson),
    ("warnings", .list Warning.toJson r.warnings), ("stats", r.stats.toJson)]

/-- A report and the time that it took (`FunctionReport`). -/
structure ReportRecord where
  report : FunctionReport
  durationMs : Decimal

namespace ReportRecord

def toJson (r : ReportRecord) : Json :=
  .obj (r.report.members ++ [("duration_ms", .real r.durationMs)])

def ofJson? (j : Json) : Option ReportRecord := do
  let function ← j.get? "function" fun k _ => k.string?
  let span ← j.get? "span" fun k _ => Span.ofJson? k
  let warnings ← j.get? "warnings" fun k _ => k.items? fun k _ => Warning.ofJson? k
  let stats ← j.get? "stats" fun k _ => CheckStats.ofJson? k
  let durationMs ← j.get? "duration_ms" fun k _ => k.decimal?
  return ⟨⟨function, span, warnings, stats⟩, durationMs⟩

/-- The record as a text of several lines (`FunctionReport.to_json`). -/
def text (r : ReportRecord) : String := r.toJson.pretty

end ReportRecord

/-- What is kept of the analysis of a function (`FunctionOutcome`). -/
structure OutcomeRecord where
  function : String
  report : Option ReportRecord
  error : Option String

namespace OutcomeRecord

def toJson (o : OutcomeRecord) : Json :=
  .obj ([("function", .str o.function)]
    ++ (o.report.map fun r => ("report", r.toJson)).toList
    ++ (o.error.map fun e => ("error", .str e)).toList)

def ofJson? (j : Json) : Option OutcomeRecord := do
  let function ← j.get? "function" fun k _ => k.string?
  let report ← j.getOpt? "report" fun k _ => ReportRecord.ofJson? k
  let error ← j.getOpt? "error" fun k _ => k.string?
  return ⟨function, report, error⟩

end OutcomeRecord

/-- A function's report or the text of its error. -/
def FunctionOutcome.members (o : FunctionOutcome) : List (String × Json) :=
  [("function", .str o.function), match o.result with
    | .ok report => ("report", .obj report.members)
    | .error e => ("error", .str e.message)]

end SliceLineage
