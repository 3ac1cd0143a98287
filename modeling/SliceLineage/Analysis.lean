import SliceLineage.Build.Stmt
import SliceLineage.Check.Report

/-!
# Analysing functions

* `FunctionDecl.analyze`: builds the graph of one function and checks it.
* `analyzeAll`: a batch of functions, each of which succeeds or fails on its own.
* `analyzeChecked`: the same, after the settings were checked and their summaries registered.
-/

namespace SliceLineage

/-- What the analysis of a function found. -/
structure FunctionReport where
  function : String
  span : Span
  warnings : List Warning
  stats : CheckStats
  deriving DecidableEq

def FunctionReport.hasWarnings (r : FunctionReport) : Bool := !r.warnings.isEmpty

/-- A function's report, or why it has none. -/
structure FunctionOutcome where
  function : String
  result : Except AnalysisError FunctionReport

/-- The built-in functions and those that the settings add
(`FunctionSummaryRegistry.from_config`). -/
def Settings.registry (s : Settings) : Except AnalysisError Registry :=
  Registry.builtin.registerAll s.summaries

/-- Builds the graph of a function and checks it (`analyze_function`). -/
def FunctionDecl.analyze (registry : Registry) (settings : Settings) (f : FunctionDecl) :
    Except AnalysisError FunctionReport := do
  let graph ← f.graph registry
  let report ← graph.check registry settings
  return ⟨f.name, f.span, report.warnings, report.stats⟩

/-- Analyses each function on its own (`analyze_functions`). -/
def analyzeAll (registry : Registry) (settings : Settings) (functions : List FunctionDecl) :
    List FunctionOutcome :=
  functions.map fun f => ⟨f.name, f.analyze registry settings⟩

/-- Checks the settings, registers their summaries and analyses each function
(`analyze_with_config`). -/
def analyzeChecked (settings : Settings) (functions : List FunctionDecl) :
    Except AnalysisError (List FunctionOutcome) := do
  settings.check.mapError AnalysisError.settings
  let registry ← settings.registry
  return analyzeAll registry settings functions

end SliceLineage
