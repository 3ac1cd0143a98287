import SliceLineage.Source.Span
import SliceLineage.Operation
import SliceLineage.Settings.Error

/-!
# What can go wrong in an analysis

An analysis fails on a tree that is not well shaped (`InputFault`), on a call summary that makes no
sense (`SummaryFault`), on refused settings, or because one stage hands the next something it must
not (`Inconsistency`). The wording of each cause is in one `message` function.
-/

namespace SliceLineage

/-- What is wrong with a source tree. -/
inductive InputFault where
  | malformedExpr
  | malformedStmt
  /-- An expression of one value stands where `expected` values are needed. -/
  | singleValued (expected : Nat)
  /-- An else branch is neither a block nor an if statement. -/
  | elseBranch
  /-- A range statement defines something other than a name. -/
  | rangeBinding
  /-- The number of values fits the targets in no way. -/
  | valueCount (values targets : Nat)
  /-- An expression that was asked for one value gave none. -/
  | noValue
  /-- The expressions gave another number of values than there are targets. -/
  | yieldCount (values targets : Nat)
  deriving DecidableEq

def InputFault.message : InputFault → String
  | malformedExpr => "malformed expression"
  | malformedStmt => "malformed statement"
  | singleValued expected =>
      "single-valued expression used where " ++ expected.repr ++ " values are expected"
  | elseBranch => "else branch must be a block or an if statement"
  | rangeBinding => "range definition must bind identifiers"
  | valueCount values targets =>
      values.repr ++ " values assigned to " ++ targets.repr ++ " targets"
  | noValue => "expression produced no value"
  | yieldCount values targets =>
      "expression yields " ++ values.repr ++ " values for " ++ targets.repr ++ " targets"

/-- What is wrong with a call summary. -/
inductive SummaryFault where
  | emptyName
  | noOutcomes
  /-- An outcome differs from the first one in its number of outputs. -/
  | outputCount (outcome outputs expected : Nat)
  /-- An output takes over an input region that is not declared. -/
  | undeclaredInput (outcome output : Nat) (arg component : UInt64)
  | alreadyRegistered
  deriving DecidableEq

def SummaryFault.message : SummaryFault → String
  | emptyName => "empty name"
  | noOutcomes => "no outcomes"
  | outputCount outcome outputs expected =>
      "outcome " ++ outcome.repr ++ " has " ++ outputs.repr ++ " outputs, expected "
        ++ expected.repr
  | undeclaredInput outcome output arg component =>
      "outcome " ++ outcome.repr ++ " output " ++ output.repr ++ " refers to undeclared input "
        ++ arg.toNat.repr ++ ":" ++ component.toNat.repr
  | alreadyRegistered => "already registered"

/-- Something that one stage must never hand to another. -/
inductive Inconsistency where
  /-- An edge from a point to itself, where only edges to other points are made. -/
  | selfEdge (point : PointId) (op : Operation)
  /-- No leaf of the value lies at or below the selector. -/
  | uncovered (selector : Selector)
  /-- A cell operation in a graph that should hold field regions. -/
  | cellOperation (op : Operation)
  /-- The two sides of an assignment have different numbers of leaves. -/
  | leafCounts (source target : Selector) (sources targets : Nat)
  /-- No leaf of the source corresponds to this leaf of the target. -/
  | unmatchedLeaf (source target : Selector)
  /-- A field operation in a trace that should hold cells. -/
  | regionOperation (op : Operation)
  deriving DecidableEq

def Inconsistency.message : Inconsistency → String
  | selfEdge point op => "self edge requested at " ++ point.text ++ " for " ++ op.kind
  | uncovered selector =>
      "no factorization leaf of " ++ selector.value.text ++ " covers " ++ selector.text
  | cellOperation op => "primitive operation in rich execution: " ++ op.text
  | leafCounts source target sources targets =>
      "inconsistent factorization for " ++ target.text ++ " = " ++ source.text ++ ": "
        ++ targets.repr ++ " target leaves, " ++ sources.repr ++ " source leaves"
  | unmatchedLeaf source target =>
      "no source leaf of " ++ source.text ++ " matches " ++ target.text
  | regionOperation op => op.kind ++ " edge reached the generation validator"

/-- Why an analysis failed. -/
inductive AnalysisError where
  | input (span : Span) (fault : InputFault)
  | summary (function : String) (fault : SummaryFault)
  | settings (error : SettingsError)
  | internal (fault : Inconsistency)
  deriving DecidableEq

namespace AnalysisError

def message : AnalysisError → String
  | input span fault => "Invalid input at " ++ span.text ++ ": " ++ fault.message
  | summary function fault => "Invalid summary for '" ++ function ++ "': " ++ fault.message
  | settings error => error.message
  | internal fault => "Internal consistency violation: " ++ fault.message

/-- Whoever supplied the tree or the summary can mend the error (`AnalysisError.is_input_error`). -/
def isInputError : AnalysisError → Bool
  | input .. | summary .. => true
  | settings _ | internal _ => false

end AnalysisError

end SliceLineage
