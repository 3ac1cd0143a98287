import SliceLineage.Flow.Graph
import SliceLineage.Leaves.Closure
import SliceLineage.Lowering.CellTable
import SliceLineage.Summary.Registry

/-!
# Cell operations of a rich operation

An assignment of field regions becomes a chain of moves between cells, one for each leaf, and a call
becomes one such chain for each outcome of its summary. The leaves of the two sides of an assignment
are paired by what follows the path of their side.
-/

namespace SliceLineage

/-- A computation that numbers cells on its way. -/
abbrev CellM := StateT CellTable (Except AnalysisError)

namespace CellM

def intern (s : Selector) : CellM ValueId := modifyGet (·.intern s)

/-- The two leaf lists of an assignment may differ: it stays within one value, or paths were cut. -/
def lenient (rules : LeafRules) (source target : Selector) : Bool :=
  source.value == target.value || rules.truncated

/-- The leaf below `source` that corresponds to a leaf below `target`. -/
def partner? (source target : Selector) (sources : List Selector) (leaf : Selector) :
    Option Selector :=
  let suffix := leaf.path.drop target.path.length
  sources.find? fun s => source.path.below? s.path == some suffix

/-- The move into one leaf of the target. A leaf without partner is filled with something unknown,
if that is tolerated. -/
def moveInto (rules : LeafRules) (source target : Selector) (step : GenStep)
    (sources : List Selector) (leaf : Selector) : CellM Operation := do
  let origin ← match partner? source target sources leaf with
    | some s => intern s
    | none =>
        if lenient rules source target then pure ValueId.blank
        else throw (.internal (.unmatchedLeaf source leaf))
  let cell ← intern leaf
  return .move origin cell step

/-- The moves of an assignment between two followed regions. -/
def moves (rules : LeafRules) (source target : Selector) (step : GenStep) :
    CellM (List Operation) := do
  let sources ← rules.expand source
  let targets ← rules.expand target
  if !lenient rules source target && sources.length != targets.length then
    throw (.internal (.leafCounts source target sources.length targets.length))
  targets.mapM (moveInto rules source target step sources)

/-- The cell operations of one assignment (`Simplifier.lower_assignment`). From blank, every leaf of
the target becomes unknown; into blank, every leaf of the source is read. -/
def assignment (rules : LeafRules) (source target : Selector) (step : GenStep) :
    CellM (List Operation) := do
  match source.isBlank, target.isBlank with
  | true, true => return []
  | true, false =>
      (← rules.expand target).mapM fun leaf => return .move .blank (← intern leaf) step
  | false, true =>
      (← rules.expand source).mapM fun leaf => return .move (← intern leaf) .blank step
  | false, false => moves rules source target step

/-- The cell operations of assignments one after the other (`Simplifier.lower_call`). -/
def assignments (rules : LeafRules) : List BoundAssignment → CellM (List Operation)
  | [] => return []
  | a :: rest => do
      let first ← assignment rules a.source a.target a.step
      let others ← assignments rules rest
      return first ++ others

/-- The cells of a returned value. -/
def returned (rules : LeafRules) (value : ValueId) : CellM (List ValueId) := do
  if value.isBlank then return [.blank]
  (← rules.expand (.whole value)).mapM intern

/-- The chains of cell operations of a rich operation, one for each way in which it can go
(`Simplifier.chains`). -/
def chains (registry : Registry) (rules : LeafRules) : Operation → CellM (List (List Operation))
  | .assign source target => return [← assignment rules source target .same]
  | .call func inputs outputs =>
      (registry.bindCall func inputs outputs).mapM (assignments rules)
  | .ret values => return [[.ret (← values.mapM (returned rules)).flatten]]
  | .noop => return [[]]
  | .move source target step => throw (.internal (.cellOperation (.move source target step)))

end CellM

/-- The assignments that the edges of a graph perform, calls included (`collect_assignments`). -/
def FlowGraph.assignments (registry : Registry) (g : FlowGraph) : List Assignment :=
  g.edges.flatMap fun edge =>
    match edge.2.op with
    | .assign source target => [⟨source, target⟩]
    | .call func inputs outputs =>
        (registry.bindCall func inputs outputs).flatten.map fun a => ⟨a.source, a.target⟩
    | .ret _ | .noop | .move .. => []

end SliceLineage
