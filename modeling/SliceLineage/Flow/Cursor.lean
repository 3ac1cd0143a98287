import SliceLineage.Error
import SliceLineage.Flow.Graph

/-!
# A graph under construction

A `Cursor` is a graph and the point at which it is being extended. Appending an operation makes a
new point and moves there; linking and joining close an edge to a point that exists already. To
branch, remember the current point and move back to it later. A call that can fail returns its
answer and the cursor after it, also when the answer is an error.

The cursor never makes an edge from a point to itself, and never a second empty edge between the
same two points.
-/

namespace SliceLineage

/-- A graph and the point where it grows (`ExecutionBuilder`). -/
structure Cursor where
  graph : FlowGraph
  current : PointId

namespace Cursor

/-- A new graph of one point, which carries the span if there is one (`ExecutionBuilder.new`). -/
def start (span : Option Span) : Cursor :=
  let graph := match span with
    | some s => FlowGraph.empty.setReference FlowGraph.empty.root s
    | none => FlowGraph.empty
  ⟨graph, graph.root⟩

instance : Inhabited Cursor := ⟨start none⟩

/-- `ExecutionBuilder.set_current`. -/
def moveTo (c : Cursor) (p : PointId) : Cursor := { c with current := p }

/-- A new point that no edge leads to yet (`ExecutionBuilder.acquire_point`). -/
def reserve (c : Cursor) (span : Option Span) : PointId × Cursor :=
  let (p, graph) := c.graph.allocate span
  (p, { c with graph })

/-- `op` leads to a new point, which becomes the current one (`ExecutionBuilder.apply`). -/
def append (c : Cursor) (op : Operation) (span : Option Span) : Cursor :=
  let (p, graph) := c.graph.allocate span
  ⟨graph.insert c.current p op, p⟩

/-- `op` leads to a point that exists, which becomes the current one
(`ExecutionBuilder.apply_to`). -/
def link (c : Cursor) (op : Operation) (target : PointId) : Except AnalysisError Unit × Cursor :=
  if target = c.current then (.error (.internal (.selfEdge target op)), c)
  else (.ok (), ⟨c.graph.insert c.current target op, target⟩)

/-- An empty edge leads to a point that exists; an empty edge that is there already is reused
(`ExecutionBuilder.connect_to`). -/
def join (c : Cursor) (target : PointId) : Except AnalysisError Unit × Cursor :=
  if c.graph.hasEdge c.current target .noop then (.ok (), c.moveTo target)
  else c.link .noop target

/-- Goes on at a new point that nothing leads to (`ExecutionBuilder.detach`). -/
def detach (c : Cursor) : Cursor :=
  let (p, c) := c.reserve none
  c.moveTo p

end Cursor

end SliceLineage
