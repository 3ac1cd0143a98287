import SliceLineage.Source.Span
import SliceLineage.Operation

/-!
# Flow graphs

Control points joined by labelled edges, with one point to start from. The edges that leave a point
keep the order in which they were added, and a point may carry a span of the source.

Edges may name points that were never allocated, run in parallel or return to where they start: only
`Flow.Cursor` keeps to a stricter discipline.
-/

namespace SliceLineage

/-- Control points and the transitions between them (`Execution`). -/
structure FlowGraph where
  root : PointId
  /-- Points with a smaller index are allocated. The counter has no bound here; `Flow.Calls` cuts it
  to 32 bits. -/
  pointCount : Nat
  outgoing : Std.TreeMap PointId (List Transition)
  references : Std.TreeMap PointId Span

namespace FlowGraph

/-- The graph of one point (`Execution.new`). -/
def empty : FlowGraph := ⟨.root, 1, ∅, ∅⟩

instance : Inhabited FlowGraph := ⟨empty⟩

/-- The transitions that leave a point, oldest first (`Execution.transitions_from`). -/
def successors (g : FlowGraph) (p : PointId) : List Transition := g.outgoing.getD p []

/-- All edges, by source point and for each point oldest first (`Execution.edges`). -/
def edges (g : FlowGraph) : List (PointId × Transition) :=
  g.outgoing.toList.flatMap fun entry => entry.2.map (entry.1, ·)

def edgeCount (g : FlowGraph) : Nat := g.edges.length

/-- The span attached to a point (`Execution.reference`). -/
def reference? (g : FlowGraph) (p : PointId) : Option Span := g.references[p]?

def contains (g : FlowGraph) (p : PointId) : Bool := p.index < g.pointCount

def setReference (g : FlowGraph) (p : PointId) (span : Span) : FlowGraph :=
  { g with references := g.references.insert p span }

/-- A new point, with a span if one is given (`Execution.allocate_point`). -/
def allocate (g : FlowGraph) (span : Option Span) : PointId × FlowGraph :=
  let p : PointId := ⟨g.pointCount⟩
  let grown := { g with pointCount := g.pointCount + 1 }
  (p, match span with
      | some s => grown.setReference p s
      | none => grown)

/-- One edge more, after those that leave `source` already (`Execution.insert_transition`). -/
def insert (g : FlowGraph) (source target : PointId) (op : Operation) : FlowGraph :=
  { g with outgoing := g.outgoing.insert source (g.successors source ++ [⟨target, op⟩]) }

/-- There is an edge from `source` to `target` with exactly this operation
(`Execution.has_transition`). -/
def hasEdge (g : FlowGraph) (source target : PointId) (op : Operation) : Bool :=
  (g.successors source).contains ⟨target, op⟩

/-- One line for an edge, ending with the span of its target. -/
def edgeText (g : FlowGraph) (edge : PointId × Transition) : String :=
  edge.1.text ++ " -> " ++ edge.2.target.text ++ ": " ++ edge.2.op.text
    ++ (match g.reference? edge.2.target with
        | some span => "  @" ++ span.text
        | none => "")
    ++ "\n"

/-- All edges, one line each. -/
def text (g : FlowGraph) : String := String.join (g.edges.map g.edgeText)

theorem successors_insert (g : FlowGraph) (source target p : PointId) (op : Operation) :
    (g.insert source target op).successors p =
      if source = p then g.successors p ++ [⟨target, op⟩] else g.successors p := by
  by_cases h : source = p
  · subst h; simp [successors, insert]
  · simp [successors, insert, Std.TreeMap.getD_insert, h]

theorem reference?_setReference (g : FlowGraph) (p q : PointId) (span : Span) :
    (g.setReference p span).reference? q = if p = q then some span else g.reference? q := by
  simp [reference?, setReference, Std.TreeMap.getElem?_insert]

end FlowGraph

end SliceLineage
