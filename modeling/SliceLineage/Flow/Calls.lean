import SliceLineage.Flow.Cursor

/-!
# Calls to a cursor

A graph counts its points in 32 bits. The graph of a function that was read from a text, and the
graph that it is lowered to, have far fewer points than that, and the counter of `FlowGraph` has no
bound. A cursor can also be called directly, and nothing bounds the number of calls: here the
counter is cut to 32 bits after each call that makes a point.
-/

namespace SliceLineage

/-- A call that extends the graph of a cursor or moves the cursor. -/
inductive CursorCall where
  | append (op : Operation) (span : Option Span)
  | link (op : Operation) (target : PointId)
  | join (target : PointId)
  | reserve (span : Option Span)
  | moveTo (target : PointId)
  | detach

namespace Cursor

/-- The counter of points in 32 bits: after `2 ^ 32` points it is back at zero
(`Execution.point_count`). -/
def narrow (c : Cursor) : Cursor :=
  { c with graph := { c.graph with pointCount := c.graph.pointCount.toUInt32.toNat } }

/-- Makes a call. It answers with the new point if it is asked for one, and leaves a cursor whatever
the answer is. -/
def perform (c : Cursor) : CursorCall → Except AnalysisError (Option PointId) × Cursor
  | .append op span =>
      let next := c.append op span
      (.ok (some next.current), next.narrow)
  | .link op target =>
      let (answer, next) := c.link op target
      (answer.map fun _ => none, next)
  | .join target =>
      let (answer, next) := c.join target
      (answer.map fun _ => none, next)
  | .reserve span =>
      let (p, next) := c.reserve span
      (.ok (some p), next.narrow)
  | .moveTo target => (.ok none, c.moveTo target)
  | .detach => (.ok none, c.detach.narrow)

/-- The cursor after a call. -/
def after (c : Cursor) (call : CursorCall) : Cursor := (c.perform call).2

end Cursor

end SliceLineage
