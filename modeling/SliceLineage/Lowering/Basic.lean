import SliceLineage.Flow.Cursor
import SliceLineage.Flow.Reachable
import SliceLineage.Lowering.Chain

/-!
# Lowering a rich graph to cells

`FlowGraph.lower` replaces every reachable edge of a rich graph by chains of cell operations between
the *images* of its two ends. Each point of the primitive graph remembers the rich point that it
belongs to: an image its own point, a point inside a chain the point that the edge leads to.
-/

namespace SliceLineage

/-- A primitive graph, and how it relates to the rich graph that it was made from. -/
structure Lowering where
  graph : FlowGraph
  /-- The rich point of each primitive point. -/
  origins : Array PointId
  cells : CellTable
  rules : LeafRules

namespace Lowering

/-- The rich point that a primitive point belongs to (`Lowering.origin_of`). -/
def origin? (l : Lowering) (p : PointId) : Option PointId := l.origins[p.index]?

/-- The leaf region of a cell (`Lowering.selector_of`). -/
def selector? (l : Lowering) (cell : ValueId) : Option Selector := l.cells.selector? cell

/-- A lowering in progress (`Simplifier`). -/
structure Progress where
  cursor : Cursor
  cells : CellTable
  /-- The primitive points of the rich points met so far. -/
  images : List (PointId × PointId)
  origins : Array PointId

/-- Only the root has an image. -/
def Progress.start (rich : FlowGraph) : Progress :=
  let cursor := Cursor.start (rich.reference? rich.root)
  ⟨cursor, .empty, [(rich.root, cursor.current)], #[rich.root]⟩

/-- A step of the lowering. -/
abbrev Lower := StateT Progress (Except AnalysisError)

/-- The image of a rich point, reserved when it is first met (`Simplifier.image`). -/
def image (rich : FlowGraph) (p : PointId) : Lower PointId :=
  modifyGet fun s =>
    match s.images.lookup p with
    | some q => (q, s)
    | none =>
        let (q, cursor) := s.cursor.reserve (rich.reference? p)
        (q, { s with
          cursor, images := s.images ++ [(p, q)], origins := s.origins.push p })

/-- A cell operation that leads to a new point inside a chain (`Simplifier.step`). -/
def inner (rich : FlowGraph) (target : PointId) (op : Operation) : Lower Unit :=
  modify fun s => { s with
    cursor := s.cursor.append op (rich.reference? target), origins := s.origins.push target }

def link (op : Operation) (q : PointId) : Lower Unit := do
  let (answer, cursor) := (← get).cursor.link op q
  modify fun s => { s with cursor }
  answer

def join (q : PointId) : Lower Unit := do
  let (answer, cursor) := (← get).cursor.join q
  modify fun s => { s with cursor }
  answer

def atPoint (q : PointId) : Lower Bool := return (← get).cursor.current = q

/-- Puts a chain between the current point and the image `stop` of `target`
(`Simplifier.emit_chain`). The last operation leads to `stop`; a chain without operations, or one
that would be an edge from a point to itself, ends with an empty edge. -/
def putChain (rich : FlowGraph) (target stop : PointId) : List Operation → Lower Unit
  | [] => do
      if ← atPoint stop then
        inner rich target .noop
      join stop
  | [op] => do
      if ← atPoint stop then
        inner rich target op
        join stop
      else
        link op stop
  | op :: ops => do
      inner rich target op
      putChain rich target stop ops

def moveTo (q : PointId) : Lower Unit :=
  modify fun s => { s with cursor := s.cursor.moveTo q }

/-- Puts the chains of an operation side by side between two images. -/
def putChains (rich : FlowGraph) (start stop target : PointId) :
    List (List Operation) → Lower Unit
  | [] => return
  | chain :: rest => do
      moveTo start
      putChain rich target stop chain
      putChains rich start stop target rest

/-- The chains of an operation, with their cells numbered. -/
def chains (registry : Registry) (rules : LeafRules) (op : Operation) :
    Lower (List (List Operation)) := do
  let s ← get
  let (result, cells) ← (CellM.chains registry rules op).run s.cells
  set { s with cells }
  return result

/-- Lowers one edge (`Simplifier.lower_transition`). -/
def edge (registry : Registry) (rules : LeafRules) (rich : FlowGraph)
    (e : PointId × Transition) : Lower Unit := do
  let start ← image rich e.1
  let stop ← image rich e.2.target
  let result ← chains registry rules e.2.op
  putChains rich start stop e.2.target result

/-- Lowers edges one after the other (`Simplifier.run`). -/
def edges (registry : Registry) (rules : LeafRules) (rich : FlowGraph) :
    List (PointId × Transition) → Lower Unit
  | [] => return
  | e :: rest => do
      edge registry rules rich e
      edges registry rules rich rest

end Lowering

namespace FlowGraph

/-- The edges that leave reachable points, nearer points first. -/
def reachableEdges (g : FlowGraph) : List (PointId × Transition) :=
  g.reachable.flatMap fun p => (g.successors p).map (p, ·)

/-- The primitive graph of a rich graph (`simplify`). Paths of fields are followed up to length
`depth`. -/
def lower (registry : Registry) (depth : Nat) (rich : FlowGraph) :
    Except AnalysisError Lowering := do
  let rules := leafRules depth (rich.assignments registry)
  let (_, s) ← (Lowering.edges registry rules rich rich.reachableEdges).run (.start rich)
  return ⟨s.cursor.graph, s.origins, s.cells, rules⟩

end FlowGraph

end SliceLineage
