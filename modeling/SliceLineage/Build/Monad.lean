import SliceLineage.Flow.Cursor
import SliceLineage.Scope

/-!
# Steps of graph construction

The graph of a function is built by walking over its tree. What the walk changes is a `BuildState`:
the graph with its current point, and the names in scope. The steps here are the only ways in which
the walk touches either.
-/

namespace SliceLineage

/-- The graph built so far and the names in scope (`ExecutionFromSyntax`). -/
structure BuildState where
  cursor : Cursor
  scopes : Scopes

/-- A construction step: it changes the state, or fails. -/
abbrev Build := StateT BuildState (Except AnalysisError)

namespace Build

/-- The point where the graph grows. -/
def current : Build PointId := return (← get).cursor.current

def moveTo (p : PointId) : Build Unit :=
  modify fun s => { s with cursor := s.cursor.moveTo p }

def append (op : Operation) (span : Span) : Build Unit :=
  modify fun s => { s with cursor := s.cursor.append op (some span) }

def reserve (span : Span) : Build PointId :=
  modifyGet fun s =>
    let (p, cursor) := s.cursor.reserve (some span)
    (p, { s with cursor })

def join (p : PointId) : Build Unit := do
  let (answer, cursor) := (← get).cursor.join p
  modify fun s => { s with cursor }
  answer

def detach : Build Unit :=
  modify fun s => { s with cursor := s.cursor.detach }

/-- Closes a loop to its anchor, unless the current point is the anchor
(`ExecutionFromSyntax.close_loop`). -/
def closeLoop (anchor : PointId) : Build Unit := do
  unless (← current) = anchor do
    join anchor

def lookup? (name : String) : Build (Option ValueId) := return (← get).scopes.lookup? name

def lookup (name : String) : Build ValueId := return (← get).scopes.lookup name

def fresh : Build ValueId :=
  modifyGet fun s =>
    let (value, scopes) := s.scopes.fresh
    (value, { s with scopes })

def freshMany (n : Nat) : Build (List ValueId) :=
  modifyGet fun s =>
    let (values, scopes) := s.scopes.freshMany n
    (values, { s with scopes })

def declare (name : String) : Build ValueId :=
  modifyGet fun s =>
    let (value, scopes) := s.scopes.declare name
    (value, { s with scopes })

/-- Runs a step with a frame of its own. -/
def inFrame (step : Build Unit) : Build Unit := do
  modify fun s => { s with scopes := s.scopes.push }
  step
  modify fun s => { s with scopes := s.scopes.pop }

/-- A copy of one region to another; between two blank regions there is nothing to copy. -/
def copy (source target : Selector) (span : Span) : Build Unit :=
  unless source.isBlank && target.isBlank do
    append (.assign source target) span

/-- The target becomes what the composition says, one copy for each embed
(`ExecutionFromSyntax.emit_composition`). -/
def store (target : Selector) (c : Composition) (span : Span) : Build Unit :=
  if c.isUnknown then copy .blank target span
  else c.embeds.forM fun e => copy e.selector (target.extend e.path) span

/-- One arm of a branching statement: after the setup the arm leaves the current point, runs to
`after`, and the walk is back where the arm began. -/
def arm (after : PointId) (setup body : Build Unit) : Build Unit := do
  setup
  let fork ← current
  body
  join after
  moveTo fork

end Build

end SliceLineage
