/-!
# Source positions

* `Location`: a line and a column, ordered line first.
* `Span`: the region between two locations; a span is shown by where it starts.
-/

namespace SliceLineage

/-- A position in a source text. -/
structure Location where
  line : UInt32
  column : UInt32
  deriving DecidableEq, Inhabited

/-- Locations are ordered by line, then by column. -/
def Location.before (a b : Location) : Bool :=
  a.line < b.line || (a.line == b.line && a.column < b.column)

/-- `a` is at `b` or earlier. -/
def Location.notAfter (a b : Location) : Bool := !b.before a

/-- The region of a source text that a tree node covers. The default span is all zero. -/
structure Span where
  startLine : UInt32
  startCol : UInt32
  endLine : UInt32
  endCol : UInt32
  deriving DecidableEq, Inhabited

namespace Span

/-- The first column of one line (`Span.line`). -/
def ofLine (line : UInt32) : Span := ⟨line, 1, line, 1⟩

def start (s : Span) : Location := ⟨s.startLine, s.startCol⟩

def stop (s : Span) : Location := ⟨s.endLine, s.endCol⟩

/-- `outer` starts no later and ends no earlier than `inner`. -/
def contains (outer inner : Span) : Bool :=
  outer.start.notAfter inner.start && inner.stop.notAfter outer.stop

/-- A span is shown as `line:column` of its start. -/
def text (s : Span) : String :=
  s.startLine.toNat.repr ++ ":" ++ s.startCol.toNat.repr

end Span

end SliceLineage
