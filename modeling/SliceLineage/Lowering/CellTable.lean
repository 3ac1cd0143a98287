import SliceLineage.Selector

/-!
# Cells

A primitive graph knows single cells instead of values with fields: one cell for each leaf region.
The `CellTable` numbers the leaf regions in the order in which they are first met. It has a list of
the regions, to get from a cell to its region, and beside it an index to get from a region to its
cell (`ValueTable` with its fields `selectors` and `ids`). A region of the blank value has the blank
cell and is in neither.
-/

namespace SliceLineage

/-- The leaf regions met so far (`ValueTable`). -/
structure CellTable where
  /-- Cells by region, the entry made last first. -/
  ids : List (Selector × ValueId)
  /-- A cell is known by its position. -/
  selectors : List Selector

namespace CellTable

def empty : CellTable := ⟨[], []⟩

instance : Inhabited CellTable := ⟨empty⟩

def size (t : CellTable) : Nat := t.selectors.length

def isEmpty (t : CellTable) : Bool := t.selectors.isEmpty

/-- The cell of a region that was met before, by the index (`ValueTable.get`). -/
def get? (t : CellTable) (s : Selector) : Option ValueId := t.ids.lookup s

/-- The region of a cell, by the list (`ValueTable.selector_of`). -/
def selector? (t : CellTable) : ValueId → Option Selector
  | .blank => none
  | .tracked cell => t.selectors[cell]?

/-- One region more, under the next number. -/
def enter (t : CellTable) (s : Selector) : CellTable where
  ids := (s, .tracked t.size) :: t.ids
  selectors := t.selectors ++ [s]

/-- The cell of a region; a region that was not met before gets the next number
(`ValueTable.intern`). -/
def intern (t : CellTable) (s : Selector) : ValueId × CellTable :=
  if s.isBlank then (.blank, t)
  else match t.get? s with
    | some cell => (cell, t)
    | none => (.tracked t.size, t.enter s)

end CellTable

end SliceLineage
