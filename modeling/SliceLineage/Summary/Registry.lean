import SliceLineage.Summary.Basic

/-!
# The registry of call summaries

Functions are numbered in the order of their registration, and names are unique. The summaries stand
in the order of their numbers, beside them an index leads from names to numbers
(`FunctionSummaryRegistry` with its fields `summaries` and `by_name`). Two summaries are built in:
growing a slice (`append`) makes the next generation of its first argument, and bounding the
capacity of a slice (`[::]`, which is no identifier) exposes the generation before.
-/

namespace SliceLineage

/-- The summaries of the modelled functions (`FunctionSummaryRegistry`). -/
structure Registry where
  /-- A function is known by its position. -/
  summaries : List Summary
  /-- Function numbers by name, the entry made last first. -/
  byName : List (String × FuncId)

namespace Registry

/-- The growth of a slice. -/
def appendName : String := "append"

/-- The slice expression that bounds the capacity. -/
def sliceName : String := "[::]"

def empty : Registry := ⟨[], []⟩

def size (r : Registry) : Nat := r.summaries.length

def isEmpty (r : Registry) : Bool := r.summaries.isEmpty

/-- One summary more, with its name in the index. -/
def enter (r : Registry) (s : Summary) : Registry where
  summaries := r.summaries ++ [s]
  byName := (s.name, ⟨r.size⟩) :: r.byName

/-- The built-in functions, which are entered without a check (`FunctionSummaryRegistry.new`). -/
def builtin : Registry :=
  [.unaryAlias sliceName .prev, .unaryAlias appendName .next].foldl enter empty

instance : Inhabited Registry := ⟨builtin⟩

/-- The function with this name, by the index. -/
def lookup? (r : Registry) (name : String) : Option FuncId := r.byName.lookup name

def get? (r : Registry) (f : FuncId) : Option Summary := r.summaries[f.index]?

def name? (r : Registry) (f : FuncId) : Option String := (r.get? f).map Summary.name

def slice? (r : Registry) : Option FuncId := r.lookup? sliceName

def append? (r : Registry) : Option FuncId := r.lookup? appendName

/-- A request to add a summary: the answer, and the registry after it. The summary must pass its
check, and its name must be new (`FunctionSummaryRegistry.register`). -/
def register (r : Registry) (s : Summary) : Except AnalysisError FuncId × Registry :=
  match s.check with
  | .error e => (.error e, r)
  | .ok () =>
      if (r.lookup? s.name).isSome then (.error (.summary s.name .alreadyRegistered), r)
      else (.ok ⟨r.size⟩, r.enter s)

/-- Adds summaries one after the other, up to the first that is refused
(`FunctionSummaryRegistry.from_config`). -/
def registerAll (r : Registry) : List Summary → Except AnalysisError Registry
  | [] => .ok r
  | s :: rest =>
      match r.register s with
      | (.ok _, r') => r'.registerAll rest
      | (.error e, _) => .error e

/-- The assignments of a call, one list for each outcome; a function without summary has one
outcome, in which nothing is known about any output. -/
def bindCall (r : Registry) (f : FuncId) (args : List Composition) (outputs : List ValueId) :
    List (List BoundAssignment) :=
  match r.get? f with
  | some s => s.bind args outputs
  | none => [outputs.map fun output => ⟨.blank, .whole output, .same⟩]

end Registry

end SliceLineage
