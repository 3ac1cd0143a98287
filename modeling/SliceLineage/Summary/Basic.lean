import SliceLineage.Error

/-!
# Call summaries

A `Summary` says what a call makes of its arguments. It has one `Outcome` for each way in which the
callee can end; an outcome says for each output which of its regions are copies of which input
regions, and how far the generation moves.

* `Summary.check`: the faults for which a summary is refused.
* `Summary.bind`: the assignments that a call performs, one list for each outcome.
-/

namespace SliceLineage

/-- An input region: the argument and one of the components declared for it. -/
structure InputRef where
  arg : UInt64
  component : UInt64
  deriving DecidableEq

/-- The regions of one argument that outputs may refer to. -/
structure InputSlot where
  components : List FieldPath
  deriving DecidableEq

/-- A region of an output: a copy of an input region, or a fresh value if there is no source. -/
structure OutputComponent where
  path : FieldPath
  source : Option InputRef
  step : GenStep
  deriving DecidableEq

/-- The regions of one output. -/
structure OutputSlot where
  components : List OutputComponent
  deriving DecidableEq

/-- One way in which a call can end. -/
structure Outcome where
  outputs : List OutputSlot
  deriving DecidableEq

/-- The effect of a function on the values given to it (`FunctionSummary`). -/
structure Summary where
  name : String
  inputs : List InputSlot
  outcomes : List Outcome
  deriving DecidableEq

/-- An assignment performed by a call. -/
structure BoundAssignment where
  source : Selector
  target : Selector
  step : GenStep
  deriving DecidableEq

/-- An argument that is only used as a whole. -/
def InputSlot.whole : InputSlot := ⟨[[]]⟩

/-- A whole output that is a copy of a whole argument (`OutputComponent.from_input`). -/
def OutputComponent.ofInput (arg : UInt64) (step : GenStep) : OutputComponent :=
  ⟨[], some ⟨arg, 0⟩, step⟩

/-- A whole output that is a new value. -/
def OutputComponent.fresh : OutputComponent := ⟨[], none, .same⟩

namespace Summary

/-- A function of one argument and one result, the result a copy of the argument
(`FunctionSummary.unary_alias`). -/
def unaryAlias (name : String) (step : GenStep) : Summary :=
  ⟨name, [.whole], [⟨[⟨[.ofInput 0 step]⟩]⟩]⟩

/-- Number of outputs; a checked summary has the same number in each outcome
(`FunctionSummary.output_count`). -/
def outputCount (s : Summary) : Nat :=
  match s.outcomes with
  | [] => 0
  | first :: _ => first.outputs.length

/-- The path of a declared input region. -/
def inputPath? (s : Summary) (ref : InputRef) : Option FieldPath :=
  match s.inputs[ref.arg.toNat]? with
  | some slot => slot.components[ref.component.toNat]?
  | none => none

/-- The input regions that an outcome refers to without their being declared, with the output that
refers to them. -/
def undeclaredInputs (s : Summary) (o : Outcome) : List (Nat × InputRef) :=
  o.outputs.zipIdx.flatMap fun (slot, output) =>
    (slot.components.filterMap OutputComponent.source).filterMap fun ref =>
      if (s.inputPath? ref).isNone then some (output, ref) else none

/-- The first fault of one outcome. -/
def outcomeFault? (s : Summary) (position : Nat) (o : Outcome) : Option SummaryFault :=
  if o.outputs.length ≠ s.outputCount then
    some (.outputCount position o.outputs.length s.outputCount)
  else
    (s.undeclaredInputs o).head?.map fun (output, ref) =>
      .undeclaredInput position output ref.arg ref.component

/-- The first fault of a summary that has a name and an outcome. -/
def fault? (s : Summary) : Option SummaryFault :=
  if s.outcomes.isEmpty then some .noOutcomes
  else s.outcomes.zipIdx.findSome? fun (o, position) => s.outcomeFault? position o

/-- Refuses a summary that has no name, no outcome, outcomes with different numbers of outputs, or
an output that refers to an undeclared input region (`FunctionSummary.validate`). -/
def check (s : Summary) : Except AnalysisError Unit :=
  if s.name = "" then .error (.summary "<unnamed>" .emptyName)
  else match s.fault? with
    | some fault => .error (.summary s.name fault)
    | none => .ok ()

/-- What an output component is made of at a call with these arguments
(`FunctionSummary.select_input`). -/
def supply (s : Summary) (args : List Composition) (c : OutputComponent) : Composition :=
  match c.source with
  | none => .blank
  | some ref =>
      match args[ref.arg.toNat]?, s.inputPath? ref with
      | some arg, some path => arg.selectPath path
      | _, _ => .blank

/-- The assignments to one component of one output. -/
def bindComponent (s : Summary) (args : List Composition) (output : ValueId)
    (c : OutputComponent) : List BoundAssignment :=
  let target : Selector := ⟨output, c.path⟩
  match (s.supply args c).embeds with
  | [] => [⟨.blank, target, c.step⟩]
  | embeds => embeds.map fun e => ⟨e.selector, target.extend e.path, c.step⟩

/-- The assignments of one outcome; outputs that the caller did not ask for are left out. -/
def bindOutcome (s : Summary) (args : List Composition) (outputs : List ValueId) (o : Outcome) :
    List BoundAssignment :=
  (o.outputs.zip outputs).flatMap fun (slot, output) =>
    slot.components.flatMap (s.bindComponent args output)

/-- The assignments that a call performs, one list for each outcome (`FunctionSummary.bind`). -/
def bind (s : Summary) (args : List Composition) (outputs : List ValueId) :
    List (List BoundAssignment) :=
  s.outcomes.map (s.bindOutcome args outputs)

end Summary

end SliceLineage
