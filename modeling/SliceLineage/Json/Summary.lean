import SliceLineage.Json.Graph
import SliceLineage.Summary.Basic

/-!
# Call summaries as JSON

Every member is written. When read, inputs, paths, components and generation steps have defaults,
and members that a summary does not have are refused.
-/

namespace SliceLineage

namespace InputRef

def toJson (r : InputRef) : Json :=
  .obj [("arg", .nat r.arg.toNat), ("component", .nat r.component.toNat)]

def ofJson? (j : Json) : Option InputRef := do
  guard (j.hasOnly ["arg", "component"])
  let arg ← j.get? "arg" fun k _ => k.word64?
  let component ← j.getD? "component" 0 Json.word64?
  return ⟨arg, component⟩

end InputRef

namespace InputSlot

def toJson (s : InputSlot) : Json := .obj [("components", .list FieldPath.toJson s.components)]

def ofJson? (j : Json) : Option InputSlot := do
  guard (j.hasOnly ["components"])
  let components ← j.getD? "components" [[]] fun k => k.items? fun k _ => FieldPath.ofJson? k
  return ⟨components⟩

end InputSlot

namespace OutputComponent

def toJson (c : OutputComponent) : Json :=
  .obj [("path", FieldPath.toJson c.path), ("source", .opt InputRef.toJson c.source),
    ("gen", c.step.toJson)]

def ofJson? (j : Json) : Option OutputComponent := do
  guard (j.hasOnly ["path", "source", "gen"])
  let path ← j.getD? "path" [] FieldPath.ofJson?
  let source ← j.getOpt? "source" fun k _ => InputRef.ofJson? k
  let step ← j.getD? "gen" .same GenStep.ofJson?
  return ⟨path, source, step⟩

end OutputComponent

namespace OutputSlot

def toJson (s : OutputSlot) : Json :=
  .obj [("components", .list OutputComponent.toJson s.components)]

def ofJson? (j : Json) : Option OutputSlot := do
  guard (j.hasOnly ["components"])
  let components ← j.get? "components" fun k _ => k.items? fun k _ => OutputComponent.ofJson? k
  return ⟨components⟩

end OutputSlot

namespace Outcome

def toJson (o : Outcome) : Json := .obj [("outputs", .list OutputSlot.toJson o.outputs)]

def ofJson? (j : Json) : Option Outcome := do
  guard (j.hasOnly ["outputs"])
  let outputs ← j.get? "outputs" fun k _ => k.items? fun k _ => OutputSlot.ofJson? k
  return ⟨outputs⟩

end Outcome

namespace Summary

def toJson (s : Summary) : Json :=
  .obj [("name", .str s.name), ("inputs", .list InputSlot.toJson s.inputs),
    ("outcomes", .list Outcome.toJson s.outcomes)]

def ofJson? (j : Json) : Option Summary := do
  guard (j.hasOnly ["name", "inputs", "outcomes"])
  let name ← j.get? "name" fun k _ => k.string?
  let inputs ← j.getD? "inputs" [] fun k => k.items? fun k _ => InputSlot.ofJson? k
  let outcomes ← j.get? "outcomes" fun k _ => k.items? fun k _ => Outcome.ofJson? k
  return ⟨name, inputs, outcomes⟩

end Summary

namespace BoundAssignment

def toJson (a : BoundAssignment) : Json :=
  .obj [("from", a.source.toJson), ("to", a.target.toJson), ("gen", a.step.toJson)]

end BoundAssignment

end SliceLineage
