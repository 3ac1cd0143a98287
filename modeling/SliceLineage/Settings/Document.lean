import SliceLineage.Settings.Basic
import SliceLineage.Json.Graph
import SliceLineage.Yaml.Render

/-!
# Settings as a document

The document of a configuration file, before its version and preset are looked at: each stage is
given as a whole or not at all. Members that a document does not have are refused.
-/

namespace SliceLineage

open Yaml (Node)
open Yaml.Node (Fields)

namespace TraceSettings

def toNode (s : TraceSettings) : Node :=
  .ofFields [("repeat_limit", .ofNat s.repeatLimit.toNat),
    ("max_traces", .ofOption (fun n => .ofNat n.toNat) s.maxTraces)]

def ofNode? (n : Node) : Option TraceSettings := do
  let fields ← n.fields? ["repeat_limit", "max_traces"]
  let base : TraceSettings := {}
  let repeatLimit ← fields.getD? "repeat_limit" base.repeatLimit Node.word32?
  let maxTraces ← fields.getOpt? "max_traces" Node.word64?
  return ⟨repeatLimit, maxTraces⟩

end TraceSettings

namespace PathSettings

def toNode (s : PathSettings) : Node := .ofFields [("max_path_depth", .ofNat s.maxPathDepth.toNat)]

def ofNode? (n : Node) : Option PathSettings := do
  let fields ← n.fields? ["max_path_depth"]
  let base : PathSettings := {}
  let maxPathDepth ← fields.getD? "max_path_depth" base.maxPathDepth Node.word64?
  return ⟨maxPathDepth⟩

end PathSettings

namespace ParallelSettings

def toNode (s : ParallelSettings) : Node :=
  .ofFields [("enabled", .ofBool s.enabled), ("workers", .ofNat s.workers.toNat)]

def ofNode? (n : Node) : Option ParallelSettings := do
  let fields ← n.fields? ["enabled", "workers"]
  let base : ParallelSettings := {}
  let enabled ← fields.getD? "enabled" base.enabled Node.bool?
  let workers ← fields.getD? "workers" base.workers Node.word64?
  return ⟨enabled, workers⟩

end ParallelSettings

/-! ## Summaries -/

namespace FieldPath

def toNode (p : FieldPath) : Node := .ofList .ofString p

def ofNode? (n : Node) : Option FieldPath := n.list? Node.string?

end FieldPath

namespace InputRef

def toNode (r : InputRef) : Node :=
  .ofFields [("arg", .ofNat r.arg.toNat), ("component", .ofNat r.component.toNat)]

def ofNode? (n : Node) : Option InputRef := do
  let fields ← n.fields? ["arg", "component"]
  let arg ← fields.get? "arg" Node.word64?
  let component ← fields.getD? "component" 0 Node.word64?
  return ⟨arg, component⟩

end InputRef

namespace InputSlot

def toNode (s : InputSlot) : Node :=
  .ofFields [("components", .ofList FieldPath.toNode s.components)]

def ofNode? (n : Node) : Option InputSlot := do
  let fields ← n.fields? ["components"]
  let components ← fields.getD? "components" [[]] (Node.list? FieldPath.ofNode?)
  return ⟨components⟩

end InputSlot

namespace OutputComponent

def toNode (c : OutputComponent) : Node :=
  .ofFields [("path", FieldPath.toNode c.path), ("source", .ofOption InputRef.toNode c.source),
    ("gen", .ofString c.step.name)]

def ofNode? (n : Node) : Option OutputComponent := do
  let fields ← n.fields? ["path", "source", "gen"]
  let path ← fields.getD? "path" [] FieldPath.ofNode?
  let source ← fields.getOpt? "source" InputRef.ofNode?
  let step ← fields.getD? "gen" .same fun n => n.string?.bind GenStep.ofName?
  return ⟨path, source, step⟩

end OutputComponent

namespace OutputSlot

def toNode (s : OutputSlot) : Node :=
  .ofFields [("components", .ofList OutputComponent.toNode s.components)]

def ofNode? (n : Node) : Option OutputSlot := do
  let fields ← n.fields? ["components"]
  let components ← fields.get? "components" (Node.list? OutputComponent.ofNode?)
  return ⟨components⟩

end OutputSlot

namespace Outcome

def toNode (o : Outcome) : Node := .ofFields [("outputs", .ofList OutputSlot.toNode o.outputs)]

def ofNode? (n : Node) : Option Outcome := do
  let fields ← n.fields? ["outputs"]
  let outputs ← fields.get? "outputs" (Node.list? OutputSlot.ofNode?)
  return ⟨outputs⟩

end Outcome

namespace Summary

def toNode (s : Summary) : Node :=
  .ofFields [("name", .ofString s.name), ("inputs", .ofList InputSlot.toNode s.inputs),
    ("outcomes", .ofList Outcome.toNode s.outcomes)]

def ofNode? (n : Node) : Option Summary := do
  let fields ← n.fields? ["name", "inputs", "outcomes"]
  let name ← fields.get? "name" Node.string?
  let inputs ← fields.getD? "inputs" [] (Node.list? InputSlot.ofNode?)
  let outcomes ← fields.get? "outcomes" (Node.list? Outcome.ofNode?)
  return ⟨name, inputs, outcomes⟩

end Summary

/-! ## Documents -/

/-- What a configuration file says (`ConfigFileV1`). -/
structure SettingsDocument where
  version : Option UInt32
  preset : String
  trace : Option TraceSettings
  paths : Option PathSettings
  parallel : Option ParallelSettings
  summaries : List Summary
  deriving DecidableEq

namespace SettingsDocument

/-- The members of a document; stages that are not given and an empty list of summaries are left
out. -/
def toNode (d : SettingsDocument) : Node :=
  .ofFields ([("version", .ofOption (fun v => .ofNat v.toNat) d.version),
      ("preset", .ofString d.preset)]
    ++ (d.trace.map fun s => ("trace", s.toNode)).toList
    ++ (d.paths.map fun s => ("factorization", s.toNode)).toList
    ++ (d.parallel.map fun s => ("parallel", s.toNode)).toList
    ++ (if d.summaries.isEmpty then [] else [("summaries", .ofList Summary.toNode d.summaries)]))

def ofNode? (n : Node) : Option SettingsDocument := do
  let fields ← n.fields? ["version", "preset", "trace", "factorization", "parallel", "summaries"]
  let version ← fields.getOpt? "version" Node.word32?
  let preset ← fields.getD? "preset" Preset.balanced.name Node.string?
  let trace ← fields.getOpt? "trace" TraceSettings.ofNode?
  let paths ← fields.getOpt? "factorization" PathSettings.ofNode?
  let parallel ← fields.getOpt? "parallel" ParallelSettings.ofNode?
  let summaries ← fields.getD? "summaries" [] (Node.list? Summary.ofNode?)
  return ⟨version, preset, trace, paths, parallel, summaries⟩

end SettingsDocument

end SliceLineage
