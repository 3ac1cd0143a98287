import SliceLineage.Flow.Graph
import SliceLineage.Json.Source

/-!
# Graphs as JSON

Values, points and functions are numbers of 32 bits; the largest of them stands for the blank value.
An operation is an object whose member `op` names its kind. Empty paths are not written.
-/

namespace SliceLineage

/-! ## Identifiers -/

namespace ValueId

/-- The number that stands for blank. -/
def blankCode : Nat := UInt32.size - 1

def toJson : ValueId → Json
  | blank => .nat blankCode
  | tracked index => .nat index

def ofJson? (j : Json) : Option ValueId :=
  (j.natBelow? UInt32.size).map fun n => if n = blankCode then blank else tracked n

end ValueId

namespace PointId

def toJson (p : PointId) : Json := .nat p.index

def ofJson? (j : Json) : Option PointId := (j.natBelow? UInt32.size).map mk

end PointId

namespace FuncId

def toJson (f : FuncId) : Json := .nat f.index

def ofJson? (j : Json) : Option FuncId := (j.natBelow? UInt32.size).map mk

end FuncId

/-! ## Regions -/

namespace FieldPath

def toJson (p : FieldPath) : Json := .list .str p

def ofJson? (j : Json) : Option FieldPath := j.strings?

/-- The member for a path, left out if the path is empty. -/
def member (p : FieldPath) : List (String × Json) :=
  match p with
  | [] => []
  | p => [("path", toJson p)]

end FieldPath

namespace Selector

def toJson (s : Selector) : Json := .obj (("value", s.value.toJson) :: FieldPath.member s.path)

def ofJson? (j : Json) : Option Selector := do
  let value ← j.get? "value" fun k _ => ValueId.ofJson? k
  let path ← j.getD? "path" [] FieldPath.ofJson?
  return ⟨value, path⟩

end Selector

namespace Embed

def toJson (e : Embed) : Json :=
  .obj (FieldPath.member e.path ++ [("selector", e.selector.toJson)])

def ofJson? (j : Json) : Option Embed := do
  let path ← j.getD? "path" [] FieldPath.ofJson?
  let selector ← j.get? "selector" fun k _ => Selector.ofJson? k
  return ⟨path, selector⟩

end Embed

namespace Composition

def toJson (c : Composition) : Json := .list Embed.toJson c.embeds

def ofJson? (j : Json) : Option Composition :=
  (j.items? fun k _ => Embed.ofJson? k).map mk

end Composition

/-! ## Operations -/

namespace GenStep

def name : GenStep → String
  | prev => "prev"
  | same => "same"
  | next => "next"

def ofName? : String → Option GenStep
  | "prev" => some prev
  | "same" => some same
  | "next" => some next
  | _ => none

def toJson (s : GenStep) : Json := .str s.name

def ofJson? (j : Json) : Option GenStep := j.string?.bind ofName?

end GenStep

namespace Operation

def toJson : Operation → Json
  | assign source target =>
      .obj [("op", .str "assign_selector"), ("from", source.toJson), ("to", target.toJson)]
  | call func inputs outputs =>
      .obj [("op", .str "call_effect"), ("func", func.toJson),
        ("inputs", .list Composition.toJson inputs), ("outputs", .list ValueId.toJson outputs)]
  | ret values => .obj [("op", .str "return"), ("values", .list ValueId.toJson values)]
  | noop => .obj [("op", .str "no_op")]
  | move source target step =>
      .obj [("op", .str "assign_value"), ("from", source.toJson), ("to", target.toJson),
        ("gen", step.toJson)]

def ofJson? (j : Json) : Option Operation := do
  let kind ← j.get? "op" fun k _ => k.string?
  match kind with
  | "assign_selector" =>
      let source ← j.get? "from" fun k _ => Selector.ofJson? k
      let target ← j.get? "to" fun k _ => Selector.ofJson? k
      return assign source target
  | "call_effect" =>
      let func ← j.get? "func" fun k _ => FuncId.ofJson? k
      let inputs ← j.get? "inputs" fun k _ => k.items? fun k _ => Composition.ofJson? k
      let outputs ← j.get? "outputs" fun k _ => k.items? fun k _ => ValueId.ofJson? k
      return call func inputs outputs
  | "return" =>
      let values ← j.get? "values" fun k _ => k.items? fun k _ => ValueId.ofJson? k
      return ret values
  | "no_op" => return noop
  | "assign_value" =>
      let source ← j.get? "from" fun k _ => ValueId.ofJson? k
      let target ← j.get? "to" fun k _ => ValueId.ofJson? k
      let step ← j.get? "gen" fun k _ => GenStep.ofJson? k
      return move source target step
  | _ => none

end Operation

namespace Transition

def toJson (t : Transition) : Json := .obj [("to", t.target.toJson), ("op", t.op.toJson)]

def ofJson? (j : Json) : Option Transition := do
  let target ← j.get? "to" fun k _ => PointId.ofJson? k
  let op ← j.get? "op" fun k _ => Operation.ofJson? k
  return ⟨target, op⟩

end Transition

/-! ## Graphs -/

/-- A number of 32 bits as the name of a member: decimal digits without leading zeros. -/
def PointId.ofName? (name : String) : Option PointId :=
  let digits := name.toList
  if digits.isEmpty ∨ !digits.all Char.isDigit ∨ (digits.head? = some '0' ∧ digits.length ≠ 1) then
    none
  else
    let n := digits.foldl (fun n d => 10 * n + (d.toNat - 48)) 0
    if n < UInt32.size then some ⟨n⟩ else none

namespace FlowGraph

/-- Decodes an object whose members are named for points. -/
def byPoint? {α : Type} (j : Json) (decode : Json → Option α) :
    Option (Std.TreeMap PointId α) :=
  match j with
  | .obj members => members.foldlM (fun entries entry => do
      let p ← PointId.ofName? entry.1
      let a ← decode entry.2
      return entries.insert p a) ∅
  | _ => none

/-- An object whose members are named for points. -/
def byPoint {α : Type} (encode : α → Json) (entries : Std.TreeMap PointId α) : Json :=
  .obj (entries.toList.map fun entry => (entry.1.index.repr, encode entry.2))

def toJson (g : FlowGraph) : Json :=
  .obj [("root", g.root.toJson), ("point_count", .nat g.pointCount),
    ("transitions", byPoint (.list Transition.toJson) g.outgoing),
    ("references", byPoint Span.toJson g.references)]

def ofJson? (j : Json) : Option FlowGraph := do
  let root ← j.get? "root" fun k _ => PointId.ofJson? k
  let pointCount ← j.get? "point_count" fun k _ => k.natBelow? UInt32.size
  let outgoing ← j.get? "transitions" fun k _ =>
    byPoint? k fun k => k.items? fun k _ => Transition.ofJson? k
  let references ← j.get? "references" fun k _ => byPoint? k Span.ofJson?
  return ⟨root, pointCount, outgoing, references⟩

end FlowGraph

end SliceLineage
