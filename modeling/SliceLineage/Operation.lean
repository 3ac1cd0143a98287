import SliceLineage.Composition

/-!
# Operations on the edges of a flow graph

* `GenStep`: how an assignment moves the generation of a slice. Growing a slice makes the next
  generation, bounding its capacity exposes the one before, a plain copy stays.
* `Operation`: the label of an edge. A *rich* graph, as built from a function, copies field regions
  (`assign`) and calls functions (`call`); a *primitive* graph moves single cells (`move`). Both
  return and both have edges without effect.
* `Transition`: an operation and the point it leads to.
-/

namespace SliceLineage

/-- Movement of a generation along an assignment (`GenDelta`). -/
inductive GenStep where
  | prev
  | same
  | next
  deriving DecidableEq, Inhabited

namespace GenStep

/-- The change of the generation number (`GenDelta.as_i64`). -/
def delta : GenStep → Int
  | prev => -1
  | same => 0
  | next => 1

def text : GenStep → String
  | prev => "-1"
  | same => "0"
  | next => "+1"

end GenStep

/-- The label of an edge. -/
inductive Operation where
  /-- `target` becomes a copy of `source`, a region of a value. -/
  | assign (source target : Selector)
  /-- The outputs receive what the summary of `func` makes of the inputs. -/
  | call (func : FuncId) (inputs : List Composition) (outputs : List ValueId)
  /-- The function ends with these results. -/
  | ret (values : List ValueId)
  | noop
  /-- One cell takes over the content of another one, `step` generations on. -/
  | move (source target : ValueId) (step : GenStep)
  deriving DecidableEq

namespace Operation

/-- The word for an operation's kind (`Operation.kind_name`). -/
def kind : Operation → String
  | assign .. => "assign_selector"
  | call .. => "call_effect"
  | ret .. => "return"
  | noop => "noop"
  | move .. => "assign_value"

def isNoop : Operation → Bool
  | noop => true
  | _ => false

def isMove : Operation → Bool
  | move .. => true
  | _ => false

/-- The operation may stand in a primitive graph. -/
def isPrimitive : Operation → Bool
  | assign .. | call .. => false
  | ret .. | noop | move .. => true

/-- Values in brackets (`join_values`). -/
def valuesText (values : List ValueId) : String :=
  "[" ++ ", ".intercalate (values.map ValueId.text) ++ "]"

def text : Operation → String
  | assign source target => target.text ++ " = " ++ source.text
  | call func inputs outputs =>
      "call " ++ func.text ++ "(" ++ ", ".intercalate (inputs.map Composition.text) ++ ") -> "
        ++ valuesText outputs
  | ret values => "return " ++ valuesText values
  | noop => "noop"
  | move source target step => target.text ++ " <- " ++ source.text ++ " (" ++ step.text ++ ")"

end Operation

/-- An edge seen from its source: where it leads and what it does. -/
structure Transition where
  target : PointId
  op : Operation
  deriving DecidableEq

end SliceLineage
