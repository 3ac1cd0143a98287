import SliceLineage.Build.Monad
import SliceLineage.Source.Expr
import SliceLineage.Summary.Registry

/-!
# What expressions are made of

`Build.evaluate` walks over an expression, appends the calls of modelled functions that it contains,
and says what each requested value is composed of. Identifiers, field selections, struct literals
with keys, modelled calls and slice expressions are followed; every other value is blank. An
expression may be asked for no value at all, to be evaluated for its calls only.
-/

namespace SliceLineage

namespace Build

/-- Values that are not followed. -/
def blanks (count : Nat) : List Composition := List.replicate count .blank

/-- A single value where `count` values are requested (`shape`). -/
def oneOf (span : Span) (c : Composition) (count : Nat) : Build (List Composition) :=
  match count with
  | 0 => return []
  | 1 => return [c]
  | n => throw (.input span (.singleValued n))

/-- The last of the values of an expression at `span`, which was asked for one. -/
def single (span : Span) (cs : List Composition) : Build Composition :=
  match cs.getLast? with
  | some c => return c
  | none => throw (.input span .noValue)

/-- A call of a modelled function, with a fresh value for each output
(`ExecutionFromSyntax.emit_call`). -/
def callModelled (func : FuncId) (inputs : List Composition) (span : Span) (count : Nat) :
    Build (List Composition) := do
  let outputs ← freshMany count
  append (.call func inputs outputs) span
  return outputs.map (.of <| .whole ·)

/-- The call of a function if it is modelled; the outputs of any other function are blank
(`ExecutionFromSyntax.evaluate_call`). -/
def callIfModelled (func : Option FuncId) (inputs : List Composition) (span : Span)
    (count : Nat) : Build (List Composition) :=
  match func with
  | some f => callModelled f inputs span count
  | none => return blanks count

/-- The modelled function that a callee names; a name in scope hides a modelled function. -/
def modelled? (registry : Registry) (callee : Expr) : Build (Option FuncId) := do
  match callee.name? with
  | none => return none
  | some name =>
      match ← lookup? name with
      | some _ => return none
      | none => return registry.lookup? name

/-- What the element of a composite literal adds: in a struct literal the value below its key. -/
def elementEmbeds (kind : CompositeKind) (key : Option String) (value : Composition) :
    List Embed :=
  match kind, key with
  | .struct, some name => ((if value.isUnknown then .blank else value).nest name).embeds
  | _, _ => []

/-- A literal without followed elements is blank. -/
def ofEmbeds (embeds : List Embed) : Composition :=
  if embeds.isEmpty then .blank else ⟨embeds⟩

variable (registry : Registry)

mutual

/-- Appends the modelled calls of an expression, innermost and leftmost first, and gives what the
`count` requested values are composed of (`ExecutionFromSyntax.evaluate`). -/
def evaluate : Expr → Nat → Build (List Composition)
  | .ident name span, count => do
      oneOf span (.of (.whole (← lookup name))) count
  | .paren inner _, count => evaluate inner count
  | .select operand field span, count => do
      let base ← single operand.span (← evaluate operand 1)
      oneOf span (base.select field) count
  | .call callee args span, count => do
      let func ← modelled? registry callee
      let inputs ← evaluateEach args
      callIfModelled func inputs span count
  | .slice operand low high max span, count => do
      let base ← single operand.span (← evaluate operand 1)
      evaluateFor low
      evaluateFor high
      evaluateFor max
      match max with
      | none => oneOf span base count
      | some _ => callIfModelled registry.slice? [base] span count
  | .composite kind elements span, count => do
      let embeds ← evaluateElements kind elements
      oneOf span (ofEmbeds embeds) count
  | .unary operand _, count => do
      discard (evaluate operand 0)
      return blanks count
  | .binary left right _, count => do
      discard (evaluate left 0)
      discard (evaluate right 0)
      return blanks count
  | .index operand position _, count => do
      discard (evaluate operand 0)
      discard (evaluate position 0)
      return blanks count
  | .typeAssert operand _, count => do
      discard (evaluate operand 0)
      return blanks count
  | .literal _, count => return blanks count
  | .funcLit _, count => return blanks count
  | .other _, count => return blanks count
  | .bad span, _ => throw (.input span .malformedExpr)

/-- One value of each expression, in order. -/
def evaluateEach : List Expr → Build (List Composition)
  | [] => return []
  | e :: es => do
      let c ← single e.span (← evaluate e 1)
      let cs ← evaluateEach es
      return c :: cs

/-- Evaluates an expression, if there is one, for its calls. -/
def evaluateFor : Option Expr → Build Unit
  | none => return
  | some e => discard (evaluate e 0)

/-- The embeds that the elements of a composite literal add, in order. -/
def evaluateElements (kind : CompositeKind) : List Element → Build (List Embed)
  | [] => return []
  | ⟨key, value⟩ :: es => do
      let c ← single value.span (← evaluate value 1)
      let rest ← evaluateElements kind es
      return elementEmbeds kind key c ++ rest

end

/-- One value of an expression (`ExecutionFromSyntax.evaluate_single`). -/
def evaluateOne (e : Expr) : Build Composition := do
  single e.span (← evaluate registry e 1)

/-- What a list of expressions gives for `targets` targets: nothing is listed for values that start
out blank, one expression stands for all targets, or there is one for each. -/
def resolveValues (span : Span) (values : List Expr) (targets : Nat) :
    Build (List Composition) :=
  match values with
  | [] => return blanks targets
  | [e] => evaluate registry e targets
  | es =>
      if es.length = targets then evaluateEach registry es
      else throw (.input span (.valueCount es.length targets))

/-- One value for each of `targets` targets (`ExecutionFromSyntax.evaluate_values`). -/
def evaluateValues (span : Span) (values : List Expr) (targets : Nat) :
    Build (List Composition) := do
  let cs ← resolveValues registry span values targets
  if cs.length = targets then return cs
  else throw (.input span (.yieldCount cs.length targets))

end Build

end SliceLineage
