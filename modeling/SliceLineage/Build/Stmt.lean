import SliceLineage.Build.Expr
import SliceLineage.Source.Stmt

/-!
# The flow graph of a function

`Build.statement` walks over the statements of a function. The shape of control flow:

* the arms of an if statement and the clauses of a switch leave one point and meet in another one;
  the setup of each arm runs on the way to it, so later arms see the names of earlier ones;
* a loop has an anchor, an empty edge before its body, to which the end of the body leads back; a
  `for` loop is left after its condition, a `range` loop from its anchor;
* after a return the walk goes on at a point that nothing leads to.

`FunctionDecl.graph` is the result.
-/

namespace SliceLineage

/-- The span of the first else branch along a chain of if statements that is neither a block nor an
if statement (`deconstruct_if`). -/
def Stmt.brokenElse? : Stmt → Option Span
  | .ifElse _ _ _ (some branch) _ =>
      match branch with
      | .ifElse .. => branch.brokenElse?
      | .block .. => none
      | other => some other.span
  | _ => none

/-- What the walk over a body needs to know about its function. -/
structure BuildContext where
  registry : Registry
  /-- Number of results. -/
  arity : Nat
  /-- The values that a return without results gives back. -/
  namedResults : List ValueId

namespace Build

variable (ctx : BuildContext)

/-- Declares names and stores what belongs to each. -/
def defineNames (span : Span) : List (String × Composition) → Build Unit
  | [] => return
  | (name, c) :: rest => do
      let value ← declare name
      store (.whole value) c span
      defineNames span rest

/-- Stores a composition in each target; a target that is no single region is passed over. -/
def assignTargets (span : Span) : List (Expr × Composition) → Build Unit
  | [] => return
  | (target, c) :: rest => do
      let place ← evaluateOne ctx.registry target
      match place.selector? with
      | some selector => store selector c span
      | none => pure ()
      assignTargets span rest

/-- A fresh value for each result, with what belongs to it. -/
def storeResults (span : Span) : List Composition → Build (List ValueId)
  | [] => return []
  | c :: cs => do
      let value ← fresh
      store (.whole value) c span
      let values ← storeResults span cs
      return value :: values

/-- The values that a return gives back: fresh ones for its results, or the named results if it
lists none. -/
def returnValues (results : List Expr) (span : Span) : Build (List ValueId) :=
  match results with
  | [] => return ctx.namedResults
  | es => do
      let cs ← evaluateValues ctx.registry span es ctx.arity
      storeResults span cs

/-- The end of the function (`ExecutionFromSyntax.build_return`). -/
def returnWith (results : List Expr) (span : Span) : Build Unit := do
  let values ← returnValues ctx results span
  append (.ret values) span
  detach

/-- The loop variable of a range statement holds something unknown in each round (in
`ExecutionFromSyntax.build_range`). -/
def rangeBinding (define : Bool) : Option Expr → Build Unit
  | none => return
  | some e =>
      if define then
        match e.name? with
        | some name => do copy .blank (.whole (← declare name)) e.span
        | none => throw (.input e.span .rangeBinding)
      else do
        match (← evaluateOne ctx.registry e).selector? with
        | some selector => copy .blank selector e.span
        | none => return

/-- The name that each clause of a type switch declares, with the composition of the subject. -/
def bindSubject (span : Span) : Option (String × Composition) → Build Unit
  | none => return
  | some (name, subject) => do
      let value ← declare name
      store (.whole value) subject span

mutual

/-- Extends the graph by one statement (`ExecutionFromSyntax.build_stmt`, with `build_if`,
`build_for` and `build_range` for the statements that they are named for). -/
def statement : Stmt → Build Unit
  | .block body _ => blockBody body
  | .labeled _ stmt _ => statement stmt
  | .ifElse init cond thenBlock elseBranch span => do
      match (Stmt.ifElse init cond thenBlock elseBranch span).brokenElse? with
      | some broken => throw (.input broken .elseBranch)
      | none => pure ()
      inFrame do
        let after ← reserve span
        arm after
          (do statementFor init; discard (evaluate ctx.registry cond 0))
          (blockBody thenBlock)
        elseArms after elseBranch
        moveTo after
  | .forLoop init cond post body span =>
      inFrame do
        statementFor init
        append .noop span
        let anchor ← current
        evaluateFor ctx.registry cond
        let exit ← current
        blockBody body
        statementFor post
        closeLoop anchor
        moveTo exit
  | .range key value define subject body span => do
      discard (evaluate ctx.registry subject 0)
      inFrame do
        append .noop span
        let anchor ← current
        rangeBinding ctx define key
        rangeBinding ctx define value
        blockBody body
        closeLoop anchor
        moveTo anchor
  | .define names values span => do
      let cs ← evaluateValues ctx.registry span values names.length
      defineNames span (names.zip cs)
  | .assign targets values span => do
      let cs ← evaluateValues ctx.registry span values targets.length
      assignTargets ctx span (targets.zip cs)
  | .switch init tag clauses span =>
      inFrame do
        statementFor init
        evaluateFor ctx.registry tag
        let after ← reserve span
        let fork ← current
        switchClauses none after fork clauses
        unless clauses.any CaseClause.isDefault do
          moveTo fork
          join after
        moveTo after
  | .typeSwitch init binding subject clauses span =>
      inFrame do
        statementFor init
        let c ← evaluateOne ctx.registry subject
        let after ← reserve span
        let fork ← current
        switchClauses (binding.map (·, c)) after fork clauses
        unless clauses.any CaseClause.isDefault do
          moveTo fork
          join after
        moveTo after
  | .ret results span => returnWith ctx results span
  | .expr e _ => discard (evaluate ctx.registry e 0)
  | .skipped _ _ => return
  | .bad span => throw (.input span .malformedStmt)

/-- Statements one after the other (`ExecutionFromSyntax.build_stmts`). -/
def statements : List Stmt → Build Unit
  | [] => return
  | s :: rest => do
      statement s
      statements rest

/-- A statement, if there is one. -/
def statementFor : Option Stmt → Build Unit
  | none => return
  | some s => statement s

/-- The statements of a block, in a frame of their own (`ExecutionFromSyntax.build_block`). -/
def blockBody : Block → Build Unit
  | ⟨stmts, _⟩ => inFrame (statements stmts)

/-- The arms after the first one of an if statement; without a final else, control may pass all of
them (in `ExecutionFromSyntax.build_if`). -/
def elseArms (after : PointId) : Option Stmt → Build Unit
  | none => join after
  | some (.ifElse init cond thenBlock elseBranch _) => do
      arm after
        (do statementFor init; discard (evaluate ctx.registry cond 0))
        (blockBody thenBlock)
      elseArms after elseBranch
  | some (.block body _) => arm after (return) (blockBody body)
  | some other => throw (.input other.span .elseBranch)

/-- The clauses of a switch, each from `fork` to `after` and in a frame of its own
(`ExecutionFromSyntax.build_clauses`). -/
def switchClauses (binding : Option (String × Composition)) (after fork : PointId) :
    List CaseClause → Build Unit
  | [] => return
  | ⟨_, body, span⟩ :: rest => do
      moveTo fork
      inFrame do
        bindSubject span binding
        statements body
      join after
      switchClauses binding after fork rest

end

end Build

namespace FunctionDecl

/-- The names declared by the parameters and the named results, and the values of the results. -/
def scopes (f : FunctionDecl) : List ValueId × Scopes :=
  let (_, inner) := Scopes.empty.declareAll f.params
  let (results, inner) := inner.declareAll (f.results.filterMap id)
  (results.filter (!·.isBlank), inner)

/-- The flow graph of a function, whose calls of registered functions are modelled
(`build_execution`). -/
def graph (registry : Registry) (f : FunctionDecl) : Except AnalysisError FlowGraph := do
  let (namedResults, scopes) := f.scopes
  let start : BuildState := ⟨.start (some f.span), scopes⟩
  let (_, final) ← (Build.blockBody ⟨registry, f.arity, namedResults⟩ f.body).run start
  return final.cursor.graph

end FunctionDecl

end SliceLineage
