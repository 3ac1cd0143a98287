import SliceLineage.Json.Basic
import SliceLineage.Source.Stmt

/-!
# Source trees as JSON

A node is an object with its `kind` and its `span`. A kind without parts is its name; a kind with
parts is an object whose only member is named for the kind. Absent parts are written as null, and
may be left out when read.
-/

namespace SliceLineage

namespace Location

def toJson (l : Location) : Json :=
  .obj [("line", .nat l.line.toNat), ("column", .nat l.column.toNat)]

end Location

namespace Span

def toJson (s : Span) : Json :=
  .obj [("start_line", .nat s.startLine.toNat), ("start_col", .nat s.startCol.toNat),
    ("end_line", .nat s.endLine.toNat), ("end_col", .nat s.endCol.toNat)]

def ofJson? (j : Json) : Option Span := do
  let startLine ← j.get? "start_line" fun k _ => k.word32?
  let startCol ← j.get? "start_col" fun k _ => k.word32?
  let endLine ← j.get? "end_line" fun k _ => k.word32?
  let endCol ← j.get? "end_col" fun k _ => k.word32?
  return ⟨startLine, startCol, endLine, endCol⟩

end Span

namespace CompositeKind

def name : CompositeKind → String
  | struct => "struct"
  | sequence => "sequence"
  | map => "map"

def ofName? : String → Option CompositeKind
  | "struct" => some struct
  | "sequence" => some sequence
  | "map" => some map
  | _ => none

end CompositeKind

namespace SkippedKind

def name : SkippedKind → String
  | branch => "branch"
  | defer => "defer"
  | go => "go"
  | goto => "goto"
  | send => "send"
  | select => "select"
  | incDec => "inc_dec"
  | empty => "empty"

def ofName? : String → Option SkippedKind
  | "branch" => some branch
  | "defer" => some defer
  | "go" => some go
  | "goto" => some goto
  | "send" => some send
  | "select" => some select
  | "inc_dec" => some incDec
  | "empty" => some empty
  | _ => none

end SkippedKind

/-- A tree node. -/
def Json.node (kind : Json) (span : Span) : Json := .obj [("kind", kind), ("span", span.toJson)]

/-- A kind with parts. -/
def Json.variant (name : String) (parts : Json) : Json := .obj [(name, parts)]

/-! ## Expressions -/

mutual

def Expr.toJson : Expr → Json
  | .ident name span => .node (.variant "Ident" (.str name)) span
  | .paren inner span => .node (.variant "Paren" inner.toJson) span
  | .select operand field span =>
      .node (.variant "Selector" (.obj [("operand", operand.toJson), ("field", .str field)])) span
  | .call callee args span =>
      .node (.variant "Call" (.obj [("callee", callee.toJson), ("args", .arr (exprsToJson args))]))
        span
  | .slice operand low high max span =>
      .node (.variant "Slice" (.obj [("operand", operand.toJson), ("low", exprToJson? low),
        ("high", exprToJson? high), ("max", exprToJson? max)])) span
  | .composite kind elements span =>
      .node (.variant "CompositeLit" (.obj [("kind", .str kind.name),
        ("elements", .arr (elementsToJson elements))])) span
  | .unary operand span => .node (.variant "Unary" operand.toJson) span
  | .binary left right span =>
      .node (.variant "Binary" (.arr [left.toJson, right.toJson])) span
  | .index operand position span =>
      .node (.variant "Index" (.obj [("operand", operand.toJson), ("index", position.toJson)])) span
  | .typeAssert operand span => .node (.variant "TypeAssert" operand.toJson) span
  | .literal span => .node (.str "Literal") span
  | .funcLit span => .node (.str "FuncLit") span
  | .other span => .node (.str "Other") span
  | .bad span => .node (.str "Bad") span

def exprsToJson : List Expr → List Json
  | [] => []
  | e :: es => e.toJson :: exprsToJson es

def exprToJson? : Option Expr → Json
  | none => .null
  | some e => e.toJson

def elementsToJson : List Element → List Json
  | [] => []
  | ⟨key, value⟩ :: es =>
      .obj [("key", .opt .str key), ("value", value.toJson)] :: elementsToJson es

end

/-- The expressions without parts. -/
def Expr.ofName? (span : Span) : String → Option Expr
  | "Literal" => some (.literal span)
  | "FuncLit" => some (.funcLit span)
  | "Other" => some (.other span)
  | "Bad" => some (.bad span)
  | _ => none

mutual

def Expr.ofJson? (j : Json) : Option Expr := do
  let span ← j.get? "span" fun k _ => Span.ofJson? k
  j.getKind? (Expr.ofName? span) fun name parts _ => Expr.ofParts? span name parts
termination_by (sizeOf j, 0)
decreasing_by
  apply Prod.Lex.left
  assumption

def Expr.ofParts? (span : Span) (name : String) (parts : Json) : Option Expr :=
  match name with
  | "Ident" => return .ident (← parts.string?) span
  | "Paren" => return .paren (← Expr.ofJson? parts) span
  | "Selector" => do
      let operand ← parts.get? "operand" fun k _ => Expr.ofJson? k
      let field ← parts.get? "field" fun k _ => k.string?
      return .select operand field span
  | "Call" => do
      let callee ← parts.get? "callee" fun k _ => Expr.ofJson? k
      let args ← parts.get? "args" fun k _ => k.items? fun k _ => Expr.ofJson? k
      return .call callee args span
  | "Slice" => do
      let operand ← parts.get? "operand" fun k _ => Expr.ofJson? k
      let low ← parts.getOpt? "low" fun k _ => Expr.ofJson? k
      let high ← parts.getOpt? "high" fun k _ => Expr.ofJson? k
      let max ← parts.getOpt? "max" fun k _ => Expr.ofJson? k
      return .slice operand low high max span
  | "CompositeLit" => do
      let kind ← parts.get? "kind" fun k _ => k.string?.bind CompositeKind.ofName?
      let elements ← parts.get? "elements" fun k _ => k.items? fun k _ => do
        let key ← k.getOpt? "key" fun k _ => k.string?
        let value ← k.get? "value" fun k _ => Expr.ofJson? k
        return Element.mk key value
      return .composite kind elements span
  | "Unary" => return .unary (← Expr.ofJson? parts) span
  | "Binary" => do
      let (left, right) ← parts.pair? fun k _ => Expr.ofJson? k
      return .binary left right span
  | "Index" => do
      let operand ← parts.get? "operand" fun k _ => Expr.ofJson? k
      let position ← parts.get? "index" fun k _ => Expr.ofJson? k
      return .index operand position span
  | "TypeAssert" => return .typeAssert (← Expr.ofJson? parts) span
  | _ => none
termination_by (sizeOf parts, 1)
decreasing_by
  all_goals simp [Prod.lex_def] <;> omega

end

/-! ## Statements -/

mutual

def Stmt.toJson : Stmt → Json
  | .block body span => .node (.variant "Block" body.toJson) span
  | .labeled label stmt span =>
      .node (.variant "Labeled" (.obj [("label", .str label), ("stmt", stmt.toJson)])) span
  | .ifElse init cond thenBlock elseBranch span =>
      .node (.variant "If" (.obj [("init", stmtToJson? init), ("cond", cond.toJson),
        ("then_block", thenBlock.toJson), ("else_branch", stmtToJson? elseBranch)])) span
  | .forLoop init cond post body span =>
      .node (.variant "For" (.obj [("init", stmtToJson? init), ("cond", exprToJson? cond),
        ("post", stmtToJson? post), ("body", body.toJson)])) span
  | .range key value define subject body span =>
      .node (.variant "Range" (.obj [("key", exprToJson? key), ("value", exprToJson? value),
        ("define", .bool define), ("subject", subject.toJson), ("body", body.toJson)])) span
  | .define names values span =>
      .node (.variant "Define" (.obj [("names", .list .str names),
        ("values", .arr (exprsToJson values))])) span
  | .assign targets values span =>
      .node (.variant "Assign" (.obj [("targets", .arr (exprsToJson targets)),
        ("values", .arr (exprsToJson values))])) span
  | .switch init tag clauses span =>
      .node (.variant "Switch" (.obj [("init", stmtToJson? init), ("tag", exprToJson? tag),
        ("clauses", .arr (clausesToJson clauses))])) span
  | .typeSwitch init binding subject clauses span =>
      .node (.variant "TypeSwitch" (.obj [("init", stmtToJson? init),
        ("binding", .opt .str binding), ("subject", subject.toJson),
        ("clauses", .arr (clausesToJson clauses))])) span
  | .ret results span => .node (.variant "Return" (.arr (exprsToJson results))) span
  | .expr e span => .node (.variant "Expr" e.toJson) span
  | .skipped kind span => .node (.variant "Skipped" (.str kind.name)) span
  | .bad span => .node (.str "Bad") span

def Block.toJson : Block → Json
  | ⟨stmts, span⟩ => .obj [("stmts", .arr (stmtsToJson stmts)), ("span", span.toJson)]

def CaseClause.toJson : CaseClause → Json
  | ⟨exprs, body, span⟩ =>
      .obj [("exprs", .arr (exprsToJson exprs)), ("body", .arr (stmtsToJson body)),
        ("span", span.toJson)]

def stmtsToJson : List Stmt → List Json
  | [] => []
  | s :: rest => s.toJson :: stmtsToJson rest

def stmtToJson? : Option Stmt → Json
  | none => .null
  | some s => s.toJson

def clausesToJson : List CaseClause → List Json
  | [] => []
  | c :: rest => c.toJson :: clausesToJson rest

end

/-- The expressions of an array. -/
def Json.exprs? (j : Json) : Option (List Expr) := j.items? fun k _ => Expr.ofJson? k

mutual

def Stmt.ofJson? (j : Json) : Option Stmt := do
  let span ← j.get? "span" fun k _ => Span.ofJson? k
  j.getKind? (fun name => if name = "Bad" then some (.bad span) else none)
    fun name parts _ => Stmt.ofParts? span name parts
termination_by (sizeOf j, 0)
decreasing_by
  apply Prod.Lex.left
  assumption

def Stmt.ofParts? (span : Span) (name : String) (parts : Json) : Option Stmt :=
  match name with
  | "Block" => return .block (← Block.ofJson? parts) span
  | "Labeled" => do
      let label ← parts.get? "label" fun k _ => k.string?
      let stmt ← parts.get? "stmt" fun k _ => Stmt.ofJson? k
      return .labeled label stmt span
  | "If" => do
      let init ← parts.getOpt? "init" fun k _ => Stmt.ofJson? k
      let cond ← parts.get? "cond" fun k _ => Expr.ofJson? k
      let thenBlock ← parts.get? "then_block" fun k _ => Block.ofJson? k
      let elseBranch ← parts.getOpt? "else_branch" fun k _ => Stmt.ofJson? k
      return .ifElse init cond thenBlock elseBranch span
  | "For" => do
      let init ← parts.getOpt? "init" fun k _ => Stmt.ofJson? k
      let cond ← parts.getOpt? "cond" fun k _ => Expr.ofJson? k
      let post ← parts.getOpt? "post" fun k _ => Stmt.ofJson? k
      let body ← parts.get? "body" fun k _ => Block.ofJson? k
      return .forLoop init cond post body span
  | "Range" => do
      let key ← parts.getOpt? "key" fun k _ => Expr.ofJson? k
      let value ← parts.getOpt? "value" fun k _ => Expr.ofJson? k
      let define ← parts.get? "define" fun k _ => k.bool?
      let subject ← parts.get? "subject" fun k _ => Expr.ofJson? k
      let body ← parts.get? "body" fun k _ => Block.ofJson? k
      return .range key value define subject body span
  | "Define" => do
      let names ← parts.get? "names" fun k _ => k.strings?
      let values ← parts.get? "values" fun k _ => k.exprs?
      return .define names values span
  | "Assign" => do
      let targets ← parts.get? "targets" fun k _ => k.exprs?
      let values ← parts.get? "values" fun k _ => k.exprs?
      return .assign targets values span
  | "Switch" => do
      let init ← parts.getOpt? "init" fun k _ => Stmt.ofJson? k
      let tag ← parts.getOpt? "tag" fun k _ => Expr.ofJson? k
      let clauses ← parts.get? "clauses" fun k _ => k.items? fun k _ => CaseClause.ofJson? k
      return .switch init tag clauses span
  | "TypeSwitch" => do
      let init ← parts.getOpt? "init" fun k _ => Stmt.ofJson? k
      let binding ← parts.getOpt? "binding" fun k _ => k.string?
      let subject ← parts.get? "subject" fun k _ => Expr.ofJson? k
      let clauses ← parts.get? "clauses" fun k _ => k.items? fun k _ => CaseClause.ofJson? k
      return .typeSwitch init binding subject clauses span
  | "Return" => return .ret (← parts.exprs?) span
  | "Expr" => return .expr (← Expr.ofJson? parts) span
  | "Skipped" => return .skipped (← parts.string?.bind SkippedKind.ofName?) span
  | _ => none
termination_by (sizeOf parts, 1)
decreasing_by
  all_goals simp [Prod.lex_def] <;> omega

def Block.ofJson? (j : Json) : Option Block := do
  let stmts ← j.get? "stmts" fun k _ => k.items? fun k _ => Stmt.ofJson? k
  let span ← j.get? "span" fun k _ => Span.ofJson? k
  return ⟨stmts, span⟩
termination_by (sizeOf j, 0)
decreasing_by
  apply Prod.Lex.left
  omega

def CaseClause.ofJson? (j : Json) : Option CaseClause := do
  let exprs ← j.get? "exprs" fun k _ => k.exprs?
  let body ← j.get? "body" fun k _ => k.items? fun k _ => Stmt.ofJson? k
  let span ← j.get? "span" fun k _ => Span.ofJson? k
  return ⟨exprs, body, span⟩
termination_by (sizeOf j, 0)
decreasing_by
  apply Prod.Lex.left
  omega

end

/-! ## Functions -/

namespace FunctionDecl

def toJson (f : FunctionDecl) : Json :=
  .obj [("name", .str f.name), ("params", .list .str f.params),
    ("results", .list (.opt .str) f.results), ("body", f.body.toJson), ("span", f.span.toJson)]

def ofJson? (j : Json) : Option FunctionDecl := do
  let name ← j.get? "name" fun k _ => k.string?
  let params ← j.get? "params" fun k _ => k.strings?
  let results ← j.get? "results" fun k _ => k.items? fun k _ => k.ofNullable? Json.string?
  let body ← j.get? "body" fun k _ => Block.ofJson? k
  let span ← j.get? "span" fun k _ => Span.ofJson? k
  return ⟨name, params, results, body, span⟩

end FunctionDecl

end SliceLineage
