import SliceLineage.Source.Expr

/-!
# Statements and functions of the analysed language

`Stmt`, `Block` and `CaseClause` form the body of a `FunctionDecl`. Statements that do not move
slices around (`skipped`) are kept by kind only.
-/

namespace SliceLineage

/-- Statements without effect on the analysis. -/
inductive SkippedKind where
  | branch
  | defer
  | go
  | goto
  | send
  | select
  | incDec
  | empty
  deriving DecidableEq

mutual

/-- A statement. -/
inductive Stmt where
  | block (body : Block) (span : Span)
  | labeled (label : String) (stmt : Stmt) (span : Span)
  | ifElse (init : Option Stmt) (cond : Expr) (thenBlock : Block) (elseBranch : Option Stmt)
      (span : Span)
  | forLoop (init : Option Stmt) (cond : Option Expr) (post : Option Stmt) (body : Block)
      (span : Span)
  | range (key value : Option Expr) (define : Bool) (subject : Expr) (body : Block) (span : Span)
  | define (names : List String) (values : List Expr) (span : Span)
  | assign (targets values : List Expr) (span : Span)
  | switch (init : Option Stmt) (tag : Option Expr) (clauses : List CaseClause) (span : Span)
  | typeSwitch (init : Option Stmt) (binding : Option String) (subject : Expr)
      (clauses : List CaseClause) (span : Span)
  | ret (results : List Expr) (span : Span)
  | expr (e : Expr) (span : Span)
  | skipped (kind : SkippedKind) (span : Span)
  | bad (span : Span)

/-- A braced list of statements. -/
structure Block where
  stmts : List Stmt
  span : Span

/-- One clause of a switch; a clause without case expressions is the default clause. -/
structure CaseClause where
  exprs : List Expr
  body : List Stmt
  span : Span

end

instance : Inhabited Stmt := ⟨.bad default⟩

def Stmt.span : Stmt → Span
  | .block _ s | .labeled _ _ s | .ifElse _ _ _ _ s | .forLoop _ _ _ _ s | .range _ _ _ _ _ s
  | .define _ _ s | .assign _ _ s | .switch _ _ _ s | .typeSwitch _ _ _ _ s | .ret _ s
  | .expr _ s | .skipped _ s | .bad s => s

def Block.isEmpty (b : Block) : Bool := b.stmts.isEmpty

def CaseClause.isDefault (c : CaseClause) : Bool := c.exprs.isEmpty

/-- A function: its parameters, its results with their names if they have any, and its body. -/
structure FunctionDecl where
  name : String
  params : List String
  results : List (Option String)
  body : Block
  span : Span

namespace FunctionDecl

/-- Number of results. -/
def arity (f : FunctionDecl) : Nat := f.results.length

def hasNamedResults (f : FunctionDecl) : Bool := f.results.any Option.isSome

end FunctionDecl

end SliceLineage
