import SliceLineage.Error
import SliceLineage.Proofs.Source.Resolution
import SliceLineage.Summary.Registry

/-!
# What can be read off trees

Much of what building a graph does is decided by the tree alone: whether it succeeds, which
identifiers it looks up, where it calls modelled functions, which values it may grow, where it
returns and whether it loops. All of this is read off the tree here, by recursion, so that what the
walk over the tree does can be compared with it.

* `Expr.wellShaped`, `Stmt.wellShaped`: the shape of trees that can be built.
* `Expr.sites`: the sites of modelled calls in an expression.
* `Expr.growths`, `Stmt.growths`: the argument lists of growths; `Expr.isBounded`: a bounded slice
  expression.
* `Stmt.loopFree`, `Stmt.returns`: loops and returns.
* `Expr.Reading`, `Stmt.Reading`: all that is read off an expression and off a statement.
-/

namespace SliceLineage

/-! ## Shapes -/

/-- The fault lies in the tree. The two others are about values that got lost on the way, which no
tree brings about. -/
def InputFault.ofTree : InputFault → Bool
  | noValue | yieldCount .. => false
  | malformedExpr | malformedStmt | singleValued _ | elseBranch | rangeBinding | valueCount .. =>
      true

namespace Expr

mutual

/-- No part that is evaluated is malformed. The callee of a call is not evaluated. -/
def wellShaped : Expr → Bool
  | ident _ _ => true
  | paren inner _ => inner.wellShaped
  | select operand _ _ => operand.wellShaped
  | call _ args _ => allWellShaped args
  | slice operand low high max _ =>
      operand.wellShaped && wellShapedIfAny low && wellShapedIfAny high && wellShapedIfAny max
  | composite _ elements _ => elementsWellShaped elements
  | unary operand _ => operand.wellShaped
  | binary left right _ => left.wellShaped && right.wellShaped
  | index operand position _ => operand.wellShaped && position.wellShaped
  | typeAssert operand _ => operand.wellShaped
  | literal _ => true
  | funcLit _ => true
  | other _ => true
  | bad _ => false

def allWellShaped : List Expr → Bool
  | [] => true
  | e :: es => e.wellShaped && allWellShaped es

def wellShapedIfAny : Option Expr → Bool
  | none => true
  | some e => e.wellShaped

def elementsWellShaped : List Element → Bool
  | [] => true
  | ⟨_, value⟩ :: es => value.wellShaped && elementsWellShaped es

end

/-- The expression may stand for several values. Identifiers, field selections, slice expressions
of two indices and composite literals have one value, in parentheses too. -/
def manyValued (e : Expr) : Bool :=
  match e.unparen with
  | ident .. | select .. | slice _ _ _ none _ | composite .. | bad .. => false
  | _ => true

/-- The values can be stored in so many targets: there are none, there is one for all targets, or
there is one for each. -/
def fitTargets (values : List Expr) (targets : Nat) : Bool :=
  match values with
  | [] => true
  | [e] => targets < 2 || e.manyValued
  | es => es.length == targets

/-- The loop variable of a range statement: a name if it is defined there, else a place. -/
def rangeVariable (defines : Bool) : Option Expr → Bool
  | none => true
  | some e => if defines then e.name?.isSome else e.wellShaped

end Expr

/-- The statement may stand in an else branch. -/
def Stmt.isElseBranch : Stmt → Bool
  | .block .. | .ifElse .. => true
  | _ => false

namespace Stmt

mutual

/-- No part that is evaluated is malformed, every else branch is a block or an if statement, every
range definition defines names, and all values fit their targets; those of a return are as many as
the function has results. The case expressions of a switch are not evaluated. -/
def wellShaped (arity : Nat) : Stmt → Bool
  | .block body _ => blockWellShaped arity body
  | .labeled _ stmt _ => stmt.wellShaped arity
  | .ifElse init cond thenBlock elseBranch _ =>
      wellShapedIfAny arity init && cond.wellShaped && blockWellShaped arity thenBlock &&
        elseWellShaped arity elseBranch
  | .forLoop init cond post body _ =>
      wellShapedIfAny arity init && Expr.wellShapedIfAny cond && blockWellShaped arity body &&
        wellShapedIfAny arity post
  | .range key value defines subject body _ =>
      subject.wellShaped && Expr.rangeVariable defines key && Expr.rangeVariable defines value &&
        blockWellShaped arity body
  | .define names values _ => Expr.allWellShaped values && Expr.fitTargets values names.length
  | .assign targets values _ =>
      Expr.allWellShaped values && Expr.fitTargets values targets.length &&
        Expr.allWellShaped targets
  | .switch init tag clauses _ =>
      wellShapedIfAny arity init && Expr.wellShapedIfAny tag && clausesWellShaped arity clauses
  | .typeSwitch init _ subject clauses _ =>
      wellShapedIfAny arity init && subject.wellShaped && clausesWellShaped arity clauses
  | .ret results _ => Expr.allWellShaped results && Expr.fitTargets results arity
  | .expr e _ => e.wellShaped
  | .skipped _ _ => true
  | .bad _ => false

def allWellShaped (arity : Nat) : List Stmt → Bool
  | [] => true
  | s :: rest => s.wellShaped arity && allWellShaped arity rest

def wellShapedIfAny (arity : Nat) : Option Stmt → Bool
  | none => true
  | some s => s.wellShaped arity

def blockWellShaped (arity : Nat) : Block → Bool
  | ⟨stmts, _⟩ => allWellShaped arity stmts

def elseWellShaped (arity : Nat) : Option Stmt → Bool
  | none => true
  | some branch => branch.isElseBranch && branch.wellShaped arity

def clausesWellShaped (arity : Nat) : List CaseClause → Bool
  | [] => true
  | ⟨_, body, _⟩ :: rest => allWellShaped arity body && clausesWellShaped arity rest

end

end Stmt

/-- The body has a graph: it is well shaped for the results of the function. -/
def FunctionDecl.wellShaped (f : FunctionDecl) : Bool := Stmt.blockWellShaped f.arity f.body

/-! ## Modelled calls -/

/-- A place in the source where a modelled function is called. -/
structure CallSite where
  func : FuncId
  span : Span
  deriving DecidableEq

/-- The site of a call, if the function is modelled. -/
def CallSite.of (func : Option FuncId) (span : Span) : List CallSite :=
  func.toList.map (⟨·, span⟩)

namespace Expr

section

-- The function that a name means, the bounded slice expression, and whether callees are searched.
variable (func? : String → Option FuncId) (bounded? : Option FuncId) (callees : Bool)

mutual

/-- The sites of modelled calls anywhere in an expression, those of the operands first and from left
to right. The sites in an expression that is called count only if callees are searched. -/
def sites : Expr → List CallSite
  | .ident .. | .literal _ | .funcLit _ | .other _ | .bad _ => []
  | .paren operand _ | .select operand _ _ | .unary operand _ | .typeAssert operand _ =>
      sites operand
  | .call callee args span =>
      (if callees then sites callee else []) ++ sitesOfEach args ++
        CallSite.of (callee.name?.bind func?) span
  | .slice operand low high max span =>
      sites operand ++ sitesOfAny low ++ sitesOfAny high ++ sitesOfAny max ++
        (if max.isSome then CallSite.of bounded? span else [])
  | .composite _ elements _ => sitesOfElements elements
  | .binary left right _ | .index left right _ => sites left ++ sites right

def sitesOfEach : List Expr → List CallSite
  | [] => []
  | e :: es => sites e ++ sitesOfEach es

def sitesOfAny : Option Expr → List CallSite
  | none => []
  | some e => sites e

def sitesOfElements : List Element → List CallSite
  | [] => []
  | ⟨_, value⟩ :: es => sites value ++ sitesOfElements es

end

end

end Expr

/-! ## Growths -/

namespace Expr

/-- Parentheses aside, the expression is a slice expression that bounds the capacity. -/
def isBounded (e : Expr) : Bool :=
  match e.unparen with
  | .slice _ _ _ (some _) _ => true
  | _ => false

mutual

/-- The argument lists of the calls of `append` in an expression, those of the operands first. What
is called is not searched. -/
def growths : Expr → List (List Expr)
  | .ident .. | .literal _ | .funcLit _ | .other _ | .bad _ => []
  | .paren operand _ | .select operand _ _ | .unary operand _ | .typeAssert operand _ =>
      growths operand
  | .call callee args _ =>
      growthsOfEach args ++ if callee.name? = some Registry.appendName then [args] else []
  | .slice operand low high max _ =>
      growths operand ++ growthsOfAny low ++ growthsOfAny high ++ growthsOfAny max
  | .composite _ elements _ => growthsOfElements elements
  | .binary left right _ | .index left right _ => growths left ++ growths right

def growthsOfEach : List Expr → List (List Expr)
  | [] => []
  | e :: es => growths e ++ growthsOfEach es

def growthsOfAny : Option Expr → List (List Expr)
  | none => []
  | some e => growths e

def growthsOfElements : List Element → List (List Expr)
  | [] => []
  | ⟨_, value⟩ :: es => growths value ++ growthsOfElements es

end

theorem growthsOfEach_eq_flatMap (es : List Expr) : growthsOfEach es = es.flatMap growths := by
  induction es with
  | nil => simp [growthsOfEach]
  | cons e es ih => simp [growthsOfEach, ih]

end Expr

namespace Names

/-- The growths in some expressions, where these names are seen. -/
def growths (ns : Names) (es : List Expr) : List (List Expr) :=
  if (ns.resolve Registry.appendName).isSome then [] else es.flatMap Expr.growths

/-- The growths in the loop variable of a range statement, which is evaluated unless it is
declared. -/
def rangeGrowths (ns : Names) (define : Bool) (e : Option Expr) : List (List Expr) :=
  if define then [] else ns.growths e.toList

theorem growths_cons (ns : Names) (e : Expr) (es : List Expr) :
    ns.growths (e :: es) = ns.growths [e] ++ ns.growths es := by
  unfold growths
  split <;> simp

end Names

mutual

/-- The argument lists of the growths in a statement, at a place with the given names. The
expressions of cases are not evaluated. -/
def Stmt.growths : Stmt → Names → List (List Expr)
  | .block body _, ns => body.growths ns
  | .labeled _ stmt _, ns => stmt.growths ns
  | .ifElse init cond thenBlock elseBranch _, ns =>
      let inner := Stmt.scanIfAny init ns
      Stmt.growthsIfAny init ns ++ inner.growths [cond] ++ thenBlock.growths (inner.use [cond]) ++
        Stmt.growthsElse elseBranch (thenBlock.scan (inner.use [cond]))
  | .forLoop init cond post body _, ns =>
      let inner := Stmt.scanIfAny init ns
      Stmt.growthsIfAny init ns ++ inner.growths cond.toList ++
        body.growths (inner.use cond.toList) ++
        Stmt.growthsIfAny post (body.scan (inner.use cond.toList))
  | .range key value define subject body _, ns =>
      let inner := ns.use [subject]
      let keyed := inner.rangeVariable define key
      ns.growths [subject] ++ inner.rangeGrowths define key ++ keyed.rangeGrowths define value ++
        body.growths (keyed.rangeVariable define value)
  | .define _ values _, ns => ns.growths values
  | .assign targets values _, ns => ns.growths values ++ ns.growths targets
  | .switch init tag clauses _, ns =>
      let inner := Stmt.scanIfAny init ns
      Stmt.growthsIfAny init ns ++ inner.growths tag.toList ++
        CaseClause.growthsEach none clauses (inner.use tag.toList)
  | .typeSwitch init binding subject clauses _, ns =>
      let inner := (Stmt.scanIfAny init ns).use [subject]
      let d := binding.bind inner.next?
      Stmt.growthsIfAny init ns ++ (Stmt.scanIfAny init ns).growths [subject] ++
        CaseClause.growthsEach d clauses (inner.record d)
  | .ret results _, ns => ns.growths results
  | .expr e _, ns => ns.growths [e]
  | .skipped _ _, _ => []
  | .bad _, _ => []

def Stmt.growthsEach : List Stmt → Names → List (List Expr)
  | [], _ => []
  | s :: rest, ns => s.growths ns ++ Stmt.growthsEach rest (s.scan ns)

def Stmt.growthsIfAny : Option Stmt → Names → List (List Expr)
  | none, _ => []
  | some s, ns => s.growths ns

def Block.growths : Block → Names → List (List Expr)
  | ⟨stmts, _⟩, ns => Stmt.growthsEach stmts ns

/-- The other arms of an if statement, in the frame of the first one. -/
def Stmt.growthsElse : Option Stmt → Names → List (List Expr)
  | none, _ => []
  | some (.ifElse init cond thenBlock elseBranch _), ns =>
      let inner := Stmt.scanIfAny init ns
      Stmt.growthsIfAny init ns ++ inner.growths [cond] ++ thenBlock.growths (inner.use [cond]) ++
        Stmt.growthsElse elseBranch (thenBlock.scan (inner.use [cond]))
  | some other, ns => other.growths ns

def CaseClause.growthsEach (d : Option (String × Nat)) :
    List CaseClause → Names → List (List Expr)
  | [], _ => []
  | ⟨exprs, body, _⟩ :: rest, ns =>
      let inner := (ns.use exprs).bring d
      Stmt.growthsEach body inner ++
        CaseClause.growthsEach d rest ((Stmt.scanEach body inner).leave ns)

end

theorem Stmt.growthsElse_of_ne {s : Stmt}
    (h : ∀ init cond thenBlock elseBranch span,
      s ≠ .ifElse init cond thenBlock elseBranch span) (ns : Names) :
    Stmt.growthsElse (some s) ns = s.growths ns := by
  cases s with
  | ifElse => exact absurd rfl (h _ _ _ _ _)
  | _ =>
      rw [Stmt.growthsElse]
      simp

/-! ## Loops and returns -/

namespace Stmt

mutual

/-- There is no loop in the statement, at any depth. -/
def loopFree : Stmt → Bool
  | .block body _ => blockLoopFree body
  | .labeled _ stmt _ => stmt.loopFree
  | .ifElse init _ thenBlock elseBranch _ =>
      loopFreeIfAny init && blockLoopFree thenBlock && loopFreeIfAny elseBranch
  | .forLoop .. | .range .. => false
  | .switch init _ clauses _ => loopFreeIfAny init && clausesLoopFree clauses
  | .typeSwitch init _ _ clauses _ => loopFreeIfAny init && clausesLoopFree clauses
  | .define .. | .assign .. | .ret .. | .expr .. | .skipped .. | .bad .. => true

def allLoopFree : List Stmt → Bool
  | [] => true
  | s :: rest => s.loopFree && allLoopFree rest

def loopFreeIfAny : Option Stmt → Bool
  | none => true
  | some s => s.loopFree

def blockLoopFree : Block → Bool
  | ⟨stmts, _⟩ => allLoopFree stmts

def clausesLoopFree : List CaseClause → Bool
  | [] => true
  | ⟨_, body, _⟩ :: rest => allLoopFree body && clausesLoopFree rest

end

end Stmt

/-- There is no loop in the body, at any depth. -/
def FunctionDecl.loopFree (f : FunctionDecl) : Bool := Stmt.blockLoopFree f.body

namespace Stmt

mutual

/-- The result lists of the return statements inside, in the order of the walk. -/
def returns : Stmt → List (List Expr)
  | .block body _ => blockReturns body
  | .labeled _ stmt _ => stmt.returns
  | .ifElse init _ thenBlock elseBranch _ =>
      returnsIfAny init ++ (blockReturns thenBlock ++ returnsIfAny elseBranch)
  | .forLoop init _ post body _ =>
      returnsIfAny init ++ (blockReturns body ++ returnsIfAny post)
  | .range _ _ _ _ body _ => blockReturns body
  | .switch init _ clauses _ => returnsIfAny init ++ clausesReturns clauses
  | .typeSwitch init _ _ clauses _ => returnsIfAny init ++ clausesReturns clauses
  | .ret results _ => [results]
  | .define .. | .assign .. | .expr .. | .skipped .. | .bad .. => []

def allReturns : List Stmt → List (List Expr)
  | [] => []
  | stmt :: rest => stmt.returns ++ allReturns rest

def returnsIfAny : Option Stmt → List (List Expr)
  | none => []
  | some stmt => stmt.returns

def blockReturns : Block → List (List Expr)
  | ⟨stmts, _⟩ => allReturns stmts

def clausesReturns : List CaseClause → List (List Expr)
  | [] => []
  | ⟨_, body, _⟩ :: rest => allReturns body ++ clausesReturns rest

end

end Stmt

/-- The result lists of the return statements of a function. -/
def FunctionDecl.returns (f : FunctionDecl) : List (List Expr) := Stmt.blockReturns f.body

/-! ## Readings of expressions -/

/-- What is read off something that is evaluated. -/
structure Expr.Reading where
  /-- It can be evaluated. -/
  fits : Prop
  names : List String
  sites : List CallSite
  growths : List (List Expr)

namespace Expr.Reading

/-- Nothing is evaluated, and it depends on the number of requested values whether that is right. -/
@[simp]
def shape (fits : Prop) : Reading := ⟨fits, [], [], []⟩

/-- Nothing is evaluated. -/
@[simp]
def nothing : Reading := shape True

/-- One part is evaluated after the other. -/
instance : Append Reading where
  append r r' := ⟨r.fits ∧ r'.fits, r.names ++ r'.names, r.sites ++ r'.sites,
    r.growths ++ r'.growths⟩

@[simp]
theorem append_mk (fits fits' : Prop) (names names' : List String) (sites sites' : List CallSite)
    (growths growths' : List (List Expr)) :
    (⟨fits, names, sites, growths⟩ : Reading) ++ (⟨fits', names', sites', growths'⟩ : Reading) =
      ⟨fits ∧ fits', names ++ names', sites ++ sites', growths ++ growths'⟩ := rfl

theorem append_nothing (r : Reading) : r ++ nothing = r := by
  obtain ⟨fits, names, sites, growths⟩ := r
  simp

end Expr.Reading

namespace Expr

-- The function that a name means, and the bounded slice expression.
variable (func? : String → Option FuncId) (bounded? : Option FuncId)

/-- The reading of an expression that is asked for `count` values. -/
def reading (e : Expr) (count : Nat) : Reading where
  fits := e.wellShaped = true ∧ (count < 2 ∨ e.manyValued = true)
  names := e.names
  sites := e.sites func? bounded? false
  growths := e.growths

/-- The reading of expressions that are asked for one value each. -/
def readingOfEach (es : List Expr) : Reading where
  fits := allWellShaped es = true
  names := namesOfEach es
  sites := sitesOfEach func? bounded? false es
  growths := growthsOfEach es

def readingIfAny (e : Option Expr) : Reading where
  fits := wellShapedIfAny e = true
  names := namesIfAny e
  sites := sitesOfAny func? bounded? false e
  growths := growthsOfAny e

def readingOfElements (es : List Element) : Reading where
  fits := elementsWellShaped es = true
  names := namesOfElements es
  sites := sitesOfElements func? bounded? false es
  growths := growthsOfElements es

/-- The reading of values for some targets. -/
def readingOfValues (values : List Expr) (targets : Nat) : Reading where
  fits := allWellShaped values = true ∧ fitTargets values targets = true
  names := namesOfEach values
  sites := sitesOfEach func? bounded? false values
  growths := growthsOfEach values

end Expr

/-! ## Readings of statements -/

/-- What is read off a part of a statement, at a place with some names. -/
structure Stmt.Reading where
  /-- It can be built. -/
  fits : Prop
  loopFree : Bool
  returns : List (List Expr)
  growths : List (List Expr)

namespace Stmt.Reading

/-- Something is evaluated. -/
@[simp]
def of (fits : Prop) (growths : List (List Expr)) : Reading := ⟨fits, true, [], growths⟩

/-- Nothing is built. -/
@[simp]
def nothing : Reading := of True []

/-- One part is built after the other. -/
instance : Append Reading where
  append k k' := ⟨k.fits ∧ k'.fits, k.loopFree && k'.loopFree, k.returns ++ k'.returns,
    k.growths ++ k'.growths⟩

@[simp]
theorem append_mk (fits fits' : Prop) (loopFree loopFree' : Bool)
    (returns returns' growths growths' : List (List Expr)) :
    (⟨fits, loopFree, returns, growths⟩ : Reading) ++
        (⟨fits', loopFree', returns', growths'⟩ : Reading) =
      ⟨fits ∧ fits', loopFree && loopFree', returns ++ returns', growths ++ growths'⟩ := rfl

/-- The part is built in a loop. -/
@[simp]
def looping (k : Reading) : Reading := { k with loopFree := false }

end Stmt.Reading

section

variable (arity : Nat)

def Stmt.reading (s : Stmt) (ns : Names) : Stmt.Reading where
  fits := s.wellShaped arity = true
  loopFree := s.loopFree
  returns := s.returns
  growths := s.growths ns

def Stmt.readingOfEach (stmts : List Stmt) (ns : Names) : Stmt.Reading where
  fits := Stmt.allWellShaped arity stmts = true
  loopFree := Stmt.allLoopFree stmts
  returns := Stmt.allReturns stmts
  growths := Stmt.growthsEach stmts ns

def Stmt.readingIfAny (s : Option Stmt) (ns : Names) : Stmt.Reading where
  fits := Stmt.wellShapedIfAny arity s = true
  loopFree := Stmt.loopFreeIfAny s
  returns := Stmt.returnsIfAny s
  growths := Stmt.growthsIfAny s ns

def Block.reading (b : Block) (ns : Names) : Stmt.Reading where
  fits := Stmt.blockWellShaped arity b = true
  loopFree := Stmt.blockLoopFree b
  returns := Stmt.blockReturns b
  growths := b.growths ns

/-- The reading of the other arms of an if statement. -/
def Stmt.readingElse (s : Option Stmt) (ns : Names) : Stmt.Reading where
  fits := Stmt.elseWellShaped arity s = true
  loopFree := Stmt.loopFreeIfAny s
  returns := Stmt.returnsIfAny s
  growths := Stmt.growthsElse s ns

def CaseClause.readingOfEach (d : Option (String × Nat)) (clauses : List CaseClause)
    (ns : Names) : Stmt.Reading where
  fits := Stmt.clausesWellShaped arity clauses = true
  loopFree := Stmt.clausesLoopFree clauses
  returns := Stmt.clausesReturns clauses
  growths := CaseClause.growthsEach d clauses ns

end

end SliceLineage
