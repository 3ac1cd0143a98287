import SliceLineage.Source.Span

/-!
# Expressions of the analysed language

Only the shapes that matter for tracking slices are kept apart: identifiers, field selections,
calls, slice expressions and composite literals carry provenance, all others are there so that
the calls inside them are seen. Every node has a span.
-/

namespace SliceLineage

/-- What a composite literal builds. -/
inductive CompositeKind where
  | struct
  | sequence
  | map
  deriving DecidableEq

mutual

/-- An expression. -/
inductive Expr where
  | ident (name : String) (span : Span)
  | paren (inner : Expr) (span : Span)
  | select (operand : Expr) (field : String) (span : Span)
  | call (callee : Expr) (args : List Expr) (span : Span)
  | slice (operand : Expr) (low high max : Option Expr) (span : Span)
  | composite (kind : CompositeKind) (elements : List Element) (span : Span)
  | unary (operand : Expr) (span : Span)
  | binary (left right : Expr) (span : Span)
  | index (operand index : Expr) (span : Span)
  | typeAssert (operand : Expr) (span : Span)
  | literal (span : Span)
  | funcLit (span : Span)
  | other (span : Span)
  | bad (span : Span)

/-- An element of a composite literal, with its key if it has one (`CompositeElement`). -/
structure Element where
  key : Option String
  value : Expr

end

namespace Expr

instance : Inhabited Expr := ⟨.bad default⟩

def span : Expr → Span
  | ident _ s | paren _ s | select _ _ s | call _ _ s | slice _ _ _ _ s | composite _ _ s
  | unary _ s | binary _ _ s | index _ _ s | typeAssert _ s | literal s | funcLit s | other s
  | bad s => s

/-- Selection of one field of an expression, at the same place in the source (`Expr.select`). -/
def field (e : Expr) (name : String) : Expr := .select e name e.span

/-- Call of a named function; the name has the span of the call (`Expr.call`). -/
def callNamed (name : String) (args : List Expr) (span : Span) : Expr :=
  .call (.ident name span) args span

def isParen : Expr → Bool
  | paren _ _ => true
  | _ => false

/-- The expression inside all enclosing parentheses. -/
def unparen : Expr → Expr
  | paren inner _ => inner.unparen
  | e => e

/-- The name that an expression consists of, parentheses aside. -/
def name? (e : Expr) : Option String :=
  match e.unparen with
  | ident name _ => some name
  | _ => none

/-- The name that is called, if the expression is a call of a plain name (`Expr.called_name`). -/
def calledName? (e : Expr) : Option String :=
  match e.unparen with
  | call callee _ _ => callee.name?
  | _ => none

end Expr

end SliceLineage
