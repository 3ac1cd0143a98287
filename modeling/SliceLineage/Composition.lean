import SliceLineage.Selector

/-!
# Compositions

What a value is made of: an `Embed` says that the region at `path` of the value is a copy of the
region named by a selector, and a `Composition` is a list of embeds. The literal
`User{Name: a, Meta: Meta{Phone: c}}` is composed of `a` at `Name` and `c` at `Meta.Phone`.
An empty composition says that nothing is known.

* `Composition.select`: what a field of the value is made of.
* `Composition.nest`: the value put into a field of another one.
-/

namespace SliceLineage

/-- The region `selector` placed at `path`. -/
structure Embed where
  path : FieldPath
  selector : Selector
  deriving DecidableEq

namespace Embed

/-- What is left of an embed after selecting the field `name`: an embed below that field loses the
first step of its path, an embed of the whole value becomes a field of its selector. Other fields
and a blank whole value leave nothing. -/
def select (e : Embed) (name : String) : Option Embed :=
  match e.path with
  | head :: rest => if head = name then some ⟨rest, e.selector⟩ else none
  | [] => if e.selector.isBlank then none else some ⟨[], e.selector.field name⟩

/-- The embed one level deeper, below the field `name`. -/
def nest (e : Embed) (name : String) : Embed := ⟨name :: e.path, e.selector⟩

/-- An embed is shown as its selector, after its path if it is not at the root. -/
def text (e : Embed) : String :=
  if e.path.isEmpty then e.selector.text else e.path.text ++ ": " ++ e.selector.text

end Embed

/-- The regions that a value is assembled from. -/
structure Composition where
  embeds : List Embed
  deriving DecidableEq

namespace Composition

/-- Nothing is known about the value. -/
def unknown : Composition := ⟨[]⟩

/-- A copy of one region. -/
def of (s : Selector) : Composition := ⟨[⟨[], s⟩]⟩

/-- A value that is not followed. -/
def blank : Composition := of .blank

instance : Inhabited Composition := ⟨unknown⟩

def isUnknown (c : Composition) : Bool := c.embeds.isEmpty

/-- The region that the value is a plain copy of, if it is one (`Composition.as_selector`). -/
def selector? (c : Composition) : Option Selector :=
  match c.embeds with
  | [⟨[], s⟩] => some s
  | _ => none

/-- One embed more, at the end. -/
def push (c : Composition) (e : Embed) : Composition := ⟨c.embeds ++ [e]⟩

/-- The composition of a field: every embed that the selection leaves, or blank if there is none. -/
def select (c : Composition) (name : String) : Composition :=
  match c.embeds.filterMap (·.select name) with
  | [] => blank
  | kept => ⟨kept⟩

/-- Selection of one field after the other (`Composition.select_path`). -/
def selectPath (c : Composition) (path : FieldPath) : Composition :=
  path.foldl select c

/-- The value as the field `name` of another one. -/
def nest (c : Composition) (name : String) : Composition :=
  ⟨c.embeds.map (·.nest name)⟩

/-- The embeds in brackets. -/
def text (c : Composition) : String :=
  "[" ++ ", ".intercalate (c.embeds.map Embed.text) ++ "]"

end Composition

end SliceLineage
