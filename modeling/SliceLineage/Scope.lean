import SliceLineage.Ident

/-!
# Names in scope

A stack of frames, each with the names declared in it, and a supply of fresh values. A name means
the newest declaration in the innermost frame that has one. The name `_` is always blank and is
never declared.
-/

namespace SliceLineage

/-- The names declared in one frame, newest first. -/
abbrev Frame := List (String × ValueId)

/-- The open frames, innermost first, and the number of values handed out so far. -/
structure Scopes where
  frames : List Frame
  allocated : Nat

namespace Scopes

/-- The name of the blank value (`BLANK_NAME`). -/
def blankName : String := "_"

/-- One frame without names (`Scopes.new`). -/
def empty : Scopes := ⟨[[]], 0⟩

instance : Inhabited Scopes := ⟨empty⟩

/-- Number of frames around the outermost one. -/
def depth (s : Scopes) : Nat := s.frames.length - 1

/-- A value that was not handed out before. -/
def fresh (s : Scopes) : ValueId × Scopes :=
  (.tracked s.allocated, { s with allocated := s.allocated + 1 })

/-- Several fresh values. -/
def freshMany (s : Scopes) : Nat → List ValueId × Scopes
  | 0 => ([], s)
  | n + 1 =>
      let (value, s) := s.fresh
      let (values, s) := s.freshMany n
      (value :: values, s)

/-- Adds a name to the innermost frame. -/
def bind (s : Scopes) (name : String) (value : ValueId) : Scopes :=
  match s.frames with
  | [] => { s with frames := [[(name, value)]] }
  | frame :: outer => { s with frames := ((name, value) :: frame) :: outer }

/-- Declares a name in the innermost frame and gives it a fresh value; `_` stays blank
(`Scopes.create_variable`). -/
def declare (s : Scopes) (name : String) : ValueId × Scopes :=
  if name = blankName then (.blank, s)
  else
    let (value, s) := s.fresh
    (value, s.bind name value)

/-- Declares several names, in order. -/
def declareAll (s : Scopes) : List String → List ValueId × Scopes
  | [] => ([], s)
  | name :: names =>
      let (value, s) := s.declare name
      let (values, s) := s.declareAll names
      (value :: values, s)

/-- The value of a name, if it is declared (`Scopes.lookup`). -/
def lookup? (s : Scopes) (name : String) : Option ValueId :=
  if name = blankName then some .blank
  else s.frames.findSome? (·.lookup name)

/-- The value of a name; blank if it is not declared (`Scopes.lookup_or_blank`). -/
def lookup (s : Scopes) (name : String) : ValueId := (s.lookup? name).getD .blank

/-- Opens a frame (`Scopes.push_frame`). -/
def push (s : Scopes) : Scopes := { s with frames := [] :: s.frames }

/-- Closes the innermost frame. -/
def pop (s : Scopes) : Scopes := { s with frames := s.frames.tail }

end Scopes

end SliceLineage
