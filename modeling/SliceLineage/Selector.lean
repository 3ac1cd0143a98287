import SliceLineage.Ident

/-!
# Selectors

A `Selector` names one field region of one value: the value and the path of field names that
leads to the region, outermost field first. The empty path selects the whole value.
-/

namespace SliceLineage

/-- Field names, outermost first. -/
abbrev FieldPath := List String

/-- A path is shown with dots between its fields. -/
def FieldPath.text (path : FieldPath) : String := ".".intercalate path

/-- What is left of a path below `base`, if the path begins with `base`. -/
def FieldPath.below? : (base path : FieldPath) → Option FieldPath
  | [], path => some path
  | f :: base, g :: path => if f = g then below? base path else none
  | _ :: _, [] => none

theorem FieldPath.below?_eq_some {base path s : FieldPath} :
    below? base path = some s ↔ path = base ++ s := by
  induction base generalizing path with
  | nil => simp [below?]
  | cons f base ih =>
      cases path with
      | nil => simp [below?]
      | cons g path =>
          rw [below?]
          split
          · rename_i h
            simp [ih, h]
          · rename_i h
            simp [Ne.symm h]

/-- A field region of a value. -/
structure Selector where
  value : ValueId
  path : FieldPath
  deriving DecidableEq

namespace Selector

/-- The whole of a value. -/
def whole (value : ValueId) : Selector := ⟨value, []⟩

/-- The whole blank value. -/
def blank : Selector := whole .blank

instance : Inhabited Selector := ⟨blank⟩

def isBlank (s : Selector) : Bool := s.value.isBlank

def isWhole (s : Selector) : Bool := s.path.isEmpty

/-- The region `suffix` below a selector. -/
def extend (s : Selector) (suffix : FieldPath) : Selector := ⟨s.value, s.path ++ suffix⟩

/-- One field below a selector. -/
def field (s : Selector) (name : String) : Selector := s.extend [name]

/-- The value followed by each field after a dot. -/
def text (s : Selector) : String :=
  s.path.foldl (fun shown name => shown ++ "." ++ name) s.value.text

@[simp]
theorem extend_nil (s : Selector) : s.extend [] = s := by
  simp [extend]

@[simp]
theorem extend_extend (s : Selector) (p q : FieldPath) :
    (s.extend p).extend q = s.extend (p ++ q) := by
  simp [extend]

end Selector

end SliceLineage
