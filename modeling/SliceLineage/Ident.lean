import Std.Data.TreeMap

/-!
# Identifiers

* `ValueId`: a tracked value of a function, or the blank value, which stands for anything whose
  provenance is not followed.
* `PointId`: a control point of a flow graph; point zero is where every new graph starts.
* `FuncId`: a function with a registered call summary.

Values and points are keys of ordered maps, so both carry a lawful order.
-/

namespace SliceLineage

/-- A value of the analysed function. -/
inductive ValueId where
  | blank
  | tracked (index : Nat)
  deriving DecidableEq, Inhabited

namespace ValueId

def isBlank : ValueId → Bool
  | blank => true
  | tracked _ => false

theorem isBlank_iff {v : ValueId} : v.isBlank = true ↔ v = blank := by
  cases v <;> simp [isBlank]

theorem isBlank_eq_false_iff {v : ValueId} : v.isBlank = false ↔ v ≠ blank := by
  rw [← Bool.not_eq_true, Ne, isBlank_iff]

/-- The blank value is shown as an underscore, a tracked one by its number. -/
def text : ValueId → String
  | blank => "_"
  | tracked index => "$" ++ index.repr

/-- Position in the order of values: tracked values by number, blank before all of them. -/
def rank : ValueId → Nat
  | blank => 0
  | tracked index => index + 1

theorem rank_inj {a b : ValueId} (h : a.rank = b.rank) : a = b := by
  cases a <;> cases b <;> simp_all [rank]

instance : Ord ValueId := ⟨fun a b => compare a.rank b.rank⟩

instance : Std.TransOrd ValueId := inferInstanceAs (Std.TransCmp (compareOn rank))

instance : Std.LawfulEqOrd ValueId where
  eq_of_compare h := rank_inj (Std.LawfulEqOrd.eq_of_compare (α := Nat) h)

end ValueId

/-- A control point of a flow graph. -/
structure PointId where
  index : Nat
  deriving DecidableEq, Inhabited

namespace PointId

/-- Where a new graph starts (`PointId.ROOT`). -/
def root : PointId := ⟨0⟩

def text (p : PointId) : String := "#" ++ p.index.repr

instance : Ord PointId := ⟨fun a b => compare a.index b.index⟩

instance : Std.TransOrd PointId := inferInstanceAs (Std.TransCmp (compareOn index))

instance : Std.LawfulEqOrd PointId where
  eq_of_compare {a b} h := by
    cases a; cases b
    exact congrArg mk (Std.LawfulEqOrd.eq_of_compare (α := Nat) h)

end PointId

/-- A function that has a registered summary. -/
structure FuncId where
  index : Nat
  deriving DecidableEq, Inhabited

def FuncId.text (f : FuncId) : String := "fn" ++ f.index.repr

end SliceLineage
