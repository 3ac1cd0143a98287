import SliceLineage.Error
import SliceLineage.Lexicographic

/-!
# Leaf rules

An assignment of a whole value moves every field of it that matters anywhere. The `LeafRules` of a
function say for each value into which leaf regions it splits; no leaf lies below another one.

* `pathLe`: the order in which paths are listed; `orders_pathLe`: it is total.
* `leafPaths`: the paths of a list that no other path of it extends.
* `LeafRules.expand`: the leaves at or below a selector.
-/

namespace SliceLineage

/-- Texts are ordered by the numbers of their characters. -/
def textLe (s t : String) : Bool := lexLe (fun a b : Char => a.toNat < b.toNat) s.toList t.toList

/-- Paths are ordered by their fields, from the outside in. -/
def pathLe (p q : FieldPath) : Bool := lexLe textLe p q

theorem orders_toNat : Orders (fun a b : Char => a.toNat < b.toNat) where
  connected a b hne := by
    have : a.toNat ≠ b.toNat := fun e => hne (Char.toNat_inj.mp e)
    simp only [decide_eq_true_eq]
    omega
  antisymm a b hab hba := by
    have := of_decide_eq_true hab
    have := of_decide_eq_true hba
    omega
  trans a b c hab hbc := by
    have := of_decide_eq_true hab
    have := of_decide_eq_true hbc
    exact decide_eq_true (by omega)

theorem orders_textLe : Orders textLe where
  connected s t _ := lexLe_total orders_toNat s.toList t.toList
  antisymm _ _ hst hts := String.toList_injective (lexLe_antisymm orders_toNat hst hts)
  trans _ _ _ := lexLe_trans orders_toNat

theorem orders_pathLe : Orders pathLe := orders_textLe.lexLe

/-- Drops each path that the next one extends or repeats. -/
def dropExtended : List FieldPath → List FieldPath
  | [] => []
  | [p] => [p]
  | p :: q :: rest =>
      if p.isPrefixOf q then dropExtended (q :: rest) else p :: dropExtended (q :: rest)

/-- The paths that are no proper beginning of another one, without repetition and in order: by field
names from the outside in, a path before those that extend it (`leaf_paths`). -/
def leafPaths (paths : List FieldPath) : List FieldPath :=
  dropExtended (paths.mergeSort pathLe)

/-- The leaf paths of each followed value (`FactorizationRules`). -/
structure LeafRules where
  table : List (ValueId × List FieldPath)
  /-- Some path was too long to be followed, so that the two sides of an assignment may differ. -/
  truncated : Bool

namespace LeafRules

/-- The rules that a set of followed paths gives: each value is split into its leaf paths. -/
def ofPaths (paths : List (ValueId × FieldPath)) (truncated : Bool) : LeafRules :=
  let values := (paths.map Prod.fst).eraseDups
  let pathsOf (v : ValueId) := (paths.filter (·.1 == v)).map Prod.snd
  ⟨values.map fun v => (v, leafPaths (pathsOf v)), truncated⟩

/-- Number of values with a rule. -/
def size (r : LeafRules) : Nat := r.table.length

def isEmpty (r : LeafRules) : Bool := r.table.isEmpty

/-- The leaves of a value, if it has a rule (`FactorizationRules.leaves`). -/
def leaves? (r : LeafRules) (v : ValueId) : Option (List FieldPath) := r.table.lookup v

/-- The leaf regions at or below a selector (`FactorizationRules.factorize_selector`). A value
without rule is a leaf in itself. -/
def expand (r : LeafRules) (s : Selector) : Except AnalysisError (List Selector) :=
  match r.leaves? s.value with
  | none => .ok [s]
  | some leaves =>
      match leaves.filter (s.path.isPrefixOf ·) with
      | [] => .error (.internal (.uncovered s))
      | below => .ok (below.map (⟨s.value, ·⟩))

/-- The rules of the given values, in the order of the values. -/
def listing (r : LeafRules) (values : List ValueId) : List (ValueId × List FieldPath) :=
  let ordered := values.eraseDups.mergeSort fun a b => a.rank ≤ b.rank
  ordered.filterMap fun v => (r.leaves? v).map (v, ·)

end LeafRules

end SliceLineage
