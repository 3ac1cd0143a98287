import SliceLineage.Proofs.Leaves.LeafPaths

/-!
# The order of leaf paths

Paths are listed in the lexicographic order of their fields, and fields in the lexicographic order
of their characters. A path comes before everything that extends it, but a field does not: `Me` is
the beginning of the text `Meta` and not of the path that consists of it.

* `lexLe_ne_iff_lt`: if different elements are in the order `<`, so are different lists.
  `pathLe_ne_iff_lt`: this is how paths are ordered.
* `eq_leafPaths_of_sorted`: a strictly increasing list of the maximal paths is the list of leaf
  paths.
* `leafPaths_lists_maximal`: what follows for the leaf paths of any list.
-/

namespace SliceLineage

/-- Different lists are ordered by the first place in which they differ. -/
theorem lexLe_ne_iff_lt {α : Type} [DecidableEq α] [LT α] [Std.Irrefl (α := α) (· < ·)]
    {le : α → α → Bool} (hle : ∀ a b, a ≠ b → (le a b = true ↔ a < b)) {s t : List α} :
    lexLe le s t = true ∧ s ≠ t ↔ s < t := by
  induction s generalizing t with
  | nil => cases t <;> simp [lexLe]
  | cons a s ih =>
      cases t with
      | nil => simp [lexLe]
      | cons b t =>
          rw [lexLe, List.cons_lt_cons_iff]
          by_cases hab : a = b
          · subst hab
            simp [← ih, Std.Irrefl.irrefl (r := fun x y : α => x < y) a]
          · simp [hab, hle a b hab]

theorem textLe_iff_lt {s t : String} (hne : s ≠ t) : textLe s t = true ↔ s < t := by
  have hchars : ∀ a b : Char, a ≠ b → ((decide (a.toNat < b.toNat)) = true ↔ a < b) := by
    intro a b _
    rw [decide_eq_true_eq]
    exact Iff.rfl
  rw [String.lt_iff, ← lexLe_ne_iff_lt hchars, textLe, and_iff_left]
  exact fun h => hne (String.toList_injective h)

/-- **Paths are ordered by their fields**, and these by their characters. -/
theorem pathLe_ne_iff_lt {p q : FieldPath} : pathLe p q = true ∧ p ≠ q ↔ p < q :=
  lexLe_ne_iff_lt fun _ _ => textLe_iff_lt

theorem leafPaths_increasing (paths : List FieldPath) : (leafPaths paths).Pairwise (· < ·) :=
  (leafPaths_pairwise paths).imp fun h => pathLe_ne_iff_lt.mp ⟨h.1, ne_of_not_isPrefix h.2⟩

/-- Only one strictly increasing list has the maximal paths as its members. -/
theorem eq_leafPaths_of_sorted {paths ps : List FieldPath} (hps : ps.Pairwise (· < ·))
    (hmem : ∀ p, p ∈ ps ↔ p ∈ paths ∧ ∀ q ∈ paths, p <+: q → q = p) : ps = leafPaths paths :=
  eq_of_sorted (hps.imp pathLe_ne_iff_lt.mpr)
    ((leafPaths_increasing paths).imp pathLe_ne_iff_lt.mpr)
    fun p => (hmem p).trans mem_leafPaths_iff.symm

/-- No leaf path is the beginning of another one. -/
theorem leafPaths_antichain {paths : List FieldPath} {p q : FieldPath} (hp : p ∈ leafPaths paths)
    (hq : q ∈ leafPaths paths) (h : p <+: q) : q = p :=
  (mem_leafPaths_iff.mp hp).2 q (mem_leafPaths_iff.mp hq).1 h

/-- **The leaf paths are the maximal paths, in strictly increasing order.** A path is listed exactly
if it is one of the given paths and no proper beginning of another one, and the list is the only one
that has these members in this order. So no leaf path is the beginning of another, every given path
is the beginning of a leaf path, neither order nor repetition of the given paths has an influence,
and the leaf paths of leaf paths are the same. -/
theorem leafPaths_lists_maximal (paths : List FieldPath) :
    (leafPaths paths).Pairwise (· < ·) ∧
    (∀ p, p ∈ leafPaths paths ↔ p ∈ paths ∧ ¬ ∃ q ∈ paths, p <+: q ∧ p ≠ q) ∧
    (∀ ps : List FieldPath, ps.Pairwise (· < ·) →
      (∀ p, p ∈ ps ↔ p ∈ paths ∧ ¬ ∃ q ∈ paths, p <+: q ∧ p ≠ q) → ps = leafPaths paths) ∧
    (∀ p ∈ leafPaths paths, ∀ q ∈ leafPaths paths, p <+: q → p = q) ∧
    (∀ p ∈ paths, ∃ q ∈ leafPaths paths, p <+: q) ∧
    (∀ paths' : List FieldPath, (∀ p, p ∈ paths' ↔ p ∈ paths) →
      leafPaths paths' = leafPaths paths) ∧
    leafPaths (leafPaths paths) = leafPaths paths := by
  have hmaximal : ∀ p, (p ∈ paths ∧ ¬ ∃ q ∈ paths, p <+: q ∧ p ≠ q) ↔
      p ∈ paths ∧ ∀ q ∈ paths, p <+: q → q = p := by
    intro p
    simp only [not_exists, not_and, ne_eq, Decidable.not_not, eq_comm]
  refine ⟨leafPaths_increasing paths, fun p => mem_leafPaths_iff.trans (hmaximal p).symm,
    fun ps hps hmem => eq_leafPaths_of_sorted hps fun p => (hmem p).trans (hmaximal p),
    fun p hp q hq h => (leafPaths_antichain hp hq h).symm, fun p => exists_leaf_above, ?_, ?_⟩
  · intro paths' hsame
    refine eq_leafPaths_of_sorted (leafPaths_increasing paths') fun p => ?_
    simp only [mem_leafPaths_iff, hsame]
  · refine eq_leafPaths_of_sorted (leafPaths_increasing _) fun p => mem_leafPaths_iff.trans ?_
    -- a leaf path is maximal among the leaf paths, because they are some of the given paths
    constructor
    · rintro ⟨hp, -⟩
      exact mem_leafPaths_iff.mp hp
    · intro hp
      exact ⟨mem_leafPaths_iff.mpr hp, fun q hq => hp.2 q (mem_leafPaths_iff.mp hq).1⟩

end SliceLineage
