import SliceLineage.Leaves.Rules

/-!
# Leaf paths are the maximal paths

In lexicographic order the extensions of a path stand right behind it (`isPrefix_of_between`).
Dropping from a sorted list each path that the next one extends therefore leaves those that no path
of the list extends.

* `mem_leafPaths_iff`: a leaf path is one that no other path extends.
* `leafPaths_pairwise`: leaf paths are listed in order, none extends another.
* `exists_leaf_above`: every path is the beginning of a leaf path.
-/

namespace SliceLineage

theorem lexLe_of_isPrefix {α : Type} [DecidableEq α] {le : α → α → Bool} {s t : List α}
    (h : s <+: t) : lexLe le s t = true := by
  induction s generalizing t with
  | nil => rfl
  | cons a s ih =>
      obtain ⟨u, rfl⟩ := h
      rw [List.cons_append, lexLe, if_pos rfl]
      exact ih ⟨u, rfl⟩

/-- Between a list and one of its extensions stand only extensions of it. -/
theorem isPrefix_of_between {α : Type} [DecidableEq α] {le : α → α → Bool} (horders : Orders le)
    {s t u : List α} (hsu : s <+: u) (hst : lexLe le s t = true) (htu : lexLe le t u = true) :
    s <+: t := by
  induction s generalizing t u with
  | nil => exact List.nil_prefix
  | cons a s ih =>
      obtain ⟨v, rfl⟩ := hsu
      cases t with
      | nil => cases hst
      | cons b t =>
          rw [lexLe] at hst
          rw [List.cons_append, lexLe] at htu
          by_cases hab : a = b
          · rw [if_pos hab] at hst
            rw [if_pos hab.symm] at htu
            exact List.cons_prefix_cons.mpr ⟨hab, ih ⟨v, rfl⟩ hst htu⟩
          · rw [if_neg hab] at hst
            rw [if_neg (Ne.symm hab)] at htu
            exact absurd (horders.antisymm a b hst htu) hab

/-- Each path stands before those that follow it. -/
def Ascending (paths : List FieldPath) : Prop := paths.Pairwise fun p q => pathLe p q = true

theorem ascending_mergeSort (paths : List FieldPath) : Ascending (paths.mergeSort pathLe) := by
  apply List.pairwise_mergeSort
  · exact fun p q r => orders_pathLe.trans p q r
  · intro p q
    rw [Bool.or_eq_true]
    exact lexLe_total orders_textLe p q

theorem dropExtended_subset (paths : List FieldPath) : dropExtended paths ⊆ paths := by
  fun_induction dropExtended paths with
  | case1 => exact List.Subset.refl _
  | case2 p => exact List.Subset.refl _
  | case3 p q rest _ ih => exact List.subset_cons_of_subset _ ih
  | case4 p q rest _ ih => exact List.cons_subset_cons _ ih

/-- A path of an ascending list that the next one does not extend is extended by none behind it. -/
theorem not_isPrefix_of_ascending {p q : FieldPath} {rest : List FieldPath}
    (hasc : Ascending (p :: q :: rest)) (hpq : ¬ p <+: q) : ∀ x ∈ q :: rest, ¬ p <+: x := by
  obtain ⟨hp, htail⟩ := List.pairwise_cons.mp hasc
  intro x hx hpx
  apply hpq
  refine isPrefix_of_between orders_textLe hpx (hp q List.mem_cons_self) ?_
  rcases List.mem_cons.mp hx with rfl | hx
  · exact lexLe_refl x
  · exact (List.pairwise_cons.mp htail).1 x hx

theorem dropExtended_pairwise {paths : List FieldPath} (hasc : Ascending paths) :
    (dropExtended paths).Pairwise fun p q => pathLe p q = true ∧ ¬ p <+: q := by
  fun_induction dropExtended paths with
  | case1 => exact List.Pairwise.nil
  | case2 p => exact List.pairwise_singleton _ _
  | case3 p q rest _ ih => exact ih (List.pairwise_cons.mp hasc).2
  | case4 p q rest hpq ih =>
      rw [List.isPrefixOf_iff_prefix] at hpq
      refine List.pairwise_cons.mpr ⟨fun x hx => ?_, ih (List.pairwise_cons.mp hasc).2⟩
      have hx' := dropExtended_subset _ hx
      exact ⟨(List.pairwise_cons.mp hasc).1 x hx', not_isPrefix_of_ascending hasc hpq x hx'⟩

theorem mem_dropExtended_iff {paths : List FieldPath} (hasc : Ascending paths) {p : FieldPath} :
    p ∈ dropExtended paths ↔ p ∈ paths ∧ ∀ q ∈ paths, p <+: q → q = p := by
  fun_induction dropExtended paths with
  | case1 => simp
  | case2 q =>
      simp only [List.mem_singleton, iff_self_and]
      rintro rfl r rfl -
      rfl
  | case3 a b rest hab ih =>
      rw [List.isPrefixOf_iff_prefix] at hab
      obtain ⟨ha, htail⟩ := List.pairwise_cons.mp hasc
      rw [ih htail]
      constructor
      · rintro ⟨hp, hmax⟩
        refine ⟨List.mem_cons_of_mem _ hp, fun q hq hpq => ?_⟩
        rcases List.mem_cons.mp hq with rfl | hq
        · exact orders_pathLe.antisymm _ _ (ha p hp) (lexLe_of_isPrefix hpq)
        · exact hmax q hq hpq
      · rintro ⟨hp, hmax⟩
        refine ⟨?_, fun q hq => hmax q (List.mem_cons_of_mem _ hq)⟩
        rcases List.mem_cons.mp hp with rfl | hp
        · rw [← hmax b (by simp) hab]
          exact List.mem_cons_self
        · exact hp
  | case4 a b rest hab ih =>
      rw [List.isPrefixOf_iff_prefix] at hab
      obtain ⟨ha, htail⟩ := List.pairwise_cons.mp hasc
      have hnot := not_isPrefix_of_ascending hasc hab
      rw [List.mem_cons, ih htail]
      constructor
      · rintro (rfl | ⟨hp, hmax⟩)
        · refine ⟨List.mem_cons_self, fun q hq hpq => ?_⟩
          rcases List.mem_cons.mp hq with rfl | hq
          · rfl
          · exact absurd hpq (hnot q hq)
        · refine ⟨List.mem_cons_of_mem _ hp, fun q hq hpq => ?_⟩
          rcases List.mem_cons.mp hq with rfl | hq
          · exact orders_pathLe.antisymm _ _ (ha p hp) (lexLe_of_isPrefix hpq)
          · exact hmax q hq hpq
      · rintro ⟨hp, hmax⟩
        rcases List.mem_cons.mp hp with rfl | hp
        · exact Or.inl rfl
        · exact Or.inr ⟨hp, fun q hq => hmax q (List.mem_cons_of_mem _ hq)⟩

/-- **The leaf paths are those that no other path extends.** -/
theorem mem_leafPaths_iff {paths : List FieldPath} {p : FieldPath} :
    p ∈ leafPaths paths ↔ p ∈ paths ∧ ∀ q ∈ paths, p <+: q → q = p := by
  rw [leafPaths, mem_dropExtended_iff (ascending_mergeSort paths)]
  simp only [List.mem_mergeSort]

/-- Leaf paths are listed in order, and none is the beginning of another. -/
theorem leafPaths_pairwise (paths : List FieldPath) :
    (leafPaths paths).Pairwise fun p q => pathLe p q = true ∧ ¬ p <+: q :=
  dropExtended_pairwise (ascending_mergeSort paths)

theorem ne_of_not_isPrefix {p q : FieldPath} (h : ¬ p <+: q) : p ≠ q := by
  rintro rfl
  exact h (List.prefix_refl p)

theorem leafPaths_nodup (paths : List FieldPath) : (leafPaths paths).Nodup :=
  (leafPaths_pairwise paths).imp fun h => ne_of_not_isPrefix h.2

/-- Two lists of paths in order and without repetition are equal if they hold the same paths. -/
theorem eq_of_sorted {ps qs : List FieldPath}
    (hps : ps.Pairwise fun p q => pathLe p q = true ∧ p ≠ q)
    (hqs : qs.Pairwise fun p q => pathLe p q = true ∧ p ≠ q) (h : ∀ p, p ∈ ps ↔ p ∈ qs) :
    ps = qs := by
  have hperm : ps.Perm qs :=
    (List.perm_ext_iff_of_nodup (hps.imp And.right) (hqs.imp And.right)).mpr h
  exact hperm.eq_of_pairwise (fun p q _ _ hpq hqp => orders_pathLe.antisymm p q hpq.1 hqp.1) hps hqs

/-- What is dropped is the beginning of something that is kept. -/
theorem exists_dropExtended_above (paths : List FieldPath) :
    ∀ p ∈ paths, ∃ q ∈ dropExtended paths, p <+: q := by
  fun_induction dropExtended paths with
  | case1 => simp
  | case2 p => simp
  | case3 a b rest hab ih =>
      rw [List.isPrefixOf_iff_prefix] at hab
      intro p hp
      rcases List.mem_cons.mp hp with rfl | hp
      · obtain ⟨q, hq, hbq⟩ := ih b List.mem_cons_self
        exact ⟨q, hq, hab.trans hbq⟩
      · exact ih p hp
  | case4 a b rest _ ih =>
      intro p hp
      rcases List.mem_cons.mp hp with rfl | hp
      · exact ⟨p, List.mem_cons_self, List.prefix_refl p⟩
      · obtain ⟨q, hq, hpq⟩ := ih p hp
        exact ⟨q, List.mem_cons_of_mem _ hq, hpq⟩

/-- Every path is the beginning of a leaf path. -/
theorem exists_leaf_above {paths : List FieldPath} {p : FieldPath} (hp : p ∈ paths) :
    ∃ q ∈ leafPaths paths, p <+: q :=
  exists_dropExtended_above _ p (List.mem_mergeSort.mpr hp)

end SliceLineage
