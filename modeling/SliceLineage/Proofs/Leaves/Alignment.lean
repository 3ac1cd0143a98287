import SliceLineage.Leaves.Closure
import SliceLineage.Proofs.Leaves.LeafPaths
import SliceLineage.Proofs.Reachability

/-!
# The leaf rules of a batch of assignments

* `followedPaths`: the paths that a batch follows. They hold what the batch mentions, and unless the
  cap cut something off they are closed under its assignments (`mem_followedPaths_across`).
* `LeafRules.expand_eq`: a mentioned selector has leaves below it.
* `isLeaf_extend_iff`: without a cut, the two sides of an assignment between different values have
  leaves at the same suffixes; `suffixes_source_eq_target`: also in the same order.
-/

namespace SliceLineage

/-- The paths that are followed for a single batch of assignments. -/
def followedPaths (depth : Nat) (assignments : List Assignment) : List PathEntry :=
  (PathClosure.empty.extend depth assignments).1

variable {depth : Nat} {assignments : List Assignment}

theorem mem_followedPaths_of_seed {e : PathEntry} (he : e ∈ seedPaths assignments) :
    e ∈ followedPaths depth assignments :=
  mem_saturate_of_mem (mem_newOnes.mpr ⟨he, List.not_mem_nil⟩)

/-- The batch mentions the whole value and the path of each side that is not blank. -/
theorem mem_followedPaths_of_side {a : Assignment} (ha : a ∈ assignments) {s : Selector}
    (hs : s = a.source ∨ s = a.target) (hb : s.isBlank = false) :
    (s.value, []) ∈ followedPaths depth assignments ∧
      (s.value, s.path) ∈ followedPaths depth assignments := by
  have hside : s ∈ [a.source, a.target] := by
    rcases hs with rfl | rfl <;> simp
  have hseed : ∀ e, e ∈ [(s.value, []), (s.value, s.path)] → e ∈ seedPaths assignments := by
    intro e he
    refine List.mem_filter.mpr ⟨List.mem_flatMap.mpr ⟨a, ha, ?_⟩, ?_⟩
    · exact List.mem_flatMap.mpr ⟨s, hside, he⟩
    · have hv : e.1 = s.value := by
        simp only [List.mem_cons, List.not_mem_nil, or_false] at he
        rcases he with rfl | rfl <;> rfl
      rw [hv]
      simpa [Selector.isBlank] using hb
  exact ⟨mem_followedPaths_of_seed (hseed _ (by simp)),
    mem_followedPaths_of_seed (hseed _ (by simp))⟩

theorem across_extend (near far : Selector) (u : FieldPath) :
    PathEntry.across near far (near.value, near.path ++ u) =
      some (far.value, far.path ++ u) := by
  have hbelow : near.path.below? (near.path ++ u) = some u := FieldPath.below?_eq_some.mpr rfl
  simp [PathEntry.across, hbelow]

theorem mem_propagate_of_across {index : List Assignment} {a : Assignment} (ha : a ∈ index)
    {e e' : PathEntry} (h : PathEntry.across a.target a.source e = some e' ∨
      PathEntry.across a.source a.target e = some e') : e' ∈ propagate index e := by
  rcases h with h | h
  · exact List.mem_append_left _ (List.mem_filterMap.mpr ⟨a, ha, h⟩)
  · exact List.mem_append_right _ (List.mem_filterMap.mpr ⟨a, ha, h⟩)

/-- What a followed path leads to is followed as well, up to the cap. -/
theorem mem_followedPaths_of_propagateWithin {e e' : PathEntry}
    (he : e ∈ followedPaths depth assignments)
    (h : e' ∈ propagateWithin (max depth (longestPath assignments))
      (assignments.filter Assignment.carriesPaths) e) :
    e' ∈ followedPaths depth assignments := by
  refine mem_saturate_of_step _ _ _ e he ?_ e' h
  by_cases hq : e ∈ newOnes [] (seedPaths assignments)
  · exact Or.inl hq
  · exact Or.inr hq

/-- If nothing was cut off, what a followed path leads to is followed as well. -/
theorem mem_followedPaths_of_propagate (ht : (leafRules depth assignments).truncated = false)
    {e e' : PathEntry} (he : e ∈ followedPaths depth assignments)
    (h : e' ∈ propagate (assignments.filter Assignment.carriesPaths) e) :
    e' ∈ followedPaths depth assignments := by
  have hcut : ∀ e ∈ followedPaths depth assignments,
      droppedPaths (max depth (longestPath assignments))
        (assignments.filter Assignment.carriesPaths) e = [] := by
    have hdropped : ((followedPaths depth assignments).flatMap
        (droppedPaths (max depth (longestPath assignments))
          (assignments.filter Assignment.carriesPaths))).length = 0 := by
      have : (0 + ((followedPaths depth assignments).flatMap
        (droppedPaths (max depth (longestPath assignments))
          (assignments.filter Assignment.carriesPaths))).length != 0) = false := ht
      simpa using this
    rw [List.length_eq_zero_iff, List.flatMap_eq_nil_iff] at hdropped
    exact hdropped
  have hlen : e'.2.length ≤ max depth (longestPath assignments) := by
    have hno := List.filter_eq_nil_iff.mp (hcut e he) e' h
    simp only [decide_eq_true_eq, Nat.not_lt] at hno
    exact hno
  exact mem_followedPaths_of_propagateWithin he (List.mem_filter.mpr ⟨h, decide_eq_true hlen⟩)

/-- The followed paths below the two sides of an assignment correspond. -/
theorem mem_followedPaths_across (ht : (leafRules depth assignments).truncated = false)
    {a : Assignment} (ha : a ∈ assignments) (hc : a.carriesPaths) (u : FieldPath) :
    (a.source.value, a.source.path ++ u) ∈ followedPaths depth assignments ↔
      (a.target.value, a.target.path ++ u) ∈ followedPaths depth assignments := by
  have hindex : a ∈ assignments.filter Assignment.carriesPaths := List.mem_filter.mpr ⟨ha, hc⟩
  constructor
  · intro h
    exact mem_followedPaths_of_propagate ht h
      (mem_propagate_of_across hindex (Or.inr (across_extend a.source a.target u)))
  · intro h
    exact mem_followedPaths_of_propagate ht h
      (mem_propagate_of_across hindex (Or.inl (across_extend a.target a.source u)))

theorem lookup_map_mk {α β : Type} [DecidableEq α] (f : α → β) (keys : List α) (k : α) :
    (keys.map fun k => (k, f k)).lookup k = if k ∈ keys then some (f k) else none := by
  induction keys with
  | nil => rfl
  | cons j keys ih =>
      by_cases h : k = j
      · subst h; simp
      · have hne : (k == j) = false := beq_eq_false_iff_ne.mpr h
        simp [List.lookup_cons, hne, h, ih]

namespace LeafRules

/-- The region is not split any further. -/
def IsLeaf (r : LeafRules) (s : Selector) : Prop :=
  match r.leaves? s.value with
  | none => s.path = []
  | some leaves => s.path ∈ leaves

/-- The leaf regions at or below a selector; a value without rule is not split. -/
def below (r : LeafRules) (s : Selector) : List Selector :=
  match r.leaves? s.value with
  | none => [s]
  | some leaves => (leaves.filter (s.path.isPrefixOf ·)).map (⟨s.value, ·⟩)

theorem leaves?_ofPaths (paths : List PathEntry) (truncated : Bool) (v : ValueId) :
    (ofPaths paths truncated).leaves? v =
      if v ∈ paths.map Prod.fst then
        some (leafPaths ((paths.filter (·.1 == v)).map Prod.snd))
      else none := by
  have h := lookup_map_mk (fun v => leafPaths ((paths.filter (·.1 == v)).map Prod.snd))
    (paths.map Prod.fst).eraseDups v
  simp only [List.mem_eraseDups] at h
  exact h

theorem expand_eq {r : LeafRules} {s x : Selector} (hx : x ∈ r.below s) :
    r.expand s = .ok (r.below s) := by
  unfold expand
  unfold below at hx ⊢
  cases hl : r.leaves? s.value with
  | none => rfl
  | some leaves =>
      rw [hl] at hx
      cases hf : leaves.filter (s.path.isPrefixOf ·) with
      | nil => simp [hf] at hx
      | cons p rest => simp [hf]

end LeafRules

/-- The batch follows some path on the value. -/
def Mentions (depth : Nat) (assignments : List Assignment) (v : ValueId) : Prop :=
  ∃ p, (v, p) ∈ followedPaths depth assignments

/-- The batch mentions the values of both sides of its assignments. -/
theorem mentions_of_side {a : Assignment} (ha : a ∈ assignments) {s : Selector}
    (hs : s = a.source ∨ s = a.target) (hb : s.isBlank = false) :
    Mentions depth assignments s.value :=
  ⟨[], (mem_followedPaths_of_side ha hs hb).1⟩

theorem leaves?_leafRules_of_mentions {v : ValueId} (hv : Mentions depth assignments v) :
    ∃ leaves, (leafRules depth assignments).leaves? v = some leaves ∧ leaves.Nodup ∧
      leaves.Pairwise (fun p q => pathLe p q = true ∧ ¬ p <+: q) ∧
      ∀ p, p ∈ leaves ↔ (v, p) ∈ followedPaths depth assignments ∧
        ∀ q, (v, q) ∈ followedPaths depth assignments → p <+: q → q = p := by
  obtain ⟨p, hp⟩ := hv
  have hmem : v ∈ (followedPaths depth assignments).map Prod.fst :=
    List.mem_map.mpr ⟨(v, p), hp, rfl⟩
  have hl := LeafRules.leaves?_ofPaths (followedPaths depth assignments)
    (leafRules depth assignments).truncated v
  rw [if_pos hmem] at hl
  refine ⟨_, hl, leafPaths_nodup _, leafPaths_pairwise _, fun q => ?_⟩
  rw [mem_leafPaths_iff]
  simp

theorem leaves?_leafRules_eq_none {v : ValueId} :
    (leafRules depth assignments).leaves? v = none ↔ ¬ Mentions depth assignments v := by
  constructor
  · intro hl hv
    obtain ⟨leaves, hl', -⟩ := leaves?_leafRules_of_mentions hv
    rw [hl] at hl'
    cases hl'
  · intro hv
    have hmem : v ∉ (followedPaths depth assignments).map Prod.fst := by
      intro h
      obtain ⟨⟨w, p⟩, hp, rfl⟩ := List.mem_map.mp h
      exact hv ⟨p, hp⟩
    have hl := LeafRules.leaves?_ofPaths (followedPaths depth assignments)
      (leafRules depth assignments).truncated v
    rw [if_neg hmem] at hl
    exact hl

theorem isLeaf_leafRules_iff {s : Selector} (hv : Mentions depth assignments s.value) :
    (leafRules depth assignments).IsLeaf s ↔
      (s.value, s.path) ∈ followedPaths depth assignments ∧
        ∀ q, (s.value, q) ∈ followedPaths depth assignments → s.path <+: q → q = s.path := by
  obtain ⟨leaves, hl, -, -, hmem⟩ := leaves?_leafRules_of_mentions hv
  rw [LeafRules.IsLeaf, hl]
  exact hmem s.path

theorem mem_below_iff {s x : Selector} (hv : Mentions depth assignments s.value) :
    x ∈ (leafRules depth assignments).below s ↔
      x.value = s.value ∧ s.path <+: x.path ∧ (leafRules depth assignments).IsLeaf x := by
  obtain ⟨leaves, hl, -⟩ := leaves?_leafRules_of_mentions hv
  rw [LeafRules.below, hl]
  simp only [List.mem_map, List.mem_filter, List.isPrefixOf_iff_prefix]
  constructor
  · rintro ⟨p, ⟨hp, hpre⟩, rfl⟩
    refine ⟨rfl, hpre, ?_⟩
    rw [LeafRules.IsLeaf, hl]
    exact hp
  · rintro ⟨hvalue, hpre, hleaf⟩
    rw [LeafRules.IsLeaf, hvalue, hl] at hleaf
    exact ⟨x.path, ⟨hleaf, hpre⟩, by rw [← hvalue]⟩

/-- A followed path has a leaf at or below it. -/
theorem exists_mem_below {s : Selector}
    (hs : (s.value, s.path) ∈ followedPaths depth assignments) :
    ∃ x, x ∈ (leafRules depth assignments).below s := by
  have hmem : s.value ∈ (followedPaths depth assignments).map Prod.fst :=
    List.mem_map.mpr ⟨_, hs, rfl⟩
  have hl := LeafRules.leaves?_ofPaths (followedPaths depth assignments)
    (leafRules depth assignments).truncated s.value
  rw [if_pos hmem] at hl
  have hpath : s.path ∈
      ((followedPaths depth assignments).filter (·.1 == s.value)).map Prod.snd := by
    simpa using hs
  obtain ⟨q, hq, hpre⟩ := exists_leaf_above hpath
  refine ⟨⟨s.value, q⟩, (mem_below_iff ⟨_, hs⟩).mpr ⟨rfl, hpre, ?_⟩⟩
  show match (leafRules depth assignments).leaves? s.value with
    | none => q = []
    | some leaves => q ∈ leaves
  have hl' : (leafRules depth assignments).leaves? s.value = _ := hl
  rw [hl']
  exact hq

/-- A whole value has leaves, mentioned or not. -/
theorem exists_mem_below_whole (v : ValueId) :
    ∃ x, x ∈ (leafRules depth assignments).below (.whole v) := by
  by_cases hv : Mentions depth assignments v
  · obtain ⟨p, hp⟩ := hv
    obtain ⟨x, hx⟩ := exists_mem_below (s := ⟨v, p⟩) hp
    obtain ⟨hvalue, -, hleaf⟩ := (mem_below_iff (s := ⟨v, p⟩) ⟨p, hp⟩).mp hx
    exact ⟨x, (mem_below_iff (s := .whole v) ⟨p, hp⟩).mpr ⟨hvalue, List.nil_prefix, hleaf⟩⟩
  · have hl : (leafRules depth assignments).leaves? (Selector.whole v).value = none :=
      leaves?_leafRules_eq_none.mpr hv
    exact ⟨.whole v, by rw [LeafRules.below, hl]; exact List.mem_singleton.mpr rfl⟩

/-! ## The two sides of an assignment -/

theorem mentions_of_carriesPaths {a : Assignment} (ha : a ∈ assignments) (hc : a.carriesPaths) :
    Mentions depth assignments a.source.value ∧ Mentions depth assignments a.target.value := by
  simp only [Assignment.carriesPaths, Bool.and_eq_true, Bool.not_eq_true'] at hc
  exact ⟨mentions_of_side ha (Or.inl rfl) hc.1.1, mentions_of_side ha (Or.inr rfl) hc.1.2⟩

/-- The two sides of an assignment between different values have leaves at the same suffixes. -/
theorem isLeaf_extend_iff (ht : (leafRules depth assignments).truncated = false) {a : Assignment}
    (ha : a ∈ assignments) (hc : a.carriesPaths) (u : FieldPath) :
    (leafRules depth assignments).IsLeaf (a.source.extend u) ↔
      (leafRules depth assignments).IsLeaf (a.target.extend u) := by
  obtain ⟨hsource, htarget⟩ := mentions_of_carriesPaths ha hc
  rw [isLeaf_leafRules_iff (s := a.source.extend u) hsource,
    isLeaf_leafRules_iff (s := a.target.extend u) htarget]
  simp only [Selector.extend]
  rw [mem_followedPaths_across ht ha hc u]
  refine and_congr_right fun _ => ⟨?_, ?_⟩
  · rintro hmax q hq ⟨w, rfl⟩
    rw [List.append_assoc, ← mem_followedPaths_across ht ha hc] at hq
    have := hmax _ hq (by rw [← List.append_assoc]; exact List.prefix_append _ _)
    simp_all
  · rintro hmax q hq ⟨w, rfl⟩
    rw [List.append_assoc, mem_followedPaths_across ht ha hc] at hq
    have := hmax _ hq (by rw [← List.append_assoc]; exact List.prefix_append _ _)
    simp_all

/-- What follows the path of a selector in the leaves below it, in order. -/
def LeafRules.suffixes (r : LeafRules) (s : Selector) : List FieldPath :=
  (r.below s).map fun x => x.path.drop s.path.length

theorem LeafRules.eq_extend_of_mem_below {r : LeafRules} {s x : Selector} (hx : x ∈ r.below s) :
    x = s.extend (x.path.drop s.path.length) := by
  unfold below at hx
  split at hx
  · rw [List.mem_singleton.mp hx]
    simp
  · obtain ⟨p, hp, rfl⟩ := List.mem_map.mp hx
    obtain ⟨w, rfl⟩ := List.isPrefixOf_iff_prefix.mp (List.mem_filter.mp hp).2
    simp [Selector.extend]

theorem LeafRules.below_eq (r : LeafRules) (s : Selector) :
    r.below s = (r.suffixes s).map s.extend := by
  rw [suffixes, List.map_map]
  calc r.below s = (r.below s).map id := (List.map_id _).symm
    _ = _ := List.map_congr_left fun x hx => eq_extend_of_mem_below hx

theorem lexLe_append_left {α : Type} [DecidableEq α] {le : α → α → Bool} (s t u : List α) :
    lexLe le (s ++ t) (s ++ u) = lexLe le t u := by
  induction s with
  | nil => rfl
  | cons a s ih => rw [List.cons_append, List.cons_append, lexLe, if_pos rfl, ih]

theorem mem_suffixes_iff {s : Selector} (hv : Mentions depth assignments s.value)
    {u : FieldPath} :
    u ∈ (leafRules depth assignments).suffixes s ↔
      (leafRules depth assignments).IsLeaf (s.extend u) := by
  constructor
  · intro hu
    have hx : s.extend u ∈ (leafRules depth assignments).below s := by
      rw [LeafRules.below_eq]
      exact List.mem_map_of_mem hu
    exact ((mem_below_iff hv).mp hx).2.2
  · intro hleaf
    refine List.mem_map.mpr ⟨s.extend u, ?_, by simp [Selector.extend]⟩
    exact (mem_below_iff hv).mpr ⟨rfl, List.prefix_append _ _, hleaf⟩

theorem suffixes_pairwise {s : Selector} (hv : Mentions depth assignments s.value) :
    ((leafRules depth assignments).suffixes s).Pairwise
      fun u w => pathLe u w = true ∧ u ≠ w := by
  obtain ⟨leaves, hl, -, hasc, -⟩ := leaves?_leafRules_of_mentions hv
  rw [LeafRules.suffixes, LeafRules.below, hl, List.map_map, List.pairwise_map]
  have hsub := hasc.sublist (List.filter_sublist (p := (s.path.isPrefixOf ·)))
  refine hsub.imp_of_mem ?_
  intro p q hp hq hpq
  obtain ⟨u, rfl⟩ := List.isPrefixOf_iff_prefix.mp (List.mem_filter.mp hp).2
  obtain ⟨w, rfl⟩ := List.isPrefixOf_iff_prefix.mp (List.mem_filter.mp hq).2
  simp only [Function.comp_apply, List.drop_left]
  refine ⟨by rw [← hpq.1, pathLe, pathLe, lexLe_append_left], ?_⟩
  rintro rfl
  exact hpq.2 (List.prefix_refl _)

/-- **Both sides of an assignment split alike.** Between two different followed values, and if no
path was cut off, the leaves of the two sides have the same suffixes in the same order. -/
theorem suffixes_source_eq_target (ht : (leafRules depth assignments).truncated = false)
    {a : Assignment} (ha : a ∈ assignments) (hc : a.carriesPaths) :
    (leafRules depth assignments).suffixes a.source =
      (leafRules depth assignments).suffixes a.target := by
  obtain ⟨hsource, htarget⟩ := mentions_of_carriesPaths ha hc
  refine eq_of_sorted (suffixes_pairwise hsource) (suffixes_pairwise htarget) fun u => ?_
  rw [mem_suffixes_iff hsource, mem_suffixes_iff htarget, isLeaf_extend_iff ht ha hc]

end SliceLineage
