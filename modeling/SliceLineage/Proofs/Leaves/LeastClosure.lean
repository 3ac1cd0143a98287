import SliceLineage.Proofs.Leaves.Alignment

/-!
# The followed paths are the least closure

Following the paths of a batch is a search by queue. What it finds can be said without the queue and
without the order of the batch: the least set of paths that holds what the batch mentions and that
is closed under its assignments, as far as the cap allows.

* `Mentioned`, `Linked`: all that the search takes from a batch.
* `PathsClosed`: a set of paths is closed under a batch. `pathsClosed_followedPaths` and
  `PathsClosed.of_mem_followedPaths`: the followed paths are the least such set.
* `truncated_iff`: when the cap cuts something off.
* `leafRules_least_closure`: the result, with the leaves of each value; the order, repetitions and
  the direction of the assignments have no influence.
-/

namespace SliceLineage

/-- A followed selector that is a side of one of the assignments. -/
def Mentioned (assignments : List Assignment) (s : Selector) : Prop :=
  s.isBlank = false ∧ ∃ a ∈ assignments, s = a.source ∨ s = a.target

/-- An assignment leads, in one direction or the other, between regions of two different followed
values. -/
def Linked (assignments : List Assignment) (near far : Selector) : Prop :=
  (⟨near, far⟩ ∈ assignments ∨ ⟨far, near⟩ ∈ assignments) ∧
    near.isBlank = false ∧ far.isBlank = false ∧ near.value ≠ far.value

/-- The paths hold what the assignments mention, and what lies below one side of an assignment at
the same suffix below the other side, if that is not longer than the cap. -/
structure PathsClosed (cap : Nat) (assignments : List Assignment) (known : PathEntry → Prop) :
    Prop where
  whole : ∀ s, Mentioned assignments s → known (s.value, [])
  path : ∀ s, Mentioned assignments s → known (s.value, s.path)
  across : ∀ near far, Linked assignments near far → ∀ u, known (near.value, near.path ++ u) →
    (far.path ++ u).length ≤ cap → known (far.value, far.path ++ u)

/-- The assignment in the other direction. -/
def Assignment.swap (a : Assignment) : Assignment := ⟨a.target, a.source⟩

variable {depth : Nat} {assignments others : List Assignment}

/-! ## What the search takes from a batch -/

theorem mem_seedPaths_iff {e : PathEntry} :
    e ∈ seedPaths assignments ↔
      ∃ s, Mentioned assignments s ∧ (e = (s.value, []) ∨ e = (s.value, s.path)) := by
  simp only [seedPaths, List.mem_filter, List.mem_flatMap, List.mem_cons, List.not_mem_nil,
    or_false, Bool.not_eq_true']
  constructor
  · rintro ⟨⟨a, ha, s, hs, he⟩, hb⟩
    have hvalue : e.1 = s.value := by rcases he with rfl | rfl <;> rfl
    rw [hvalue] at hb
    exact ⟨s, ⟨hb, a, ha, hs⟩, he⟩
  · rintro ⟨s, ⟨hb, a, ha, hs⟩, he⟩
    have hvalue : e.1 = s.value := by rcases he with rfl | rfl <;> rfl
    rw [hvalue]
    exact ⟨⟨a, ha, s, hs, he⟩, hb⟩

/-- A path is carried along the links of the batch. -/
theorem mem_propagate_iff {e e' : PathEntry} :
    e' ∈ propagate (assignments.filter Assignment.carriesPaths) e ↔
      ∃ near far u, Linked assignments near far ∧ e = (near.value, near.path ++ u) ∧
        e' = (far.value, far.path ++ u) := by
  have hcarries : ∀ a : Assignment, a.carriesPaths = true ↔
      a.source.isBlank = false ∧ a.target.isBlank = false ∧ a.source.value ≠ a.target.value := by
    intro a
    simp [Assignment.carriesPaths, Assignment.isSelfCopy, and_assoc]
  constructor
  · intro h
    obtain ⟨a, ha, hacross⟩ := mem_propagate h
    obtain ⟨ha, hc⟩ := List.mem_filter.mp ha
    obtain ⟨hs, ht, hne⟩ := (hcarries a).mp hc
    rcases hacross with h | h <;> obtain ⟨u, he, he'⟩ := PathEntry.across_eq_some h
    · exact ⟨a.target, a.source, u, ⟨Or.inr ha, ht, hs, hne.symm⟩, he, he'⟩
    · exact ⟨a.source, a.target, u, ⟨Or.inl ha, hs, ht, hne⟩, he, he'⟩
  · rintro ⟨near, far, u, ⟨hmem, hn, hf, hne⟩, rfl, rfl⟩
    rcases hmem with hmem | hmem
    · refine mem_propagate_of_across (a := ⟨near, far⟩) ?_ (Or.inr (across_extend near far u))
      exact List.mem_filter.mpr ⟨hmem, (hcarries _).mpr ⟨hn, hf, hne⟩⟩
    · refine mem_propagate_of_across (a := ⟨far, near⟩) ?_ (Or.inl (across_extend near far u))
      exact List.mem_filter.mpr ⟨hmem, (hcarries _).mpr ⟨hf, hn, hne.symm⟩⟩

theorem mem_propagateWithin_iff {cap : Nat} {e e' : PathEntry} :
    e' ∈ propagateWithin cap (assignments.filter Assignment.carriesPaths) e ↔
      ∃ near far u, Linked assignments near far ∧ e = (near.value, near.path ++ u) ∧
        e' = (far.value, far.path ++ u) ∧ (far.path ++ u).length ≤ cap := by
  rw [propagateWithin, List.mem_filter, mem_propagate_iff, decide_eq_true_eq]
  constructor
  · rintro ⟨⟨near, far, u, hl, he, rfl⟩, hlen⟩
    exact ⟨near, far, u, hl, he, rfl, hlen⟩
  · rintro ⟨near, far, u, hl, he, rfl, hlen⟩
    exact ⟨⟨near, far, u, hl, he, rfl⟩, hlen⟩

/-! ## The least closed set -/

theorem followedPaths_nodup (depth : Nat) (assignments : List Assignment) :
    (followedPaths depth assignments).Nodup :=
  saturate_nodup _ _ _ _ (newOnes_nodup [] (seedPaths assignments))

theorem pathsClosed_followedPaths (depth : Nat) (assignments : List Assignment) :
    PathsClosed (max depth (longestPath assignments)) assignments
      (· ∈ followedPaths depth assignments) where
  whole s hs := mem_followedPaths_of_seed (mem_seedPaths_iff.mpr ⟨s, hs, Or.inl rfl⟩)
  path s hs := mem_followedPaths_of_seed (mem_seedPaths_iff.mpr ⟨s, hs, Or.inr rfl⟩)
  across near far hl u he hlen :=
    mem_followedPaths_of_propagateWithin he
      (mem_propagateWithin_iff.mpr ⟨near, far, u, hl, rfl, rfl, hlen⟩)

/-- The followed paths lie in every closed set. -/
theorem PathsClosed.of_mem_followedPaths {known : PathEntry → Prop}
    (h : PathsClosed (max depth (longestPath assignments)) assignments known) {e : PathEntry}
    (he : e ∈ followedPaths depth assignments) : known e := by
  have hseed : ∀ e ∈ seedPaths assignments, known e := by
    intro e he
    obtain ⟨s, hs, rfl | rfl⟩ := mem_seedPaths_iff.mp he
    · exact h.whole s hs
    · exact h.path s hs
  rcases reaches_of_mem_saturate _ _ _ e he with he | ⟨seed, hs, hr⟩
  · exact hseed e (mem_newOnes.mp he).1
  · clear he
    induction hr with
    | refl => exact hseed seed (mem_newOnes.mp hs).1
    | tail _ hstep ih =>
        obtain ⟨near, far, u, hl, rfl, rfl, hlen⟩ := mem_propagateWithin_iff.mp hstep
        exact h.across near far hl u ih hlen

theorem length_le_of_mem_followedPaths {e : PathEntry}
    (he : e ∈ followedPaths depth assignments) :
    e.2.length ≤ max depth (longestPath assignments) := by
  have hclosed : PathsClosed (max depth (longestPath assignments)) assignments
      (·.2.length ≤ max depth (longestPath assignments)) := by
    refine ⟨fun s _ => Nat.zero_le _, fun s hs => ?_, fun near far _ u _ hlen => hlen⟩
    have hseed := mem_seedPaths_iff.mpr ⟨s, hs, Or.inr rfl⟩
    exact Nat.le_trans (length_le_of_mem_seedPaths hseed) (Nat.le_max_right _ _)
  exact hclosed.of_mem_followedPaths he

/-- The values on which paths are followed are those that the batch mentions. -/
theorem mentions_iff {v : ValueId} :
    Mentions depth assignments v ↔ ∃ s, Mentioned assignments s ∧ s.value = v := by
  constructor
  · rintro ⟨p, hp⟩
    have hclosed : PathsClosed (max depth (longestPath assignments)) assignments
        (fun e => ∃ s, Mentioned assignments s ∧ s.value = e.1) := by
      refine ⟨fun s hs => ⟨s, hs, rfl⟩, fun s hs => ⟨s, hs, rfl⟩, fun near far hl u _ _ => ?_⟩
      obtain ⟨hmem | hmem, -, hf, -⟩ := hl
      · exact ⟨far, ⟨hf, _, hmem, Or.inr rfl⟩, rfl⟩
      · exact ⟨far, ⟨hf, _, hmem, Or.inl rfl⟩, rfl⟩
    exact hclosed.of_mem_followedPaths hp
  · rintro ⟨s, ⟨hb, a, ha, hs⟩, rfl⟩
    exact mentions_of_side ha hs hb

/-- The cap cuts something off exactly if a followed path has a link to a longer one. -/
theorem truncated_iff :
    (leafRules depth assignments).truncated = true ↔
      ∃ near far u, Linked assignments near far ∧
        (near.value, near.path ++ u) ∈ followedPaths depth assignments ∧
        max depth (longestPath assignments) < (far.path ++ u).length := by
  have hcount : (leafRules depth assignments).truncated =
      (0 + ((followedPaths depth assignments).flatMap
        (droppedPaths (max depth (longestPath assignments))
          (assignments.filter Assignment.carriesPaths))).length != 0) := rfl
  have hsome : (leafRules depth assignments).truncated = true ↔
      ∃ e', e' ∈ (followedPaths depth assignments).flatMap
        (droppedPaths (max depth (longestPath assignments))
          (assignments.filter Assignment.carriesPaths)) := by
    rw [hcount, bne_iff_ne, Nat.zero_add, ← Nat.pos_iff_ne_zero, List.length_pos_iff_exists_mem]
  rw [hsome]
  constructor
  · rintro ⟨e', he'⟩
    obtain ⟨e, he, he'⟩ := List.mem_flatMap.mp he'
    obtain ⟨he', hlen⟩ := List.mem_filter.mp he'
    obtain ⟨near, far, u, hl, rfl, rfl⟩ := mem_propagate_iff.mp he'
    exact ⟨near, far, u, hl, he, of_decide_eq_true hlen⟩
  · rintro ⟨near, far, u, hl, he, hlen⟩
    refine ⟨(far.value, far.path ++ u), List.mem_flatMap.mpr ⟨_, he, ?_⟩⟩
    exact List.mem_filter.mpr ⟨mem_propagate_iff.mpr ⟨near, far, u, hl, rfl, rfl⟩,
      decide_eq_true hlen⟩

/-! ## Order, repetition and direction -/

theorem longestPath_le_iff {n : Nat} :
    longestPath assignments ≤ n ↔
      ∀ a ∈ assignments, a.source.path.length ≤ n ∧ a.target.path.length ≤ n := by
  constructor
  · intro h a ha
    exact Nat.max_le.mp (Nat.le_trans (depth_le_longestPath ha) h)
  · have hfold : ∀ (as : List Assignment) (m : Nat), m ≤ n →
        (∀ a ∈ as, a.source.path.length ≤ n ∧ a.target.path.length ≤ n) →
        as.foldl (fun m a => max m a.depth) m ≤ n := by
      intro as
      induction as with
      | nil => exact fun m hm _ => hm
      | cons a rest ih =>
          intro m hm h
          refine ih _ (Nat.max_le.mpr ⟨hm, ?_⟩) fun b hb => h b (List.mem_cons_of_mem _ hb)
          exact Nat.max_le.mpr (h a List.mem_cons_self)
    exact hfold assignments 0 (Nat.zero_le n)

/-- The two lists hold the same assignments, or the same in the other direction. -/
def SameAssignments (others assignments : List Assignment) : Prop :=
  (∀ a, a ∈ others ↔ a ∈ assignments) ∨ ∀ a, a ∈ others ↔ a.swap ∈ assignments

namespace SameAssignments

theorem symm (h : SameAssignments others assignments) : SameAssignments assignments others := by
  rcases h with h | h
  · exact Or.inl fun a => (h a).symm
  · exact Or.inr fun a => (h a.swap).symm

theorem mentioned (h : SameAssignments others assignments) {s : Selector}
    (hs : Mentioned others s) : Mentioned assignments s := by
  obtain ⟨hb, a, ha, hs⟩ := hs
  rcases h with h | h
  · exact ⟨hb, a, (h a).mp ha, hs⟩
  · exact ⟨hb, a.swap, (h a).mp ha, hs.symm⟩

theorem linked (h : SameAssignments others assignments) {near far : Selector}
    (hl : Linked others near far) : Linked assignments near far := by
  obtain ⟨hmem, hn, hf, hne⟩ := hl
  refine ⟨?_, hn, hf, hne⟩
  rcases h with h | h
  · exact hmem.imp (h _).mp (h _).mp
  · exact (hmem.imp (h _).mp (h _).mp).symm

theorem longestPath_le (h : SameAssignments others assignments) :
    longestPath others ≤ longestPath assignments := by
  have hle := longestPath_le_iff.mp (Nat.le_refl (longestPath assignments))
  refine longestPath_le_iff.mpr fun a ha => ?_
  rcases h with h | h
  · exact hle a ((h a).mp ha)
  · exact (hle a.swap ((h a).mp ha)).symm

theorem longestPath_eq (h : SameAssignments others assignments) :
    longestPath others = longestPath assignments :=
  Nat.le_antisymm h.longestPath_le h.symm.longestPath_le

theorem mem_followedPaths (h : SameAssignments others assignments) {e : PathEntry}
    (he : e ∈ followedPaths depth others) : e ∈ followedPaths depth assignments := by
  have hclosed := pathsClosed_followedPaths depth assignments
  rw [← h.longestPath_eq] at hclosed
  exact PathsClosed.of_mem_followedPaths ⟨fun s hs => hclosed.whole s (h.mentioned hs),
    fun s hs => hclosed.path s (h.mentioned hs),
    fun near far hl => hclosed.across near far (h.linked hl)⟩ he

theorem mem_followedPaths_iff (h : SameAssignments others assignments) {e : PathEntry} :
    e ∈ followedPaths depth others ↔ e ∈ followedPaths depth assignments :=
  ⟨h.mem_followedPaths, h.symm.mem_followedPaths⟩

theorem truncated (h : SameAssignments others assignments)
    (ht : (leafRules depth others).truncated = true) :
    (leafRules depth assignments).truncated = true := by
  obtain ⟨near, far, u, hl, he, hlen⟩ := truncated_iff.mp ht
  rw [h.longestPath_eq] at hlen
  exact truncated_iff.mpr ⟨near, far, u, h.linked hl, h.mem_followedPaths he, hlen⟩

theorem truncated_eq (h : SameAssignments others assignments) :
    (leafRules depth others).truncated = (leafRules depth assignments).truncated :=
  Bool.eq_iff_iff.mpr ⟨h.truncated, h.symm.truncated⟩

theorem leaves?_eq (h : SameAssignments others assignments) (v : ValueId) :
    (leafRules depth others).leaves? v = (leafRules depth assignments).leaves? v := by
  have hmentions : Mentions depth others v ↔ Mentions depth assignments v :=
    exists_congr fun _ => h.mem_followedPaths_iff
  have hstrict : ∀ {p q : FieldPath}, pathLe p q = true ∧ ¬ p <+: q → pathLe p q = true ∧ p ≠ q :=
    fun h => ⟨h.1, ne_of_not_isPrefix h.2⟩
  by_cases hv : Mentions depth assignments v
  · obtain ⟨leaves, hl, -, hsorted, hmem⟩ := leaves?_leafRules_of_mentions hv
    obtain ⟨leaves', hl', -, hsorted', hmem'⟩ := leaves?_leafRules_of_mentions (hmentions.mpr hv)
    have hsame : leaves' = leaves := by
      refine eq_of_sorted (hsorted'.imp hstrict) (hsorted.imp hstrict) fun p => ?_
      simp only [hmem, hmem', h.mem_followedPaths_iff]
    rw [hl, hl', hsame]
  · rw [leaves?_leafRules_eq_none.mpr hv, leaves?_leafRules_eq_none.mpr (mt hmentions.mp hv)]

end SameAssignments

/-- **The rules of a batch are the leaves of its least closure.** The recorded paths, each once, are
the least set that holds what the batch mentions and is closed under its assignments up to the cap.
A value has leaves if the batch mentions it: in order and without repetition its recorded paths that
no other one extends, none longer than the cap. The rules are marked as cut exactly if some
assignment leads from a recorded path to one beyond the cap. Neither the order nor repetitions nor
the direction of the assignments make a difference. -/
theorem leafRules_least_closure (depth : Nat) (assignments : List Assignment) :
    let cap := max depth (longestPath assignments)
    let recorded := followedPaths depth assignments
    let rules := leafRules depth assignments
    recorded.Nodup ∧ PathsClosed cap assignments (· ∈ recorded) ∧
    (∀ known, PathsClosed cap assignments known → ∀ e ∈ recorded, known e) ∧
    (∀ v, rules.leaves? v = none ↔ ¬ ∃ s, Mentioned assignments s ∧ s.value = v) ∧
    (∀ v leaves, rules.leaves? v = some leaves →
      leaves.Pairwise (fun p q => pathLe p q = true ∧ p ≠ q) ∧
      (∀ p, p ∈ leaves ↔ (v, p) ∈ recorded ∧ ∀ q, (v, q) ∈ recorded → p <+: q → q = p) ∧
      ∀ p ∈ leaves, p.length ≤ cap) ∧
    (rules.truncated = true ↔ ∃ near far u, Linked assignments near far ∧
      (near.value, near.path ++ u) ∈ recorded ∧ cap < (far.path ++ u).length) ∧
    ∀ others, SameAssignments others assignments →
      (∀ v, (leafRules depth others).leaves? v = rules.leaves? v) ∧
        (leafRules depth others).truncated = rules.truncated := by
  intro cap recorded rules
  refine ⟨followedPaths_nodup depth assignments, pathsClosed_followedPaths depth assignments,
    fun known h e he => h.of_mem_followedPaths he, fun v => ?_, fun v leaves hl => ?_,
    truncated_iff, fun others h => ⟨h.leaves?_eq, h.truncated_eq⟩⟩
  · rw [leaves?_leafRules_eq_none, mentions_iff]
  · have hv : Mentions depth assignments v := by
      refine Classical.byContradiction fun hv => ?_
      rw [leaves?_leafRules_eq_none.mpr hv] at hl
      cases hl
    obtain ⟨leaves', hl', -, hsorted, hmem⟩ := leaves?_leafRules_of_mentions hv
    obtain rfl : leaves' = leaves := Option.some.inj (hl'.symm.trans hl)
    refine ⟨hsorted.imp fun h => ⟨h.1, ne_of_not_isPrefix h.2⟩, hmem, fun p hp => ?_⟩
    exact length_le_of_mem_followedPaths ((hmem p).mp hp).1

end SliceLineage
