import Mathlib
import SliceLineage.Proofs.Leaves.LeastClosure

/-!
# Closures that are used again

A closure remembers what it followed, and the rules of a batch are made of the paths that the batch
is the first to follow. A selector that an earlier batch followed already, with all that lies below
it, has no leaf in the rules of a later batch that mentions it again.

* `FirstFollowed`: the paths that a batch is the first to follow.
* `PathClosure.after`: the closure after a sequence of batches; `PathClosure.mem_extend_iff`: what
  one more batch finds.
* `LeafRules.HasLeafBelow`: a leaf lies at or below a selector.
* `PathClosure.reused_rules_cover_iff`: which selectors the rules of a later batch cover.
* `PathClosure.reused_rules_lose_leaf`: a selector of a batch that they do not cover.
-/

namespace SliceLineage

/-- The paths that a batch is the first to follow: what it mentions, and what such a new path leads
to along the links, up to the cap. A path that was followed before leads nowhere any more, not even
along the assignments of the batch. -/
inductive FirstFollowed (cap : Nat) (links batch : List Assignment) (before : PathEntry → Prop) :
    PathEntry → Prop where
  | whole {s : Selector} : Mentioned batch s → ¬ before (s.value, []) →
      FirstFollowed cap links batch before (s.value, [])
  | path {s : Selector} : Mentioned batch s → ¬ before (s.value, s.path) →
      FirstFollowed cap links batch before (s.value, s.path)
  | across {near far : Selector} {u : FieldPath} :
      FirstFollowed cap links batch before (near.value, near.path ++ u) →
      Linked links near far → (far.path ++ u).length ≤ cap →
      ¬ before (far.value, far.path ++ u) →
      FirstFollowed cap links batch before (far.value, far.path ++ u)

theorem Mentioned.mono {batch links : List Assignment} {s : Selector} (h : Mentioned batch s)
    (hsub : batch ⊆ links) : Mentioned links s := by
  obtain ⟨hb, a, ha, hs⟩ := h
  exact ⟨hb, a, hsub ha, hs⟩

namespace FirstFollowed

variable {cap : Nat} {links batch : List Assignment} {before : PathEntry → Prop} {e : PathEntry}

theorem not_before (h : FirstFollowed cap links batch before e) : ¬ before e := by
  cases h with
  | whole _ hnew => exact hnew
  | path _ hnew => exact hnew
  | across _ _ _ hnew => exact hnew

/-- Paths are followed on values that some assignment mentions. -/
theorem exists_mentioned (h : FirstFollowed cap links batch before e)
    (hbatch : batch ⊆ links) : ∃ s, Mentioned links s ∧ s.value = e.1 := by
  cases h with
  | @whole s hs _ => exact ⟨s, hs.mono hbatch, rfl⟩
  | @path s hs _ => exact ⟨s, hs.mono hbatch, rfl⟩
  | @across near far u _ hl _ _ =>
      obtain ⟨hmem | hmem, -, hf, -⟩ := hl
      · exact ⟨far, ⟨hf, _, hmem, Or.inr rfl⟩, rfl⟩
      · exact ⟨far, ⟨hf, _, hmem, Or.inl rfl⟩, rfl⟩

/-- A batch of which everything was followed before finds nothing. -/
theorem false_of_followed (h : FirstFollowed cap links batch before e)
    (hall : ∀ s, Mentioned batch s → before (s.value, []) ∧ before (s.value, s.path)) : False := by
  induction h with
  | whole hs hnew => exact hnew (hall _ hs).1
  | path hs hnew => exact hnew (hall _ hs).2
  | across _ _ _ _ ih => exact ih

end FirstFollowed

/-! ## Leaves below a selector -/

namespace LeafRules

/-- The value has a rule, and one of its leaves lies at or below the selector. -/
def HasLeafBelow (r : LeafRules) (s : Selector) : Prop :=
  ∃ leaves, r.leaves? s.value = some leaves ∧ ∃ p ∈ leaves, s.path <+: p

variable {r : LeafRules} {s : Selector}

theorem expand_of_hasLeafBelow (h : r.HasLeafBelow s) :
    ∃ leaves, r.expand s = .ok leaves ∧ leaves ≠ [] ∧
      ∀ x ∈ leaves, x.value = s.value ∧ s.path <+: x.path ∧ r.IsLeaf x := by
  obtain ⟨leaves, hleaves, p, hp, hpath⟩ := h
  have hmem : ∀ x, x ∈ r.below s ↔ ∃ q ∈ leaves, s.path <+: q ∧ x = ⟨s.value, q⟩ := by
    intro x
    simp only [below, hleaves, List.mem_map, List.mem_filter, List.isPrefixOf_iff_prefix, and_assoc]
    simp only [eq_comm]
  have hbelow : ⟨s.value, p⟩ ∈ r.below s := (hmem _).mpr ⟨p, hp, hpath, rfl⟩
  refine ⟨r.below s, expand_eq hbelow, List.ne_nil_of_mem hbelow, fun x hx => ?_⟩
  obtain ⟨q, hq, hpath, rfl⟩ := (hmem x).mp hx
  exact ⟨rfl, hpath, by simpa [IsLeaf, hleaves] using hq⟩

/-- A selector without a leaf below it is passed through or refused. -/
theorem expand_of_not_hasLeafBelow (h : ¬ r.HasLeafBelow s) :
    r.leaves? s.value = none ∧ r.expand s = .ok [s] ∨
      r.expand s = .error (.internal (.uncovered s)) := by
  unfold expand
  cases hleaves : r.leaves? s.value with
  | none => exact Or.inl ⟨rfl, rfl⟩
  | some leaves =>
      have hnone : leaves.filter (s.path.isPrefixOf ·) = [] := by
        rw [List.filter_eq_nil_iff]
        intro p hp hpath
        exact h ⟨leaves, hleaves, p, hp, List.isPrefixOf_iff_prefix.mp hpath⟩
      exact Or.inr (by simp [hnone])

theorem exists_leaves?_ofPaths_iff {paths : List PathEntry} {truncated : Bool} {v : ValueId} :
    (∃ leaves, (ofPaths paths truncated).leaves? v = some leaves) ↔ ∃ p, (v, p) ∈ paths := by
  rw [leaves?_ofPaths]
  split <;> simp_all

theorem hasLeafBelow_ofPaths_iff {paths : List PathEntry} {truncated : Bool} :
    (ofPaths paths truncated).HasLeafBelow s ↔ ∃ u, (s.value, s.path ++ u) ∈ paths := by
  have hpaths : ∀ p, p ∈ (paths.filter (·.1 == s.value)).map Prod.snd ↔ (s.value, p) ∈ paths := by
    simp
  constructor
  · rintro ⟨leaves, hleaves, p, hp, u, rfl⟩
    rw [leaves?_ofPaths] at hleaves
    split at hleaves
    · obtain rfl := Option.some.inj hleaves
      exact ⟨u, (hpaths _).mp (mem_leafPaths_iff.mp hp).1⟩
    · cases hleaves
  · rintro ⟨u, hu⟩
    obtain ⟨q, hq, hprefix⟩ := exists_leaf_above ((hpaths _).mpr hu)
    have hvalue : s.value ∈ paths.map Prod.fst := List.mem_map.mpr ⟨_, hu, rfl⟩
    refine ⟨_, (leaves?_ofPaths paths truncated s.value).trans (if_pos hvalue), q, hq, ?_⟩
    exact (List.prefix_append _ _).trans hprefix

end LeafRules

/-! ## One more batch -/

namespace PathClosure

variable {c : PathClosure} {depth : Nat} {earlier : List (List Assignment)}
  {batch : List Assignment} {e : PathEntry}

theorem rules_eq (c : PathClosure) (depth : Nat) (batch : List Assignment) :
    c.rules depth batch = (.ofPaths (c.extend depth batch).1
      ((c.extend depth batch).2.dropped != 0), (c.extend depth batch).2) := rfl

theorem seen_nodup (hc : c.followed.Nodup) (batch : List Assignment) :
    (c.followed ++ newOnes c.followed (seedPaths batch)).Nodup := by
  refine List.nodup_append.mpr ⟨hc, newOnes_nodup _ _, ?_⟩
  rintro e he _ hnew rfl
  exact (mem_newOnes.mp hnew).2 he

/-- What a batch finds stands behind what was followed before, and nothing is followed twice. -/
theorem followed_extend (hc : c.followed.Nodup) (depth : Nat) (batch : List Assignment) :
    (c.extend depth batch).2.followed = c.followed ++ (c.extend depth batch).1 ∧
      (c.extend depth batch).2.followed.Nodup := by
  refine ⟨?_, saturate_nodup _ _ _ _ (seen_nodup hc batch)⟩
  obtain ⟨found, hfound⟩ : ∃ found, (c.extend depth batch).2.followed =
      c.followed ++ newOnes c.followed (seedPaths batch) ++ found := saturate_eq_append _ _ _ _
  have hdrop : (c.extend depth batch).1 =
      (c.extend depth batch).2.followed.drop c.followed.length := rfl
  rw [hdrop, hfound, List.append_assoc, List.drop_left]

theorem mem_extend_iff_new (hc : c.followed.Nodup) :
    e ∈ (c.extend depth batch).1 ↔ e ∈ (c.extend depth batch).2.followed ∧ e ∉ c.followed := by
  obtain ⟨hfollowed, hnodup⟩ := followed_extend hc depth batch
  rw [hfollowed] at hnodup ⊢
  have hdisjoint := (List.nodup_append.mp hnodup).2.2
  rw [List.mem_append]
  constructor
  · exact fun he => ⟨Or.inr he, fun hbefore => hdisjoint e hbefore e he rfl⟩
  · rintro ⟨he | he, hnew⟩
    · exact absurd he hnew
    · exact he

/-- The assignments that carry paths in a batch are those of all batches so far. -/
theorem mem_step_iff {links : List Assignment}
    (hindex : c.index = links.filter Assignment.carriesPaths) {cap : Nat} {e e' : PathEntry} :
    e' ∈ propagateWithin cap (c.index ++ batch.filter Assignment.carriesPaths) e ↔
      ∃ near far u, Linked (links ++ batch) near far ∧ e = (near.value, near.path ++ u) ∧
        e' = (far.value, far.path ++ u) ∧ (far.path ++ u).length ≤ cap := by
  rw [hindex, ← List.filter_append, mem_propagateWithin_iff]

theorem firstFollowed_of_followed {links : List Assignment}
    (hindex : c.index = links.filter Assignment.carriesPaths)
    (he : e ∈ (c.extend depth batch).2.followed) :
    e ∈ c.followed ∨ FirstFollowed (max depth (longestPath batch)) (links ++ batch) batch
      (· ∈ c.followed) e := by
  have hseed : ∀ a ∈ newOnes c.followed (seedPaths batch),
      FirstFollowed (max depth (longestPath batch)) (links ++ batch) batch (· ∈ c.followed) a := by
    intro a ha
    obtain ⟨ha, hnew⟩ := mem_newOnes.mp ha
    obtain ⟨s, hs, rfl | rfl⟩ := mem_seedPaths_iff.mp ha
    · exact .whole hs hnew
    · exact .path hs hnew
  have hfound := saturate_induction c.followed (fun a ha b hb hnew => ?_) _ _ _
    (List.subset_append_left _ _) hseed e he
  · rcases hfound with hseen | hfirst
    · exact (List.mem_append.mp hseen).imp_right (hseed e)
    · exact Or.inr hfirst
  · obtain ⟨near, far, u, hl, rfl, rfl, hlen⟩ := (mem_step_iff hindex).mp hb
    exact .across ha hl hlen hnew

theorem followed_of_firstFollowed {links : List Assignment}
    (hindex : c.index = links.filter Assignment.carriesPaths)
    (he : FirstFollowed (max depth (longestPath batch)) (links ++ batch) batch
      (· ∈ c.followed) e) : e ∈ (c.extend depth batch).2.followed := by
  have hseed : ∀ {a}, a ∈ seedPaths batch → a ∉ c.followed →
      a ∈ (c.extend depth batch).2.followed := fun ha hnew =>
    mem_saturate_of_mem (List.mem_append_right _ (mem_newOnes.mpr ⟨ha, hnew⟩))
  induction he with
  | @whole s hs hnew => exact hseed (mem_seedPaths_iff.mpr ⟨s, hs, Or.inl rfl⟩) hnew
  | @path s hs hnew => exact hseed (mem_seedPaths_iff.mpr ⟨s, hs, Or.inr rfl⟩) hnew
  | @across near far u hfirst hl hlen _ ih =>
      refine mem_saturate_of_step _ _ _ (near.value, near.path ++ u) ih ?_ _
        ((mem_step_iff hindex).mpr ⟨near, far, u, hl, rfl, rfl, hlen⟩)
      -- a new path was queued, or it was found on the way
      by_cases hq : (near.value, near.path ++ u) ∈ newOnes c.followed (seedPaths batch)
      · exact Or.inl hq
      · refine Or.inr fun hseen => ?_
        rcases List.mem_append.mp hseen with hbefore | hq'
        · exact hfirst.not_before hbefore
        · exact hq hq'

/-- **A batch finds the paths that it is the first to follow.** The assignments of all batches so
far carry paths, but only new paths are carried. -/
theorem mem_extend_iff (hc : c.followed.Nodup) {links : List Assignment}
    (hindex : c.index = links.filter Assignment.carriesPaths) :
    e ∈ (c.extend depth batch).1 ↔
      FirstFollowed (max depth (longestPath batch)) (links ++ batch) batch (· ∈ c.followed) e := by
  rw [mem_extend_iff_new hc]
  constructor
  · rintro ⟨he, hnew⟩
    exact (firstFollowed_of_followed hindex he).resolve_left hnew
  · exact fun he => ⟨followed_of_firstFollowed hindex he, he.not_before⟩

/-! ## A sequence of batches -/

/-- The closure after batches given to it one after the other. -/
def after (depth : Nat) (batches : List (List Assignment)) : PathClosure :=
  batches.foldl (fun c batch => (c.rules depth batch).2) .empty

theorem after_append (depth : Nat) (earlier : List (List Assignment)) (batch : List Assignment) :
    after depth (earlier ++ [batch]) = ((after depth earlier).extend depth batch).2 := by
  simp [after, rules_eq]

theorem followed_after_nodup (depth : Nat) (batches : List (List Assignment)) :
    (after depth batches).followed.Nodup := by
  induction batches using List.reverseRecOn with
  | nil => exact List.nodup_nil
  | append_singleton earlier batch ih =>
      rw [after_append]
      exact (followed_extend ih depth batch).2

theorem index_after (depth : Nat) (batches : List (List Assignment)) :
    (after depth batches).index = batches.flatten.filter Assignment.carriesPaths := by
  induction batches using List.reverseRecOn with
  | nil => rfl
  | append_singleton earlier batch ih =>
      have hindex : ((after depth earlier).extend depth batch).2.index =
          (after depth earlier).index ++ batch.filter Assignment.carriesPaths := rfl
      rw [after_append, hindex, ih]
      simp

theorem mem_extend_after_iff :
    e ∈ ((after depth earlier).extend depth batch).1 ↔
      FirstFollowed (max depth (longestPath batch)) (earlier.flatten ++ batch) batch
        (· ∈ (after depth earlier).followed) e :=
  mem_extend_iff (followed_after_nodup depth earlier) (index_after depth earlier)

theorem mem_followed_after_append_iff :
    e ∈ (after depth (earlier ++ [batch])).followed ↔
      e ∈ (after depth earlier).followed ∨
        FirstFollowed (max depth (longestPath batch)) (earlier.flatten ++ batch) batch
          (· ∈ (after depth earlier).followed) e := by
  rw [after_append, (followed_extend (followed_after_nodup depth earlier) depth batch).1,
    List.mem_append, mem_extend_after_iff]

/-- Everything that is followed is followed on a value that some batch mentions. -/
theorem exists_mentioned_of_followed {batches : List (List Assignment)}
    (he : e ∈ (after depth batches).followed) :
    ∃ s, Mentioned batches.flatten s ∧ s.value = e.1 := by
  induction batches using List.reverseRecOn with
  | nil => cases he
  | append_singleton earlier batch ih =>
      have hflat : (earlier ++ [batch]).flatten = earlier.flatten ++ batch := by simp
      rw [hflat]
      rcases mem_followed_after_append_iff.mp he with hbefore | hfirst
      · obtain ⟨s, hs, hvalue⟩ := ih hbefore
        exact ⟨s, hs.mono (List.subset_append_left _ _), hvalue⟩
      · exact hfirst.exists_mentioned (List.subset_append_right _ _)

/-- What a batch mentions is followed after it, newly or from before. -/
theorem followed_of_mentioned {s : Selector} (hs : Mentioned batch s) :
    (s.value, []) ∈ (after depth (earlier ++ [batch])).followed ∧
      (s.value, s.path) ∈ (after depth (earlier ++ [batch])).followed := by
  rw [mem_followed_after_append_iff, mem_followed_after_append_iff]
  constructor
  · by_cases hbefore : (s.value, []) ∈ (after depth earlier).followed
    · exact Or.inl hbefore
    · exact Or.inr (.whole hs hbefore)
  · by_cases hbefore : (s.value, s.path) ∈ (after depth earlier).followed
    · exact Or.inl hbefore
    · exact Or.inr (.path hs hbefore)

/-- **The rules of a later batch cover what the batch is the first to follow.** After any earlier
batches, a value has a rule exactly if the batch finds a new path on it, and a selector has a leaf
at or below it exactly if the batch finds a new path there. A covered selector is expanded into
leaves at or below it; any other one is refused, or passed through if its value has no rule. A
selector whose path was not followed before is covered, and so is the whole batch if it shares no
value with the earlier ones, the first batch above all. A batch that is given once more gets no
rules at all. -/
theorem reused_rules_cover_iff (depth : Nat) (earlier : List (List Assignment))
    (batch : List Assignment) :
    let before := (after depth earlier).followed
    let rules := ((after depth earlier).rules depth batch).1
    let First := FirstFollowed (max depth (longestPath batch)) (earlier.flatten ++ batch) batch
      (· ∈ before)
    (∀ e, e ∈ (after depth (earlier ++ [batch])).followed ↔ e ∈ before ∨ First e) ∧
    (∀ v, (∃ leaves, rules.leaves? v = some leaves) ↔ ∃ p, First (v, p)) ∧
    (∀ s, rules.HasLeafBelow s ↔ ∃ u, First (s.value, s.path ++ u)) ∧
    (∀ s, rules.HasLeafBelow s → ∃ leaves, rules.expand s = .ok leaves ∧ leaves ≠ [] ∧
      ∀ x ∈ leaves, x.value = s.value ∧ s.path <+: x.path ∧ rules.IsLeaf x) ∧
    (∀ s, ¬ rules.HasLeafBelow s → rules.leaves? s.value = none ∧ rules.expand s = .ok [s] ∨
      rules.expand s = .error (.internal (.uncovered s))) ∧
    (∀ s, Mentioned batch s → (s.value, s.path) ∉ before → rules.HasLeafBelow s) ∧
    ((∀ s t, Mentioned batch s → Mentioned earlier.flatten t → s.value ≠ t.value) →
      ∀ s, Mentioned batch s → rules.HasLeafBelow s) ∧
    ∀ v, ((after depth (earlier ++ [batch])).rules depth batch).1.leaves? v = none := by
  intro before rules First
  have hleaf : ∀ s, rules.HasLeafBelow s ↔ ∃ u, First (s.value, s.path ++ u) := by
    intro s
    simp only [rules, rules_eq, LeafRules.hasLeafBelow_ofPaths_iff, mem_extend_after_iff]
    rfl
  have hnew : ∀ s, Mentioned batch s → (s.value, s.path) ∉ before → rules.HasLeafBelow s := by
    intro s hs hbefore
    refine (hleaf s).mpr ⟨[], ?_⟩
    rw [List.append_nil]
    exact .path hs hbefore
  refine ⟨fun e => mem_followed_after_append_iff, fun v => ?_, hleaf,
    fun s => LeafRules.expand_of_hasLeafBelow, fun s => LeafRules.expand_of_not_hasLeafBelow, hnew,
    fun hapart s hs => hnew s hs fun hbefore => ?_, fun v => ?_⟩
  · simp only [rules, rules_eq, LeafRules.exists_leaves?_ofPaths_iff, mem_extend_after_iff]
    rfl
  · obtain ⟨t, ht, hvalue⟩ := exists_mentioned_of_followed hbefore
    exact hapart s t hs ht hvalue.symm
  · -- everything that the batch mentions was followed when it was given the first time
    apply Classical.byContradiction
    intro hsome
    obtain ⟨leaves, hleaves⟩ := Option.ne_none_iff_exists'.mp hsome
    obtain ⟨p, hp⟩ := LeafRules.exists_leaves?_ofPaths_iff.mp ⟨leaves, hleaves⟩
    exact (mem_extend_after_iff.mp hp).false_of_followed fun s hs => followed_of_mentioned hs

/-- The second value is the field `items` of the first one. -/
def itemsBatch : List Assignment := [⟨⟨.tracked 0, ["items"]⟩, .whole (.tracked 1)⟩]

/-- The same once more, and a third value that is the field `tags`. -/
def itemsAndTagsBatch : List Assignment :=
  itemsBatch ++ [⟨⟨.tracked 0, ["tags"]⟩, .whole (.tracked 2)⟩]

theorem itemsAndTags_new_field_covered :
    let rules := ((after 16 [itemsBatch]).rules 16 itemsAndTagsBatch).1
    Mentioned itemsAndTagsBatch ⟨.tracked 0, ["tags"]⟩ ∧
    (.tracked 0, ["tags"]) ∉ (after 16 [itemsBatch]).followed ∧
    rules.HasLeafBelow ⟨.tracked 0, ["tags"]⟩ ∧
    ∀ v, ((after 16 [itemsBatch]).rules 16 itemsBatch).1.leaves? v = none := by
  have hmentioned : Mentioned itemsAndTagsBatch ⟨.tracked 0, ["tags"]⟩ :=
    ⟨rfl, ⟨⟨.tracked 0, ["tags"]⟩, .whole (.tracked 2)⟩, by simp [itemsAndTagsBatch], Or.inl rfl⟩
  have hbefore : (after 16 [itemsBatch]).followed =
      [(.tracked 0, []), (.tracked 0, ["items"]), (.tracked 1, [])] := by cbv
  have hnew : (.tracked 0, ["tags"]) ∉ (after 16 [itemsBatch]).followed := by
    rw [hbefore]
    decide
  obtain ⟨-, -, -, -, -, hleaf, -, -⟩ := reused_rules_cover_iff 16 [itemsBatch] itemsAndTagsBatch
  obtain ⟨-, -, -, -, -, -, -, hagain⟩ := reused_rules_cover_iff 16 [] itemsBatch
  exact ⟨hmentioned, hnew, hleaf _ hmentioned hnew, hagain⟩

/-- The field `items` is mentioned by both batches, but its leaf is in the rules of the first one
only. In the second one the value is split without it, and the second value has no rule at all. -/
theorem reused_rules_lose_leaf :
    let rules := ((after 16 [itemsBatch]).rules 16 itemsAndTagsBatch).1
    Mentioned itemsAndTagsBatch ⟨.tracked 0, ["items"]⟩ ∧
    Mentioned itemsAndTagsBatch (.whole (.tracked 1)) ∧
    ¬ rules.HasLeafBelow ⟨.tracked 0, ["items"]⟩ ∧
    rules.expand ⟨.tracked 0, ["items"]⟩ =
      .error (.internal (.uncovered ⟨.tracked 0, ["items"]⟩)) ∧
    rules.leaves? (.tracked 1) = none := by
  intro rules
  have hleaves : rules.leaves? (.tracked 0) = some [["tags"]] := by cbv
  have hnone : rules.leaves? (.tracked 1) = none := by cbv
  refine ⟨⟨rfl, _, List.mem_cons_self, Or.inl rfl⟩, ⟨rfl, _, List.mem_cons_self, Or.inr rfl⟩,
    ?_, ?_, hnone⟩
  · rintro ⟨leaves, hl, p, hp, hpath⟩
    obtain rfl := Option.some.inj (hleaves.symm.trans hl)
    rw [List.mem_singleton.mp hp] at hpath
    exact absurd hpath (by decide)
  · rw [LeafRules.expand, hleaves]
    rfl

end PathClosure

end SliceLineage
