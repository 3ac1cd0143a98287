import Mathlib
import SliceLineage.Proofs.Lowering.Chains

/-!
# Leaves paired by position

An assignment moves each leaf of its target from the leaf of the source with the same suffix, and
looks for that leaf among all of them. Between two different values it need not look: unless a path
was cut off, the leaves of the two sides have the same suffixes in the same order, so that partners
stand at the same position.

* `CellM.movePairs`: the moves between leaves that are paired already.
* `LeafRules.partner?_eq_some_iff`: which leaf the search finds.
* `CellM.moves_eq_movePairs`: sides that split alike are moved pair by pair.
* `leaves_paired_by_position`: the result for the assignments of a batch.
-/

namespace SliceLineage

/-- The moves between pairs of leaves, the leaf of the source first. -/
def CellM.movePairs (step : GenStep) (pairs : List (Selector × Selector)) :
    CellM (List Operation) :=
  pairs.mapM fun pair => do
    let origin ← intern pair.1
    let cell ← intern pair.2
    return .move origin cell step

theorem Selector.extend_inj {s : Selector} {u w : FieldPath} : s.extend u = s.extend w ↔ u = w := by
  simp [Selector.extend]

namespace LeafRules

variable {r : LeafRules} {source target : Selector}

theorem getElem?_below (r : LeafRules) (s : Selector) (i : Nat) :
    (r.below s)[i]? = (r.suffixes s)[i]?.map s.extend := by
  rw [below_eq, List.getElem?_map]

/-- The search finds the leaf of the source with the same suffix, and no other one. -/
theorem partner?_eq_some_iff {u w : FieldPath} (hu : u ∈ r.suffixes source) :
    CellM.partner? source target (r.below source) (target.extend u) = some (source.extend w) ↔
      u = w := by
  rw [partner?_below, if_pos hu, Option.some.injEq, Selector.extend_inj]

/-- If the two sides split alike, each leaf of the source is found once. -/
theorem countP_partner? (h : r.suffixes source = r.suffixes target)
    (hnodup : (r.suffixes source).Nodup) {u : FieldPath} (hu : u ∈ r.suffixes source) :
    (r.below target).countP (fun leaf =>
      CellM.partner? source target (r.below source) leaf == some (source.extend u)) = 1 := by
  have hfound : ∀ w ∈ r.suffixes target,
      (CellM.partner? source target (r.below source) (target.extend w) ==
        some (source.extend u)) = (w == u) := by
    intro w hw
    rw [← h] at hw
    rw [Bool.eq_iff_iff, beq_iff_eq, beq_iff_eq]
    exact partner?_eq_some_iff hw
  calc (r.below target).countP _
      = (r.suffixes target).countP fun w =>
          CellM.partner? source target (r.below source) (target.extend w) ==
            some (source.extend u) := by rw [below_eq r target, List.countP_map]; rfl
    _ = (r.suffixes target).count u := List.countP_congr fun w hw => by rw [hfound w hw]
    _ = 1 := by rw [← h]; exact List.count_eq_one_of_mem hnodup hu

end LeafRules

namespace CellM

variable {r : LeafRules} {source target : Selector}

theorem moveInto_eq {u : FieldPath} (hu : u ∈ r.suffixes source) (step : GenStep) :
    moveInto r source target step (r.below source) (target.extend u) = (do
      let origin ← intern (source.extend u)
      let cell ← intern (target.extend u)
      return .move origin cell step) := by
  unfold moveInto
  rw [LeafRules.partner?_below, if_pos hu]

/-- The moves into leaves at suffixes of the source. -/
theorem mapM_moveInto_eq {us : List FieldPath} (h : ∀ u ∈ us, u ∈ r.suffixes source)
    (step : GenStep) :
    (us.map target.extend).mapM (moveInto r source target step (r.below source)) =
      movePairs step (us.map fun u => (source.extend u, target.extend u)) := by
  induction us with
  | nil => rfl
  | cons u us ih =>
      simp only [movePairs, List.map_cons, List.mapM_cons] at ih ⊢
      rw [moveInto_eq (h u List.mem_cons_self), ih fun w hw => h w (List.mem_cons_of_mem _ hw)]

/-- **Sides that split alike are moved pair by pair.** -/
theorem moves_eq_movePairs (h : r.suffixes source = r.suffixes target) {x y : Selector}
    (hx : x ∈ r.below source) (hy : y ∈ r.below target) (step : GenStep) :
    moves r source target step = movePairs step ((r.below source).zip (r.below target)) := by
  have hpairs : (r.below source).zip (r.below target) =
      (r.suffixes target).map fun u => (source.extend u, target.extend u) := by
    rw [LeafRules.below_eq, LeafRules.below_eq, h, List.zip_map']
  have hcounts : (!lenient r source target &&
      (r.below source).length != (r.below target).length) = false := by
    simp [LeafRules.below_eq, h]
  have hmoves : moves r source target step =
      (r.below target).mapM (moveInto r source target step (r.below source)) := by
    unfold moves
    rw [LeafRules.expand_eq hx, LeafRules.expand_eq hy]
    show (if (!lenient r source target &&
      (r.below source).length != (r.below target).length) = true then _ else _) = _
    rw [hcounts]
    rfl
  rw [hmoves, hpairs, LeafRules.below_eq r target]
  exact mapM_moveInto_eq (fun u hu => h ▸ hu) step

end CellM

/-- **The leaves of the two sides of an assignment are paired by position.** If no path was cut off,
both sides of an assignment between different followed values have leaves, equally many and at each
position with the same suffix. The search for a partner finds the leaf at the same position, and
each leaf of the source once; so the cell operations are those of the pairs at each position. -/
theorem leaves_paired_by_position {depth : Nat} {assignments : List Assignment} {a : Assignment}
    (hcut : (leafRules depth assignments).truncated = false) (ha : a ∈ assignments)
    (hs : a.source.value ≠ .blank) (ht : a.target.value ≠ .blank)
    (hne : a.source.value ≠ a.target.value) :
    ∃ sources targets, (leafRules depth assignments).expand a.source = .ok sources ∧
      (leafRules depth assignments).expand a.target = .ok targets ∧
      sources ≠ [] ∧ sources.length = targets.length ∧
      (∀ (i : Nat) source target, sources[i]? = some source → targets[i]? = some target →
        ∃ suffix, source = a.source.extend suffix ∧ target = a.target.extend suffix ∧
          CellM.partner? a.source a.target sources target = some source) ∧
      (∀ source ∈ sources, targets.countP (fun target =>
        CellM.partner? a.source a.target sources target == some source) = 1) ∧
      ∀ step, CellM.assignment (leafRules depth assignments) a.source a.target step =
        CellM.movePairs step (sources.zip targets) := by
  have hsb : a.source.isBlank = false := ValueId.isBlank_eq_false_iff.mpr hs
  have htb : a.target.isBlank = false := ValueId.isBlank_eq_false_iff.mpr ht
  have hc : a.carriesPaths := by
    simp [Assignment.carriesPaths, Assignment.isSelfCopy, hsb, htb, hne]
  have hsame := suffixes_source_eq_target hcut ha hc
  have hnodup : ((leafRules depth assignments).suffixes a.source).Nodup :=
    (suffixes_pairwise (mentions_of_carriesPaths ha hc).1).imp And.right
  have hfits : (leafRules depth assignments).Fits ⟨a.source, a.target, .same⟩ :=
    LeafRules.fits_of_mem ha
  obtain ⟨x, hx⟩ := hfits.source hsb
  obtain ⟨y, hy⟩ := hfits.target htb
  refine ⟨_, _, LeafRules.expand_eq hx, LeafRules.expand_eq hy, List.ne_nil_of_mem hx, ?_, ?_, ?_,
    ?_⟩
  · rw [LeafRules.below_eq, LeafRules.below_eq, hsame, List.length_map, List.length_map]
  · intro i source target hsource htarget
    rw [LeafRules.getElem?_below] at hsource htarget
    rw [hsame] at hsource
    obtain ⟨u, hu, rfl⟩ := Option.map_eq_some_iff.mp hsource
    rw [hu] at htarget
    obtain rfl : a.target.extend u = target := Option.some.inj htarget
    refine ⟨u, rfl, rfl, (LeafRules.partner?_eq_some_iff ?_).mpr rfl⟩
    exact hsame ▸ List.mem_of_getElem? hu
  · intro source hsource
    rw [LeafRules.below_eq] at hsource
    obtain ⟨u, hu, rfl⟩ := List.mem_map.mp hsource
    exact LeafRules.countP_partner? hsame hnodup hu
  · intro step
    unfold CellM.assignment
    simp only [hsb, htb]
    exact CellM.moves_eq_movePairs hsame hx hy step

/-- Two fields of a value are read, the value is put into a field of another one, and a field beside
that one is read too. -/
def fieldsPutBelow : List Assignment :=
  [⟨⟨.tracked 1, ["f"]⟩, .whole (.tracked 2)⟩, ⟨⟨.tracked 1, ["g"]⟩, .whole (.tracked 3)⟩,
    ⟨.whole (.tracked 1), ⟨.tracked 0, ["x"]⟩⟩, ⟨⟨.tracked 0, ["b"]⟩, .whole (.tracked 4)⟩]

theorem fieldsPutBelow_paired :
    (leafRules 2 fieldsPutBelow).truncated = false ∧
      ∃ sources targets,
        (leafRules 2 fieldsPutBelow).expand (.whole (.tracked 1)) = .ok sources ∧
        (leafRules 2 fieldsPutBelow).expand ⟨.tracked 0, ["x"]⟩ = .ok targets ∧
        sources.zip targets = [(⟨.tracked 1, ["f"]⟩, ⟨.tracked 0, ["x", "f"]⟩),
          (⟨.tracked 1, ["g"]⟩, ⟨.tracked 0, ["x", "g"]⟩)] ∧
        ∀ step, CellM.assignment (leafRules 2 fieldsPutBelow) (.whole (.tracked 1))
          ⟨.tracked 0, ["x"]⟩ step = CellM.movePairs step (sources.zip targets) := by
  have hcut : (leafRules 2 fieldsPutBelow).truncated = false := by cbv
  have hsources : (leafRules 2 fieldsPutBelow).expand (.whole (.tracked 1)) =
      .ok [⟨.tracked 1, ["f"]⟩, ⟨.tracked 1, ["g"]⟩] := by cbv
  have htargets : (leafRules 2 fieldsPutBelow).expand ⟨.tracked 0, ["x"]⟩ =
      .ok [⟨.tracked 0, ["x", "f"]⟩, ⟨.tracked 0, ["x", "g"]⟩] := by cbv
  obtain ⟨sources, targets, hs, ht, -, -, -, -, hmoves⟩ := leaves_paired_by_position
    (a := ⟨.whole (.tracked 1), ⟨.tracked 0, ["x"]⟩⟩) hcut (by simp [fieldsPutBelow])
    (by decide) (by decide) (by decide)
  refine ⟨hcut, sources, targets, hs, ht, ?_, hmoves⟩
  obtain rfl := Except.ok.inj (hsources.symm.trans hs)
  obtain rfl := Except.ok.inj (htargets.symm.trans ht)
  rfl

end SliceLineage
