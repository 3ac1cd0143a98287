import Mathlib.Data.List.Basic
import SliceLineage.Proofs.Leaves.LeastClosure
import SliceLineage.Proofs.Lowering.Chains

/-!
# Finer leaf rules

More assignments mention more paths, so their rules split values into smaller leaves. For the moves
of a single assignment this need not matter: if each leaf of the coarser rules falls apart in the
same way on both sides, then the moves of the finer rules are those of the coarser ones, each of
them split.

* `mem_followedPaths_mono`: more assignments follow more paths. `exists_mem_suffixes`: so a leaf of
  the coarser rules has leaves of the finer ones below it.
* `SplitsEvenly`: finer rules split an assignment evenly.
* `LeafRules.split`: the moves that a move of coarser rules falls into.
* `SplitsEvenly.leafMoves_eq`: the moves of an assignment that is split evenly.
-/

namespace SliceLineage

variable {depth : Nat} {fewer more : List Assignment}

/-! ## More assignments -/

theorem longestPath_mono (hsub : ∀ a ∈ fewer, a ∈ more) : longestPath fewer ≤ longestPath more := by
  have hle := longestPath_le_iff.mp (Nat.le_refl (longestPath more))
  exact longestPath_le_iff.mpr fun a ha => hle a (hsub a ha)

/-- More assignments follow more paths. -/
theorem mem_followedPaths_mono (hsub : ∀ a ∈ fewer, a ∈ more) {e : PathEntry}
    (he : e ∈ followedPaths depth fewer) : e ∈ followedPaths depth more := by
  have hclosed := pathsClosed_followedPaths depth more
  have hmentioned : ∀ s, Mentioned fewer s → Mentioned more s := by
    rintro s ⟨hb, a, ha, hs⟩
    exact ⟨hb, a, hsub a ha, hs⟩
  have hcap := longestPath_mono hsub
  refine PathsClosed.of_mem_followedPaths ⟨fun s hs => hclosed.whole s (hmentioned s hs),
    fun s hs => hclosed.path s (hmentioned s hs), fun near far hl u hnear hlen => ?_⟩ he
  refine hclosed.across near far ⟨hl.1.imp (hsub _) (hsub _), hl.2⟩ u hnear ?_
  omega

theorem Mentions.mono (hsub : ∀ a ∈ fewer, a ∈ more) {v : ValueId} (hv : Mentions depth fewer v) :
    Mentions depth more v :=
  hv.imp fun _ hp => mem_followedPaths_mono hsub hp

/-! ## Leaves below leaves -/

/-- No leaf lies below another one. -/
theorem eq_of_isLeaf_of_isPrefix {x y : Selector} (hv : Mentions depth fewer x.value)
    (hx : (leafRules depth fewer).IsLeaf x) (hy : (leafRules depth fewer).IsLeaf y)
    (hvalue : y.value = x.value) (hpre : x.path <+: y.path) : y = x := by
  have hmax := ((isLeaf_leafRules_iff hv).mp hx).2
  have hfollowed := ((isLeaf_leafRules_iff (hvalue ▸ hv)).mp hy).1
  have hpath := hmax y.path (hvalue ▸ hfollowed) hpre
  obtain ⟨value, path⟩ := x
  obtain ⟨value', path'⟩ := y
  exact congr (congrArg Selector.mk hvalue) hpath

/-- Leaves with a region below both of them are the same. -/
theorem eq_of_extend_eq {x y : Selector} (hv : Mentions depth fewer x.value)
    (hx : (leafRules depth fewer).IsLeaf x) (hy : (leafRules depth fewer).IsLeaf y)
    {u w : FieldPath} (h : x.extend u = y.extend w) : x = y := by
  obtain ⟨hvalue, hpath⟩ := Selector.mk.inj h
  have hxu : x.path <+: x.path ++ u := List.prefix_append _ _
  have hyw : y.path <+: x.path ++ u := hpath ▸ List.prefix_append _ _
  rcases List.prefix_or_prefix_of_prefix hxu hyw with hpre | hpre
  · exact (eq_of_isLeaf_of_isPrefix hv hx hy hvalue.symm hpre).symm
  · exact eq_of_isLeaf_of_isPrefix (hvalue ▸ hv) hy hx hvalue hpre

theorem mem_suffixes_extend_iff {s : Selector} (hv : Mentions depth fewer s.value)
    {w u : FieldPath} : u ∈ (leafRules depth fewer).suffixes (s.extend w) ↔
      w ++ u ∈ (leafRules depth fewer).suffixes s := by
  rw [mem_suffixes_iff (s := s.extend w) hv, mem_suffixes_iff hv, Selector.extend_extend]

/-- A leaf of the coarser rules has leaves of the finer ones at or below it. -/
theorem exists_mem_suffixes (hsub : ∀ a ∈ fewer, a ∈ more) {x : Selector}
    (hv : Mentions depth fewer x.value) (hx : (leafRules depth fewer).IsLeaf x) :
    ∃ u, u ∈ (leafRules depth more).suffixes x := by
  have hfollowed := mem_followedPaths_mono hsub ((isLeaf_leafRules_iff hv).mp hx).1
  obtain ⟨y, hy⟩ := exists_mem_below hfollowed
  exact ⟨_, List.mem_map_of_mem hy⟩

/-- Lists of which none is the beginning of the other are compared where they differ. -/
theorem lexLe_append_append {α : Type} [DecidableEq α] {le : α → α → Bool} {s t : List α}
    (hle : lexLe le s t = true) (hst : ¬ s <+: t) (u v : List α) :
    lexLe le (s ++ u) (t ++ v) = true := by
  induction s generalizing t with
  | nil => exact absurd List.nil_prefix hst
  | cons a s ih =>
      cases t with
      | nil => cases hle
      | cons b t =>
          rw [lexLe] at hle
          rw [List.cons_append, List.cons_append, lexLe]
          by_cases hab : a = b
          · rw [if_pos hab] at hle ⊢
            exact ih hle fun hpre => hst (List.cons_prefix_cons.mpr ⟨hab, hpre⟩)
          · rw [if_neg hab] at hle ⊢
            exact hle

/-- No suffix is the beginning of another one. -/
theorem not_isPrefix_of_mem_suffixes {s : Selector} (hv : Mentions depth fewer s.value)
    {u w : FieldPath} (hu : u ∈ (leafRules depth fewer).suffixes s)
    (hw : w ∈ (leafRules depth fewer).suffixes s) (hne : u ≠ w) : ¬ u <+: w := by
  rintro ⟨more, rfl⟩
  have hsame : s.extend u = s.extend (u ++ more) :=
    eq_of_extend_eq (u := more) (w := []) hv ((mem_suffixes_iff hv).mp hu)
      ((mem_suffixes_iff hv).mp hw) (by simp)
  have hpath : s.path ++ u = s.path ++ (u ++ more) := congrArg Selector.path hsame
  exact hne (List.append_cancel_left hpath)

/-- **The finer leaves below a region, grouped by the coarser ones.** -/
theorem suffixes_eq_flatMap (hsub : ∀ a ∈ fewer, a ∈ more) {s : Selector}
    (hv : Mentions depth fewer s.value)
    (hcovered : ∀ u ∈ (leafRules depth more).suffixes s,
      ∃ w ∈ (leafRules depth fewer).suffixes s, w <+: u) :
    (leafRules depth more).suffixes s = ((leafRules depth fewer).suffixes s).flatMap fun w =>
      ((leafRules depth more).suffixes (s.extend w)).map (w ++ ·) := by
  have hv' := hv.mono hsub
  refine eq_of_sorted (suffixes_pairwise hv') (List.pairwise_flatMap.mpr ⟨fun w _ => ?_, ?_⟩)
    fun u => ?_
  · refine List.pairwise_map.mpr ((suffixes_pairwise (s := s.extend w) hv').imp ?_)
    rintro u u' ⟨hle, hne⟩
    exact ⟨(lexLe_append_left w u u').trans hle, fun h => hne (List.append_cancel_left h)⟩
  · refine (suffixes_pairwise hv).imp_of_mem ?_
    rintro w w' hw hw' ⟨hle, hne⟩ _ hu _ hu'
    obtain ⟨u, -, rfl⟩ := List.mem_map.mp hu
    obtain ⟨u', -, rfl⟩ := List.mem_map.mp hu'
    have hpre := not_isPrefix_of_mem_suffixes hv hw hw' hne
    have hpre' := not_isPrefix_of_mem_suffixes hv hw' hw hne.symm
    refine ⟨lexLe_append_append hle hpre u u', fun h => ?_⟩
    rcases List.append_eq_append_iff.mp h with ⟨x, hx, -⟩ | ⟨x, hx, -⟩
    · exact hpre ⟨x, hx.symm⟩
    · exact hpre' ⟨x, hx.symm⟩
  · simp only [List.mem_flatMap, List.mem_map]
    constructor
    · intro hu
      obtain ⟨w, hw, v, rfl⟩ := hcovered u hu
      exact ⟨w, hw, v, (mem_suffixes_extend_iff hv').mpr hu, rfl⟩
    · rintro ⟨w, -, v, hmem, rfl⟩
      exact (mem_suffixes_extend_iff hv').mp hmem

/-! ## Moves that fall apart -/

/-- The region `suffix` below a selector; the blank value has no regions. -/
def Selector.narrow (s : Selector) (suffix : FieldPath) : Selector :=
  if s.isBlank then .blank else s.extend suffix

/-- The part of a move that concerns the regions `suffix` below its sides. -/
def BoundAssignment.narrow (m : BoundAssignment) (suffix : FieldPath) : BoundAssignment :=
  ⟨m.source.narrow suffix, m.target.narrow suffix, m.step⟩

/-- The side whose leaves say how a move falls apart. -/
def BoundAssignment.shape (m : BoundAssignment) : Selector :=
  if m.target.isBlank then m.source else m.target

/-- The moves that a move falls into if the leaves at its sides are split further. -/
def LeafRules.split (r : LeafRules) (m : BoundAssignment) : List BoundAssignment :=
  (r.suffixes m.shape).map m.narrow

/-- The finer rules `r` split the assignment evenly: each leaf below one of its sides lies below a
leaf of the coarser rules `r₀`; two leaves of `r₀` at the same suffix fall apart alike; and what a
leaf of `r₀` without a partner falls into has no partners either. -/
structure SplitsEvenly (r₀ r : LeafRules) (a : BoundAssignment) : Prop where
  covered : ∀ s ∈ a.sides, s.isBlank = false →
    ∀ u ∈ r.suffixes s, ∃ w ∈ r₀.suffixes s, w <+: u
  alike : a.source.isBlank = false → a.target.isBlank = false →
    ∀ w ∈ r₀.suffixes a.target, w ∈ r₀.suffixes a.source →
      r.suffixes (a.source.extend w) = r.suffixes (a.target.extend w)
  unmatched : a.source.isBlank = false → a.target.isBlank = false →
    ∀ w ∈ r₀.suffixes a.target, w ∉ r₀.suffixes a.source →
      ∀ u ∈ r.suffixes (a.target.extend w), w ++ u ∉ r.suffixes a.source

/-- Whether the finer rules `r` split the assignment evenly. -/
def LeafRules.splitsEvenly (r₀ r : LeafRules) (a : BoundAssignment) : Bool :=
  (a.sides.all fun s => s.isBlank ||
    (r.suffixes s).all fun u => (r₀.suffixes s).any (·.isPrefixOf u)) &&
  (a.source.isBlank || a.target.isBlank || (r₀.suffixes a.target).all fun w =>
    if (r₀.suffixes a.source).contains w
      then r.suffixes (a.source.extend w) == r.suffixes (a.target.extend w)
      else (r.suffixes (a.target.extend w)).all fun u => !(r.suffixes a.source).contains (w ++ u))

theorem LeafRules.splitsEvenly_iff {r₀ r : LeafRules} {a : BoundAssignment} :
    r₀.splitsEvenly r a = true ↔ SplitsEvenly r₀ r a := by
  constructor
  · intro h
    simp only [splitsEvenly, Bool.and_eq_true, Bool.or_eq_true, List.all_eq_true, List.any_eq_true,
      List.isPrefixOf_iff_prefix] at h
    obtain ⟨hcovered, hsplit⟩ := h
    have hleaf : a.source.isBlank = false → a.target.isBlank = false →
        ∀ w ∈ r₀.suffixes a.target, _ := fun hs ht =>
      hsplit.resolve_left (by simp [hs, ht])
    refine ⟨fun s hs hb => (hcovered s hs).resolve_left (by simp [hb]), fun hs ht w hw hmem => ?_,
      fun hs ht w hw hnot u hu => ?_⟩
    · simpa [hmem] using hleaf hs ht w hw
    · have hall := hleaf hs ht w hw
      rw [if_neg (by simpa using hnot), List.all_eq_true] at hall
      simpa using hall u hu
  · intro h
    simp only [splitsEvenly, Bool.and_eq_true, Bool.or_eq_true, List.all_eq_true, List.any_eq_true,
      List.isPrefixOf_iff_prefix]
    refine ⟨fun s hs => ?_, ?_⟩
    · cases hb : s.isBlank with
      | true => exact Or.inl rfl
      | false => exact Or.inr (h.covered s hs hb)
    · cases hs : a.source.isBlank with
      | true => exact Or.inl (Or.inl rfl)
      | false =>
          cases ht : a.target.isBlank with
          | true => exact Or.inl (Or.inr rfl)
          | false =>
              refine Or.inr fun w hw => ?_
              by_cases hmem : w ∈ r₀.suffixes a.source
              · simp [hmem, h.alike hs ht w hw hmem]
              · simpa [hmem] using h.unmatched hs ht w hw hmem

instance (r₀ r : LeafRules) (a : BoundAssignment) : Decidable (SplitsEvenly r₀ r a) :=
  decidable_of_iff _ LeafRules.splitsEvenly_iff

theorem Selector.narrow_of_blank {s : Selector} (hb : s.isBlank = true) (u : FieldPath) :
    s.narrow u = .blank := if_pos hb

theorem Selector.narrow_of_followed {s : Selector} (hb : s.isBlank = false) (u : FieldPath) :
    s.narrow u = s.extend u := by
  rw [narrow, if_neg (by simp [hb])]

theorem Selector.narrow_extend {s : Selector} (hb : s.isBlank = false) (w u : FieldPath) :
    (s.extend w).narrow u = s.extend (w ++ u) := by
  rw [narrow_of_followed (s := s.extend w) hb, extend_extend]

variable {a : BoundAssignment}

section

variable (hsub : ∀ a ∈ fewer, a ∈ more) (ha : ⟨a.source, a.target⟩ ∈ fewer)
  (h : SplitsEvenly (leafRules depth fewer) (leafRules depth more) a)

include hsub ha h

theorem SplitsEvenly.suffixes_eq {s : Selector} (hs : s ∈ a.sides) (hb : s.isBlank = false) :
    (leafRules depth more).suffixes s = ((leafRules depth fewer).suffixes s).flatMap fun w =>
      ((leafRules depth more).suffixes (s.extend w)).map (w ++ ·) := by
  have hside := BoundAssignment.mem_sides.mp hs
  exact suffixes_eq_flatMap hsub (mentions_of_side ha hside hb) (h.covered s hs hb)

/-- The leaves of a followed side, narrowed: those of the coarser rules, each of them split. -/
theorem SplitsEvenly.map_below {s : Selector} (hs : s ∈ a.sides) (hb : s.isBlank = false)
    (f : Selector → BoundAssignment) : ((leafRules depth more).below s).map f =
      ((leafRules depth fewer).below s).flatMap fun leaf =>
        ((leafRules depth more).suffixes leaf).map fun u => f (leaf.extend u) := by
  rw [LeafRules.below_eq, LeafRules.below_eq, h.suffixes_eq hsub ha hs hb]
  simp only [List.map_flatMap, List.map_map, List.flatMap_map]
  refine List.flatMap_congr fun w _ => List.map_congr_left fun u _ => ?_
  simp

/-- Where both sides are followed, a leaf has a partner exactly if the leaf that it was split from
has one. -/
theorem SplitsEvenly.mem_suffixes_iff (hs : a.source.isBlank = false)
    (ht : a.target.isBlank = false) {w u : FieldPath}
    (hw : w ∈ (leafRules depth fewer).suffixes a.target)
    (hu : u ∈ (leafRules depth more).suffixes (a.target.extend w)) :
    w ++ u ∈ (leafRules depth more).suffixes a.source ↔
      w ∈ (leafRules depth fewer).suffixes a.source := by
  constructor
  · intro hmem
    refine Classical.byContradiction fun hnone => ?_
    exact h.unmatched hs ht w hw hnone u hu hmem
  · intro hpartner
    have hv : Mentions depth more a.source.value :=
      (mentions_of_side ha (Or.inl rfl) hs).mono hsub
    rw [← h.alike hs ht w hw hpartner] at hu
    exact (mem_suffixes_extend_iff hv).mp hu

/-- **The moves of an assignment that is split evenly** are those of the coarser rules, each of them
split. -/
theorem SplitsEvenly.leafMoves_eq : (leafRules depth more).leafMoves a =
    ((leafRules depth fewer).leafMoves a).flatMap (leafRules depth more).split := by
  have hsource := a.source_mem_sides
  have htarget := a.target_mem_sides
  have hleaf : ∀ {s leaf : Selector}, s.isBlank = false →
      leaf ∈ (leafRules depth fewer).below s → leaf.isBlank = false := by
    intro s leaf hb hleaf
    rw [LeafRules.eq_extend_of_mem_below hleaf]
    exact hb
  unfold LeafRules.leafMoves
  cases hs : a.source.isBlank <;> cases ht : a.target.isBlank
  · simp only [h.suffixes_eq hsub ha htarget ht, List.map_flatMap, List.flatMap_map, List.map_map]
    refine List.flatMap_congr fun w hw => ?_
    have hb : (a.target.extend w).isBlank = false := ht
    simp only [LeafRules.split, BoundAssignment.shape, hb, Bool.false_eq_true, if_false]
    refine List.map_congr_left fun u hu => ?_
    have hiff := h.mem_suffixes_iff hsub ha hs ht hw hu
    by_cases hpartner : w ∈ (leafRules depth fewer).suffixes a.source
    · simp [BoundAssignment.narrow, hiff, hpartner, Selector.narrow_extend hs,
        Selector.narrow_extend ht]
    · simp [BoundAssignment.narrow, hiff, hpartner, Selector.narrow_of_blank Selector.isBlank_blank,
        Selector.narrow_extend ht]
  · simp only [h.map_below hsub ha hsource hs, List.flatMap_map]
    refine List.flatMap_congr fun leaf hmem => List.map_congr_left fun u _ => ?_
    simp [BoundAssignment.narrow, Selector.narrow, hleaf hs hmem, Selector.isBlank_blank]
  · simp only [h.map_below hsub ha htarget ht, List.flatMap_map]
    refine List.flatMap_congr fun leaf hmem => ?_
    simp only [LeafRules.split, BoundAssignment.shape, hleaf ht hmem, Bool.false_eq_true, if_false]
    refine List.map_congr_left fun u _ => ?_
    simp [BoundAssignment.narrow, Selector.narrow, hleaf ht hmem, Selector.isBlank_blank]
  · rfl

end

end SliceLineage
