import SliceLineage.Proofs.Check.Mirror
import SliceLineage.Proofs.Lowering.DataFlow
import SliceLineage.Proofs.Lowering.Splitting

/-!
# The cells of leaves that fall apart

Under finer rules a leaf falls into smaller ones, and each of these has a cell of its own. For a
fixed suffix, the cell of a leaf can be paired with the cell of the part at that suffix. If the
assignments are split evenly, the moves under the two sets of rules go along each other for every
suffix.

* `CellTable.Part`: the pairing for one suffix; `CellTable.Leafy.cellPairing`: it is one to one.
* `SplitsAlike`: a move between two leaves that fall apart alike.
* `SplitsAlike.alongAll`: such a move goes along the moves that it falls into.
* `alongAll_chain`: so does the whole chain of an operation whose assignments are split evenly.
-/

namespace SliceLineage

namespace CellTable

/-- The cells of a consistent table are those of leaves. -/
structure Leafy (t : CellTable) (r : LeafRules) : Prop where
  cells : t.Consistent
  leaves : ∀ x ∈ t.selectors, x.isBlank = false ∧ r.IsLeaf x

/-- The cell `d` of one table is that of the region `suffix` below the leaf of the cell `c` of
another one. -/
def Part (t₀ t : CellTable) (suffix : FieldPath) (c d : ValueId) : Prop :=
  ∃ x, t₀.selector? c = some x ∧ t.selector? d = some (x.extend suffix)

variable {t₀ t : CellTable} {r₀ r : LeafRules}

theorem ne_blank_of_selector? {c : ValueId} {x : Selector} (h : t.selector? c = some x) :
    c ≠ .blank := by
  rintro rfl
  cases h

theorem Leafy.eq_of_selector? (h : t.Leafy r) {c d : ValueId} {x : Selector}
    (hc : t.selector? c = some x) (hd : t.selector? d = some x) : c = d := by
  have hb := (h.leaves x (mem_of_selector? hc)).1
  rw [← h.cells.cell_of_selector? hb hc, h.cells.cell_of_selector? hb hd]

/-- **For each suffix, leaves and their parts correspond one to one.** -/
theorem Leafy.cellPairing (h₀ : t₀.Leafy r₀) (h : t.Leafy r) (suffix : FieldPath) :
    CellPairing (t₀.Part t suffix) where
  unique := by
    constructor
    · rintro c c' d ⟨x, hc, hd⟩ ⟨y, hc', hd'⟩
      have hsame : x.extend suffix = y.extend suffix := Option.some.inj (hd.symm.trans hd')
      obtain ⟨hvalue, hpath⟩ := Selector.mk.inj hsame
      have hxy : x = y := congr (congrArg Selector.mk hvalue) (List.append_cancel_right hpath)
      exact h₀.eq_of_selector? hc (hxy ▸ hc')
    · rintro c d d' ⟨x, hc, hd⟩ ⟨y, hc', hd'⟩
      obtain rfl : x = y := Option.some.inj (hc.symm.trans hc')
      exact h.eq_of_selector? hd hd'
  followed := by
    rintro c d ⟨x, hc, hd⟩
    exact ⟨ne_blank_of_selector? hc, ne_blank_of_selector? hd⟩

theorem cell_of_blank {s : Selector} (hb : s.isBlank = true) : t.cell s = .blank := if_pos hb

theorem cell_blank (t : CellTable) : t.cell .blank = .blank := rfl

end CellTable

/-! ## One move -/

variable {depth : Nat} {fewer more : List Assignment}

/-- A move between leaves of the coarser rules that the finer rules split in the same way. -/
structure SplitsAlike (depth : Nat) (fewer more : List Assignment) (m : BoundAssignment) :
    Prop where
  leaves : ∀ s ∈ m.sides, s.isBlank = false →
    Mentions depth fewer s.value ∧ (leafRules depth fewer).IsLeaf s
  alike : m.source.isBlank = false → m.target.isBlank = false →
    (leafRules depth more).suffixes m.source = (leafRules depth more).suffixes m.target

section

variable {m : BoundAssignment} {t₀ t : CellTable} {v : FieldPath}

/-- A part at one suffix is no part at another one. -/
theorem SplitsAlike.not_paired_part (hm : SplitsAlike depth fewer more m)
    (h₀ : t₀.Leafy (leafRules depth fewer)) (ht : t.Consistent) {s : Selector}
    (hs : s ∈ m.sides) {u : FieldPath} (hne : u ≠ v) (hknows : t.Knows (s.narrow u)) :
    ¬ Paired (flip (t₀.Part t v)) (t.cell (s.narrow u)) := by
  rintro ⟨c, x, hc, hd⟩
  cases hb : s.isBlank with
  | true =>
      rw [Selector.narrow_of_blank hb] at hd
      exact CellTable.ne_blank_of_selector? hd rfl
  | false =>
      rw [Selector.narrow_of_followed hb] at hd hknows
      have hcell := ht.selector?_cell (s := s.extend u) hb (hknows.mem hb)
      have hsame : s.extend u = x.extend v := Option.some.inj (hcell.symm.trans hd)
      obtain ⟨hmentions, hleaf⟩ := hm.leaves s hs hb
      have hx := h₀.leaves x (CellTable.mem_of_selector? hc)
      obtain rfl : s = x := eq_of_extend_eq hmentions hleaf hx.2 hsame
      exact hne (List.append_cancel_left (congrArg Selector.path hsame))

/-- A leaf has no part at a suffix at which the finer rules have no leaf. -/
theorem SplitsAlike.not_paired_leaf (hm : SplitsAlike depth fewer more m)
    (hsub : ∀ a ∈ fewer, a ∈ more) (ht₀ : t₀.Consistent) (h : t.Leafy (leafRules depth more))
    {s : Selector} (hs : s ∈ m.sides) (hv : s.isBlank = false → v ∉ (leafRules depth more).suffixes s)
    (hknows : t₀.Knows s) : ¬ Paired (t₀.Part t v) (t₀.cell s) := by
  rintro ⟨d, x, hc, hd⟩
  cases hb : s.isBlank with
  | true =>
      rw [CellTable.cell_of_blank hb] at hc
      exact CellTable.ne_blank_of_selector? hc rfl
  | false =>
      obtain rfl : s = x :=
        Option.some.inj ((ht₀.selector?_cell hb (hknows.mem hb)).symm.trans hc)
      have hmentions := ((hm.leaves s hs hb).1).mono hsub
      exact hv hb ((mem_suffixes_iff hmentions).mpr
        (h.leaves _ (CellTable.mem_of_selector? hd)).2)

/-- The cell of a leaf is paired with the cells of its parts. -/
theorem part_cell (ht₀ : t₀.Consistent) (ht : t.Consistent) {s : Selector}
    (hb : s.isBlank = false) (hknows₀ : t₀.Knows s)
    (hknows : t.Knows (s.narrow v)) : t₀.Part t v (t₀.cell s) (t.cell (s.narrow v)) := by
  rw [Selector.narrow_of_followed hb] at hknows ⊢
  exact ⟨s, ht₀.selector?_cell hb (hknows₀.mem hb),
    ht.selector?_cell (s := s.extend v) hb (hknows.mem hb)⟩

theorem avoids_move_of_blank {a : BoundAssignment} (hb : a.target.isBlank = true)
    (cells : ValueId → Prop) : (t.move a).Avoids cells := by
  intro source target step hmove htarget
  obtain ⟨-, rfl, -⟩ := Operation.move.inj hmove
  rw [CellTable.cell_of_blank hb] at htarget
  cases htarget

theorem avoids_move {a : BoundAssignment} {cells : ValueId → Prop}
    (hsource : ¬ cells (t.cell a.source)) (htarget : ¬ cells (t.cell a.target)) :
    (t.move a).Avoids cells := by
  intro source target step hmove _
  obtain ⟨rfl, rfl, -⟩ := Operation.move.inj hmove
  exact ⟨hsource, htarget⟩

section

variable (hm : SplitsAlike depth fewer more m) (hsub : ∀ a ∈ fewer, a ∈ more)
  (h₀ : t₀.Leafy (leafRules depth fewer)) (h : t.Leafy (leafRules depth more))
  (hk₀ : ∀ s ∈ m.sides, t₀.Knows s)
  (hk : ∀ u ∈ (leafRules depth more).suffixes m.shape, ∀ s ∈ m.sides, t.Knows (s.narrow u))

include hm hsub h₀ h hk₀ hk

/-- A move between leaves goes along the moves between the parts: at each suffix that the parts
have, one of these copies it, and the others have nothing to do with that suffix. -/
theorem SplitsAlike.along : Along (t₀.Part t v) [t₀.move m]
    (((leafRules depth more).split m).map t.move) := by
  have hsource := m.source_mem_sides
  have htarget := m.target_mem_sides
  rw [LeafRules.split, List.map_map]
  cases hb : m.target.isBlank with
  | true =>
      refine .of_avoids (fun op hop => ?_) fun op hop => ?_
      · rw [List.mem_singleton.mp hop]
        exact avoids_move_of_blank hb _
      · obtain ⟨u, -, rfl⟩ := List.mem_map.mp hop
        refine avoids_move_of_blank (a := m.narrow u) ?_ _
        show (m.target.narrow u).isBlank = true
        rw [Selector.narrow_of_blank hb]
        rfl
  | false =>
      have hshape : m.shape = m.target := by simp [BoundAssignment.shape, hb]
      rw [hshape] at hk ⊢
      have hother : ∀ u ∈ (leafRules depth more).suffixes m.target, u ≠ v →
          (t.move (m.narrow u)).Avoids (Paired (flip (t₀.Part t v))) := by
        intro u hu hne
        exact avoids_move (hm.not_paired_part h₀ h.cells hsource hne (hk u hu _ hsource))
          (hm.not_paired_part h₀ h.cells htarget hne (hk u hu _ htarget))
      by_cases hv : v ∈ (leafRules depth more).suffixes m.target
      · obtain ⟨before, after, hsplit⟩ := List.append_of_mem hv
        have hpairwise := suffixes_pairwise
          (((hm.leaves m.target htarget hb).1).mono hsub) (s := m.target)
        rw [hsplit] at hpairwise hother ⊢
        obtain ⟨-, hafter, hbefore⟩ := List.pairwise_append.mp hpairwise
        have hcopies : (t₀.move m).Copies (t₀.Part t v) (t.move (m.narrow v)) := by
          refine ⟨_, _, _, _, m.step, rfl, rfl,
            part_cell h₀.cells h.cells hb (hk₀ _ htarget) (hk v hv _ htarget), ?_⟩
          cases hsb : m.source.isBlank with
          | true =>
              refine Or.inl ⟨CellTable.cell_of_blank hsb, ?_⟩
              show t.cell (m.source.narrow v) = .blank
              rw [Selector.narrow_of_blank hsb, CellTable.cell_blank]
          | false =>
              exact Or.inr (part_cell h₀.cells h.cells hsb (hk₀ _ hsource) (hk v hv _ hsource))
        rw [List.map_append, List.map_cons]
        refine (Along.of_right fun op hop => ?_).append (.both hcopies (.of_right fun op hop => ?_))
        · obtain ⟨u, hu, rfl⟩ := List.mem_map.mp hop
          exact hother u (List.mem_append_left _ hu) (hbefore u hu v List.mem_cons_self).2
        · obtain ⟨u, hu, rfl⟩ := List.mem_map.mp hop
          exact hother u (List.mem_append_right _ (List.mem_cons_of_mem _ hu))
            ((List.pairwise_cons.mp hafter).1 u hu).2.symm
      · refine .of_avoids (fun op hop => ?_) fun op hop => ?_
        · rw [List.mem_singleton.mp hop]
          refine avoids_move
            (hm.not_paired_leaf hsub h₀.cells h hsource (fun hsb => ?_) (hk₀ _ hsource))
            (hm.not_paired_leaf hsub h₀.cells h htarget (fun _ => hv) (hk₀ _ htarget))
          rw [hm.alike hsb hb]
          exact hv
        · obtain ⟨u, hu, rfl⟩ := List.mem_map.mp hop
          refine hother u hu ?_
          rintro rfl
          exact hv hu

/-- **A move between leaves that fall apart alike goes along the moves that it falls into.** -/
theorem SplitsAlike.alongAll : AlongAll (t₀.Part t) [t₀.move m]
    (((leafRules depth more).split m).map t.move) where
  along v := hm.along hsub h₀ h hk₀ hk
  left op hop source target step hmove hne := by
    rw [List.mem_singleton.mp hop] at hmove
    obtain ⟨-, rfl, -⟩ := Operation.move.inj hmove
    have htarget := m.target_mem_sides
    cases hb : m.target.isBlank with
    | true => exact absurd (CellTable.cell_of_blank hb) hne
    | false =>
        have hshape : m.shape = m.target := by simp [BoundAssignment.shape, hb]
        obtain ⟨hmentions, hleaf⟩ := hm.leaves m.target htarget hb
        obtain ⟨v, hv⟩ := exists_mem_suffixes hsub hmentions hleaf
        exact ⟨v, _, part_cell h₀.cells h.cells hb (hk₀ _ htarget) (hk v (hshape ▸ hv) _ htarget)⟩
  right op hop source target step hmove hne := by
    obtain ⟨part, hpart, rfl⟩ := List.mem_map.mp hop
    obtain ⟨u, hu, rfl⟩ := List.mem_map.mp hpart
    obtain ⟨-, rfl, -⟩ := Operation.move.inj hmove
    have htarget := m.target_mem_sides
    cases hb : m.target.isBlank with
    | true =>
        have hblank : t.cell (m.target.narrow u) = .blank := by
          rw [Selector.narrow_of_blank hb, CellTable.cell_blank]
        exact absurd hblank hne
    | false => exact ⟨u, _, part_cell h₀.cells h.cells hb (hk₀ _ htarget) (hk u hu _ htarget)⟩

end

end

/-! ## Chains -/

/-- What the moves of an assignment are. -/
theorem LeafRules.leafMoves_cases {r : LeafRules} {a m : BoundAssignment} (hm : m ∈ r.leafMoves a) :
    (a.target.isBlank = false ∧ ∃ leaf ∈ r.below a.target, m = ⟨.blank, leaf, a.step⟩) ∨
    (a.source.isBlank = false ∧ ∃ leaf ∈ r.below a.source, m = ⟨leaf, .blank, a.step⟩) ∨
    (a.source.isBlank = false ∧ a.target.isBlank = false ∧ ∃ u ∈ r.suffixes a.target,
      (u ∈ r.suffixes a.source ∧ m = ⟨a.source.extend u, a.target.extend u, a.step⟩ ∨
        u ∉ r.suffixes a.source ∧ m = ⟨.blank, a.target.extend u, a.step⟩)) := by
  unfold leafMoves at hm
  split at hm
  · cases hm
  · rename_i ht
    obtain ⟨leaf, hleaf, rfl⟩ := List.mem_map.mp hm
    exact Or.inl ⟨ht, leaf, hleaf, rfl⟩
  · rename_i hs _
    obtain ⟨leaf, hleaf, rfl⟩ := List.mem_map.mp hm
    exact Or.inr (Or.inl ⟨hs, leaf, hleaf, rfl⟩)
  · rename_i hs ht
    obtain ⟨u, hu, rfl⟩ := List.mem_map.mp hm
    refine Or.inr (Or.inr ⟨hs, ht, u, hu, ?_⟩)
    by_cases hpartner : u ∈ r.suffixes a.source
    · exact Or.inl ⟨hpartner, by rw [if_pos hpartner]⟩
    · exact Or.inr ⟨hpartner, by rw [if_neg hpartner]⟩

/-- The followed sides of a move belong to the values of the followed sides of its assignment. -/
theorem LeafRules.exists_side_of_mem_leafMoves {r : LeafRules} {a m : BoundAssignment}
    (hm : m ∈ r.leafMoves a) {s : Selector} (hs : s ∈ m.sides) (hb : s.isBlank = false) :
    ∃ s' ∈ a.sides, s'.isBlank = false ∧ s.value = s'.value := by
  have hne : s ≠ .blank := by
    rintro rfl
    cases hb
  have hside := BoundAssignment.mem_sides.mp hs
  rcases leafMoves_cases hm with ⟨ht, leaf, hleaf, rfl⟩ | ⟨hsb, leaf, hleaf, rfl⟩ |
    ⟨hsb, ht, u, -, ⟨-, rfl⟩ | ⟨-, rfl⟩⟩
  · obtain rfl : s = leaf := hside.resolve_left hne
    exact ⟨_, a.target_mem_sides, ht, value_of_mem_below hleaf⟩
  · obtain rfl : s = leaf := hside.resolve_right hne
    exact ⟨_, a.source_mem_sides, hsb, value_of_mem_below hleaf⟩
  · rcases hside with rfl | rfl
    · exact ⟨_, a.source_mem_sides, hsb, rfl⟩
    · exact ⟨_, a.target_mem_sides, ht, rfl⟩
  · obtain rfl : s = a.target.extend u := hside.resolve_left hne
    exact ⟨_, a.target_mem_sides, ht, rfl⟩

variable {a m : BoundAssignment}

/-- The moves of an assignment that is split evenly have sides that fall apart alike. -/
theorem SplitsEvenly.splitsAlike (ha : ⟨a.source, a.target⟩ ∈ fewer)
    (h : SplitsEvenly (leafRules depth fewer) (leafRules depth more) a)
    (hm : m ∈ (leafRules depth fewer).leafMoves a) : SplitsAlike depth fewer more m where
  leaves s hs hb := by
    obtain ⟨s', hs', hb', hvalue⟩ := LeafRules.exists_side_of_mem_leafMoves hm hs hb
    have hside := BoundAssignment.mem_sides.mp hs'
    exact ⟨hvalue ▸ mentions_of_side ha hside hb', LeafRules.isLeaf_of_mem_leafMoves ha hm hs hb⟩
  alike hs ht := by
    rcases LeafRules.leafMoves_cases hm with ⟨-, leaf, -, rfl⟩ | ⟨-, leaf, -, rfl⟩ |
      ⟨hsb, htb, u, hu, ⟨hpartner, rfl⟩ | ⟨-, rfl⟩⟩
    · cases hs
    · cases ht
    · exact h.alike hsb htb u hu hpartner
    · cases hs

/-- The moves of an assignment that is split evenly go along the moves of its parts. -/
theorem SplitsEvenly.alongAll {t₀ t : CellTable} (hsub : ∀ a ∈ fewer, a ∈ more)
    (ha : ⟨a.source, a.target⟩ ∈ fewer)
    (h : SplitsEvenly (leafRules depth fewer) (leafRules depth more) a)
    (h₀ : t₀.Serves (leafRules depth fewer) a) (ht : t.Serves (leafRules depth more) a) :
    AlongAll (t₀.Part t) (((leafRules depth fewer).leafMoves a).map t₀.move)
      (((leafRules depth more).leafMoves a).map t.move) := by
  have hmoves := h.leafMoves_eq hsub ha
  rw [hmoves, List.map_flatMap]
  refine AlongAll.flatMap fun m hm => ?_
  refine (h.splitsAlike ha hm).alongAll hsub ⟨h₀.cells, h₀.leaves⟩ ⟨ht.cells, ht.leaves⟩
    (h₀.knows m hm) fun u hu s hs => ?_
  have hpart : m.narrow u ∈ (leafRules depth more).leafMoves a := by
    rw [hmoves]
    exact List.mem_flatMap.mpr ⟨m, hm, List.mem_map_of_mem hu⟩
  refine ht.knows _ hpart _ ?_
  rcases BoundAssignment.mem_sides.mp hs with rfl | rfl
  · exact (m.narrow u).source_mem_sides
  · exact (m.narrow u).target_mem_sides

/-- **The chain of an operation whose assignments are split evenly** goes along its chain under the
finer rules. -/
theorem alongAll_chain {t₀ t : CellTable} (op : Operation) {outcome : List BoundAssignment}
    (hsub : ∀ a ∈ fewer, a ∈ more) (hmem : ∀ a ∈ outcome, ⟨a.source, a.target⟩ ∈ fewer)
    (heven : ∀ a ∈ outcome, SplitsEvenly (leafRules depth fewer) (leafRules depth more) a)
    (h₀ : ∀ a ∈ outcome, t₀.Serves (leafRules depth fewer) a)
    (h : ∀ a ∈ outcome, t.Serves (leafRules depth more) a) :
    AlongAll (t₀.Part t) ((leafRules depth fewer).chain t₀ op outcome)
      ((leafRules depth more).chain t op outcome) := by
  refine AlongAll.append ?_ (.of_not_isMove (fun _ => LeafRules.isMove_of_mem_closing)
    fun _ => LeafRules.isMove_of_mem_closing)
  induction outcome with
  | nil => exact .of_not_isMove (by simp) (by simp)
  | cons a rest ih =>
      simp only [List.flatMap_cons, List.map_append]
      have hfirst := (heven a List.mem_cons_self).alongAll hsub (hmem a List.mem_cons_self)
        (h₀ a List.mem_cons_self) (h a List.mem_cons_self)
      exact hfirst.append (ih (fun b hb => hmem b (List.mem_cons_of_mem _ hb))
        (fun b hb => heven b (List.mem_cons_of_mem _ hb))
        (fun b hb => h₀ b (List.mem_cons_of_mem _ hb)) fun b hb => h b (List.mem_cons_of_mem _ hb))

end SliceLineage
