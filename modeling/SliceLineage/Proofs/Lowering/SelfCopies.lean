import Mathlib
import SliceLineage.Proofs.Lowering.DataFlow

/-!
# Copies within one value

An assignment from one region of a value to another region of the same value becomes moves between
the leaves of that value. The moves are made one after the other, in the order of the leaves of the
target, so that a leaf that lies below both regions may be written before it is read.

* `CellTable.CopiesAtOnce`: a chain leaves below the target what was below the source before it.
* `WrittenFirst`: the leaf that corresponds to a leaf of the target is written before it is read.
* `CellTable.ServesWithin.copiesAtOnce_iff`: nothing but these leaves stands against that.
* `self_copy_contents`: what the chain of such an assignment leaves in every cell.
-/

namespace SliceLineage

/-! ## Moves one after the other -/

namespace CellTable

variable {t : CellTable} {α : Type} {new cells : Cells α}

/-- The two sides of the moves have cells. -/
structure Numbers (t : CellTable) (ms : List BoundAssignment) : Prop where
  cells : t.Consistent
  target : ∀ m ∈ ms, m.target.isBlank = false ∧ m.target ∈ t.selectors
  source : ∀ m ∈ ms, m.source.isBlank = true ∨ m.source ∈ t.selectors

/-- What moves leave in the cells. -/
def after (t : CellTable) (new cells : Cells α) (ms : List BoundAssignment) : Cells α :=
  (ms.map t.move).foldl (Cells.exec new) cells

theorem after_append (ms ms' : List BoundAssignment) :
    t.after new cells (ms ++ ms') = t.after new (t.after new cells ms) ms' := by
  simp [after]

theorem after_cons (m : BoundAssignment) (ms : List BoundAssignment) :
    t.after new cells (m :: ms) = t.after new (Cells.exec new cells (t.move m)) ms := rfl

/-- A cell that no move writes keeps its content. -/
theorem after_of_not_target {ms : List BoundAssignment} {c : ValueId}
    (hc : ∀ m ∈ ms, c ≠ t.cell m.target) : t.after new cells ms c = cells c := by
  induction ms generalizing cells with
  | nil => rfl
  | cons m ms ih =>
      have hm : Cells.exec new cells (t.move m) c = cells c :=
        if_neg fun h => hc m List.mem_cons_self h.1
      rw [after_cons, ih fun m' hm' => hc m' (List.mem_cons_of_mem _ hm'), hm]

/-- Different leaves have different cells. -/
theorem Consistent.cell_ne_cell (ht : t.Consistent) {x y : Selector} (hx : x.isBlank = false)
    (hxt : x ∈ t.selectors) (hy : y.isBlank = false) (hyt : y ∈ t.selectors) (hne : x ≠ y) :
    t.cell x ≠ t.cell y := by
  intro heq
  have hxs := ht.selector?_cell hx hxt
  rw [heq, ht.selector?_cell hy hyt] at hxs
  exact hne (Option.some.inj hxs).symm

/-- A move whose target no later move writes: its target ends up with what the moves before it left
in its source. -/
theorem after_target (new cells : Cells α) {before later : List BoundAssignment}
    {m : BoundAssignment} (h : t.Numbers (before ++ m :: later))
    (hlater : ∀ m' ∈ later, m.target ≠ m'.target) :
    t.after new cells (before ++ m :: later) (t.cell m.target) =
      if m.source.isBlank then new (t.cell m.target)
      else t.after new cells before (t.cell m.source) := by
  have hm : m ∈ before ++ m :: later := by simp
  obtain ⟨hb, ht⟩ := h.target m hm
  rw [after_append, after_cons, after_of_not_target,
    h.cells.exec_move ⟨hb, ht⟩ (h.source m hm) (h.cells.selector?_cell hb ht), if_pos rfl]
  intro m' hm'
  obtain ⟨hb', ht'⟩ := h.target m' (by simp [hm'])
  exact h.cells.cell_ne_cell hb ht hb' ht' (hlater m' hm')

/-- A leaf that the later moves do not write is left as the moves before them left it. -/
theorem after_before {before later : List BoundAssignment} (h : t.Numbers (before ++ later))
    {x : Selector} (hb : x.isBlank = false) (hx : x ∈ t.selectors)
    (hlater : ∀ m ∈ later, x ≠ m.target) :
    t.after new cells (before ++ later) (t.cell x) = t.after new cells before (t.cell x) := by
  rw [after_append]
  refine after_of_not_target fun m hm => ?_
  obtain ⟨hb', ht'⟩ := h.target m (by simp [hm])
  exact h.cells.cell_ne_cell hb hx hb' ht' (hlater m hm)

end CellTable

/-! ## The moves of a copy within one value -/

/-- The leaf below the source `p` that corresponds to the leaf `q ++ s` of the target lies below the
target `q` as well, and comes before `q ++ s`. -/
def WrittenFirst (p q s : FieldPath) : Prop :=
  p ≠ q ∧ q <+: p ++ s ∧ pathLe (p ++ s) (q ++ s) = true

instance (p q s : FieldPath) : Decidable (WrittenFirst p q s) :=
  inferInstanceAs (Decidable (_ ∧ _ ∧ _))

/-- The operations copy the region `p` of a value to its region `q` at once: a leaf of the target
receives what the corresponding leaf of the source held before, or a new content if there is no such
leaf, and the cells of all other leaves keep theirs. -/
structure CellTable.CopiesAtOnce (t : CellTable) (r : LeafRules) (v : ValueId) (p q : FieldPath)
    (ops : List Operation) : Prop where
  matched : ∀ (α : Type) (new cells : Cells α) (s : FieldPath), r.IsLeaf ⟨v, q ++ s⟩ →
    r.IsLeaf ⟨v, p ++ s⟩ →
    ops.foldl (Cells.exec new) cells (t.cell ⟨v, q ++ s⟩) = cells (t.cell ⟨v, p ++ s⟩)
  unmatched : ∀ (α : Type) (new cells : Cells α) (s : FieldPath), r.IsLeaf ⟨v, q ++ s⟩ →
    ¬ r.IsLeaf ⟨v, p ++ s⟩ →
    ops.foldl (Cells.exec new) cells (t.cell ⟨v, q ++ s⟩) = new (t.cell ⟨v, q ++ s⟩)
  kept : ∀ (α : Type) (new cells : Cells α) (c : ValueId) (x : Selector),
    t.selector? c = some x → ¬ (x.value = v ∧ q <+: x.path) →
    ops.foldl (Cells.exec new) cells c = cells c

/-- The copy of one region of a value to another one. -/
def BoundAssignment.within (v : ValueId) (p q : FieldPath) : BoundAssignment :=
  ⟨⟨v, p⟩, ⟨v, q⟩, .same⟩

/-- The move into one leaf of the target of such a copy. -/
def LeafRules.moveWithin (r : LeafRules) (v : ValueId) (p q s : FieldPath) : BoundAssignment :=
  ⟨if (r.suffixes ⟨v, p⟩).contains s then ⟨v, p ++ s⟩ else .blank, ⟨v, q ++ s⟩, .same⟩

theorem LeafRules.source_moveWithin_of_mem {r : LeafRules} {v : ValueId} {p s : FieldPath}
    (h : s ∈ r.suffixes ⟨v, p⟩) (q : FieldPath) : (r.moveWithin v p q s).source = ⟨v, p ++ s⟩ :=
  if_pos (List.contains_iff_mem.mpr h)

theorem LeafRules.source_moveWithin_of_not_mem {r : LeafRules} {v : ValueId} {p s : FieldPath}
    (h : s ∉ r.suffixes ⟨v, p⟩) (q : FieldPath) : (r.moveWithin v p q s).source = .blank :=
  if_neg fun hs => h (List.contains_iff_mem.mp hs)

theorem LeafRules.leafMoves_within (r : LeafRules) {v : ValueId} (hv : v.isBlank = false)
    (p q : FieldPath) :
    r.leafMoves (.within v p q) = (r.suffixes ⟨v, q⟩).map (r.moveWithin v p q) := by
  have hs : (BoundAssignment.within v p q).source.isBlank = false := hv
  have ht : (BoundAssignment.within v p q).target.isBlank = false := hv
  simp only [leafMoves, hs, ht]
  refine List.map_congr_left fun u _ => ?_
  by_cases hu : u ∈ r.suffixes ⟨v, p⟩ <;>
    simp [moveWithin, BoundAssignment.within, Selector.extend, hu]

section

variable {depth : Nat} {assignments : List Assignment} {v : ValueId} {p q s : FieldPath}
  {t : CellTable} {α : Type} {new cells : Cells α}

/-- The copy is one of the batch, and the table has a cell for each leaf that it touches. -/
structure CellTable.ServesWithin (t : CellTable) (depth : Nat) (assignments : List Assignment)
    (v : ValueId) (p q : FieldPath) : Prop where
  followed : v.isBlank = false
  mentioned : ⟨⟨v, p⟩, ⟨v, q⟩⟩ ∈ assignments
  numbers : t.Numbers ((leafRules depth assignments).leafMoves (.within v p q))

namespace CellTable.ServesWithin

theorem mentions (h : t.ServesWithin depth assignments v p q) : Mentions depth assignments v :=
  mentions_of_side (s := ⟨v, p⟩) h.mentioned (Or.inl rfl) h.followed

theorem mem_suffixes (h : t.ServesWithin depth assignments v p q) {base : FieldPath} :
    s ∈ (leafRules depth assignments).suffixes ⟨v, base⟩ ↔
      (leafRules depth assignments).IsLeaf ⟨v, base ++ s⟩ :=
  mem_suffixes_iff (s := ⟨v, base⟩) h.mentions

theorem moveWithin_mem (h : t.ServesWithin depth assignments v p q)
    (hs : (leafRules depth assignments).IsLeaf ⟨v, q ++ s⟩) :
    (leafRules depth assignments).moveWithin v p q s ∈
      (leafRules depth assignments).leafMoves (.within v p q) := by
  rw [LeafRules.leafMoves_within _ h.followed]
  exact List.mem_map_of_mem (h.mem_suffixes.mpr hs)

/-- The moves fall into those before a leaf of the target, the move into it, and those after it, in
the order of the leaves. -/
theorem exists_split (h : t.ServesWithin depth assignments v p q)
    (hs : (leafRules depth assignments).IsLeaf ⟨v, q ++ s⟩) :
    ∃ before later,
      (leafRules depth assignments).leafMoves (.within v p q) =
        before ++ (leafRules depth assignments).moveWithin v p q s :: later ∧
      (∀ m ∈ before, ∃ u, m.target = ⟨v, q ++ u⟩ ∧ pathLe u s = true ∧ u ≠ s) ∧
      ∀ m ∈ later, ∃ u, m.target = ⟨v, q ++ u⟩ ∧ pathLe s u = true ∧ s ≠ u := by
  obtain ⟨us, ws, hsplit⟩ := List.append_of_mem (h.mem_suffixes.mpr hs)
  have hsorted := suffixes_pairwise (s := ⟨v, q⟩) h.mentions
  rw [hsplit, List.pairwise_append, List.pairwise_cons] at hsorted
  obtain ⟨-, ⟨hlater, -⟩, hbefore⟩ := hsorted
  refine ⟨us.map ((leafRules depth assignments).moveWithin v p q),
    ws.map ((leafRules depth assignments).moveWithin v p q), ?_, ?_, ?_⟩
  · rw [LeafRules.leafMoves_within _ h.followed, hsplit, List.map_append, List.map_cons]
  · intro m hm
    obtain ⟨u, hu, rfl⟩ := List.mem_map.mp hm
    exact ⟨u, rfl, hbefore u hu s List.mem_cons_self⟩
  · intro m hm
    obtain ⟨u, hu, rfl⟩ := List.mem_map.mp hm
    exact ⟨u, rfl, hlater u hu⟩

/-- The leaf that corresponds to a leaf of the target has a cell. -/
theorem source_mem (h : t.ServesWithin depth assignments v p q)
    (hs : (leafRules depth assignments).IsLeaf ⟨v, q ++ s⟩)
    (hp : (leafRules depth assignments).IsLeaf ⟨v, p ++ s⟩) : ⟨v, p ++ s⟩ ∈ t.selectors := by
  have hsource := h.numbers.source _ (h.moveWithin_mem hs)
  rw [LeafRules.source_moveWithin_of_mem (h.mem_suffixes.mpr hp)] at hsource
  exact CellTable.Knows.mem hsource h.followed

/-- A leaf of the target ends up with what the moves before it leave in the leaf that corresponds to
it. -/
theorem after_matched (h : t.ServesWithin depth assignments v p q) (new cells : Cells α)
    (hs : (leafRules depth assignments).IsLeaf ⟨v, q ++ s⟩)
    (hp : (leafRules depth assignments).IsLeaf ⟨v, p ++ s⟩) :
    t.after new cells ((leafRules depth assignments).leafMoves (.within v p q))
        (t.cell ⟨v, q ++ s⟩) =
      if WrittenFirst p q s then
        t.after new cells ((leafRules depth assignments).leafMoves (.within v p q))
          (t.cell ⟨v, p ++ s⟩)
      else cells (t.cell ⟨v, p ++ s⟩) := by
  obtain ⟨before, later, hsplit, hbefore, hlater⟩ := h.exists_split hs
  have hnumbers := h.numbers
  have hmem := h.source_mem hs hp
  rw [hsplit] at hnumbers ⊢
  have hsource : ((leafRules depth assignments).moveWithin v p q s).source = ⟨v, p ++ s⟩ :=
    LeafRules.source_moveWithin_of_mem (h.mem_suffixes.mpr hp) q
  have hblank : (Selector.mk v (p ++ s)).isBlank = false := h.followed
  have htarget := CellTable.after_target new cells hnumbers fun m hm heq => by
    obtain ⟨u, hu, -, hne⟩ := hlater m hm
    rw [hu] at heq
    exact hne (List.append_cancel_left (congrArg Selector.path heq))
  rw [hsource, hblank, if_neg Bool.false_ne_true] at htarget
  refine htarget.trans ?_
  by_cases hfirst : WrittenFirst p q s
  · -- The leaf read is written by one of the moves before, and by no later one.
    obtain ⟨hpq, ⟨u, hu⟩, hle⟩ := hfirst
    have hus : u ≠ s := by
      rintro rfl
      exact hpq (List.append_cancel_right hu).symm
    rw [← hu, pathLe, lexLe_append_left] at hle
    rw [if_pos ⟨hpq, ⟨u, hu⟩, by rw [← hu, pathLe, lexLe_append_left]; exact hle⟩]
    refine (CellTable.after_before hnumbers hblank hmem fun m hm heq => ?_).symm
    rw [← hu] at heq
    rcases List.mem_cons.mp hm with rfl | hm
    · exact hus (List.append_cancel_left (congrArg Selector.path heq))
    · obtain ⟨w, hw, hsw, hne⟩ := hlater m hm
      rw [hw] at heq
      obtain rfl := List.append_cancel_left (congrArg Selector.path heq)
      exact hne (orders_pathLe.antisymm _ _ hsw hle)
  · rw [if_neg hfirst]
    refine CellTable.after_of_not_target fun m hm => ?_
    obtain ⟨hb, ht⟩ := hnumbers.target m (List.mem_append_left _ hm)
    refine h.numbers.cells.cell_ne_cell hblank hmem hb ht fun heq => hfirst ?_
    obtain ⟨u, hu, hle, hne⟩ := hbefore m hm
    rw [hu] at heq
    have hpath : p ++ s = q ++ u := congrArg Selector.path heq
    refine ⟨?_, hpath ▸ List.prefix_append _ _, ?_⟩
    · rintro rfl
      exact hne (List.append_cancel_left hpath).symm
    · rw [hpath, pathLe, lexLe_append_left]
      exact hle

theorem after_unmatched (h : t.ServesWithin depth assignments v p q)
    (hs : (leafRules depth assignments).IsLeaf ⟨v, q ++ s⟩)
    (hp : ¬ (leafRules depth assignments).IsLeaf ⟨v, p ++ s⟩) :
    t.after new cells ((leafRules depth assignments).leafMoves (.within v p q))
      (t.cell ⟨v, q ++ s⟩) = new (t.cell ⟨v, q ++ s⟩) := by
  obtain ⟨before, later, hsplit, -, hlater⟩ := h.exists_split hs
  have hnumbers := h.numbers
  rw [hsplit] at hnumbers ⊢
  have hsource : ((leafRules depth assignments).moveWithin v p q s).source = .blank :=
    LeafRules.source_moveWithin_of_not_mem (fun hmem => hp (h.mem_suffixes.mp hmem)) q
  have htarget := CellTable.after_target new cells hnumbers fun m hm heq => by
    obtain ⟨u, hu, -, hne⟩ := hlater m hm
    rw [hu] at heq
    exact hne (List.append_cancel_left (congrArg Selector.path heq))
  rw [hsource] at htarget
  exact htarget

/-- Cells of leaves outside of the target are not written. -/
theorem after_kept (h : t.ServesWithin depth assignments v p q) {c : ValueId} {x : Selector}
    (hc : t.selector? c = some x) (hx : ¬ (x.value = v ∧ q <+: x.path)) :
    t.after new cells ((leafRules depth assignments).leafMoves (.within v p q)) c = cells c := by
  refine CellTable.after_of_not_target fun m hm => ?_
  obtain ⟨hb, ht⟩ := h.numbers.target m hm
  rw [LeafRules.leafMoves_within _ h.followed] at hm
  obtain ⟨u, -, rfl⟩ := List.mem_map.mp hm
  rintro rfl
  rw [h.numbers.cells.selector?_cell hb ht] at hc
  obtain rfl := Option.some.inj hc
  exact hx ⟨rfl, List.prefix_append _ _⟩

/-- **The copy is made at once just if no leaf is written before it is read.** -/
theorem copiesAtOnce_iff (h : t.ServesWithin depth assignments v p q) :
    t.CopiesAtOnce (leafRules depth assignments) v p q
        (((leafRules depth assignments).leafMoves (.within v p q)).map t.move) ↔
      ∀ s, (leafRules depth assignments).IsLeaf ⟨v, q ++ s⟩ →
        (leafRules depth assignments).IsLeaf ⟨v, p ++ s⟩ → ¬ WrittenFirst p q s := by
  constructor
  · intro hcopies s hs hp hfirst
    obtain ⟨hpq, ⟨u, hu⟩, -⟩ := id hfirst
    have hus : u ≠ s := by
      rintro rfl
      exact hpq (List.append_cancel_right hu).symm
    have hread := h.source_mem hs hp
    have hblank : ∀ w, (Selector.mk v w).isBlank = false := fun _ => h.followed
    -- Contents that tell the leaf `p ++ s` from all others: it would have to keep its content, and
    -- to receive one that is not its own.
    let cells : Cells Bool := fun c => decide (c = t.cell ⟨v, p ++ s⟩)
    have hkept := hcopies.matched Bool (fun _ => false) cells s hs hp
    have hfinal := h.after_matched (fun _ => false) cells hs hp
    rw [if_pos hfirst] at hfinal
    have htrue := hfinal.symm.trans hkept
    rw [← hu] at hp hread htrue
    have hfalse : t.after (fun _ => false) cells
        ((leafRules depth assignments).leafMoves (.within v p q)) (t.cell ⟨v, q ++ u⟩)
          = false := by
      by_cases hpu : (leafRules depth assignments).IsLeaf ⟨v, p ++ u⟩
      · refine (hcopies.matched Bool (fun _ => false) cells u hp hpu).trans (decide_eq_false ?_)
        rw [← hu]
        refine h.numbers.cells.cell_ne_cell (hblank _) (h.source_mem hp hpu) (hblank _) hread ?_
        intro heq
        rw [hu] at heq
        exact hus (List.append_cancel_left (congrArg Selector.path heq))
      · exact hcopies.unmatched Bool (fun _ => false) cells u hp hpu
    rw [hfalse, hu] at htrue
    simp [cells] at htrue
  · intro hnone
    refine ⟨fun α new cells s hs hp => ?_, fun α new cells s hs hp => h.after_unmatched hs hp,
      fun α new cells c x hc hx => h.after_kept hc hx⟩
    have hafter := h.after_matched new cells hs hp
    rwa [if_neg (hnone s hs hp)] at hafter

end CellTable.ServesWithin

end

/-! ## The chain of a copy within one value -/

/-- The table that the chain of a copy within one value leaves has the cells that it needs. -/
theorem servesWithin_of_interns {depth : Nat} {assignments : List Assignment} {v : ValueId}
    {p q : FieldPath} {t t' : CellTable} (hv : v.isBlank = false)
    (ha : ⟨⟨v, p⟩, ⟨v, q⟩⟩ ∈ assignments)
    (hi : CellTable.Interns (((leafRules depth assignments).leafMoves (.within v p q)).flatMap
      BoundAssignment.sides) t t') : t'.ServesWithin depth assignments v p q where
  followed := hv
  mentioned := ha
  numbers := by
    have hknows : ∀ m ∈ (leafRules depth assignments).leafMoves (.within v p q),
        ∀ x ∈ m.sides, t'.Knows x :=
      fun m hm x hx => hi.knows x (List.mem_flatMap.mpr ⟨m, hm, hx⟩)
    refine ⟨hi.consistent, fun m hm => ?_, fun m hm => hknows m hm _ m.source_mem_sides⟩
    have hb : m.target.isBlank = false := by
      rw [LeafRules.leafMoves_within _ hv] at hm
      obtain ⟨u, -, rfl⟩ := List.mem_map.mp hm
      exact hv
    exact ⟨hb, (hknows m hm _ m.target_mem_sides).mem hb⟩

/-- **A copy within one value is made leaf by leaf.** The assignment of the region `p` of a value to
its region `q` has one chain. Leaves outside of `q` keep their content, and a leaf of the target
without a corresponding leaf below `p` receives a new one. Every other leaf of the target receives
what the corresponding leaf held before the chain, unless that leaf is written first: then it
receives what the chain leaves there. The chain copies at once just if there is no such leaf. -/
theorem self_copy_contents (registry : Registry) (depth : Nat) {g : FlowGraph}
    {point next : PointId} {v : ValueId} {p q : FieldPath} (hv : v.isBlank = false)
    (hedge : ⟨next, .assign ⟨v, p⟩ ⟨v, q⟩⟩ ∈ g.successors point) (t : CellTable)
    (ht : t.Consistent) :
    ∃ ops t', (CellM.chains registry (leafRules depth (g.assignments registry))
        (.assign ⟨v, p⟩ ⟨v, q⟩)).run t = .ok ([ops], t') ∧
      t.selectors <+: t'.selectors ∧
      (∀ (α : Type) (new cells : Cells α),
        (∀ c x, t'.selector? c = some x → ¬ (x.value = v ∧ q <+: x.path) →
          ops.foldl (Cells.exec new) cells c = cells c) ∧
        ∀ s, (leafRules depth (g.assignments registry)).IsLeaf ⟨v, q ++ s⟩ →
          t'.selector? (t'.cell ⟨v, q ++ s⟩) = some ⟨v, q ++ s⟩ ∧
          (¬ (leafRules depth (g.assignments registry)).IsLeaf ⟨v, p ++ s⟩ →
            ops.foldl (Cells.exec new) cells (t'.cell ⟨v, q ++ s⟩) =
              new (t'.cell ⟨v, q ++ s⟩)) ∧
          ((leafRules depth (g.assignments registry)).IsLeaf ⟨v, p ++ s⟩ →
            t'.selector? (t'.cell ⟨v, p ++ s⟩) = some ⟨v, p ++ s⟩ ∧
            ops.foldl (Cells.exec new) cells (t'.cell ⟨v, q ++ s⟩) =
              if WrittenFirst p q s then
                ops.foldl (Cells.exec new) cells (t'.cell ⟨v, p ++ s⟩)
              else cells (t'.cell ⟨v, p ++ s⟩))) ∧
      (t'.CopiesAtOnce (leafRules depth (g.assignments registry)) v p q ops ↔
        ∀ s, (leafRules depth (g.assignments registry)).IsLeaf ⟨v, q ++ s⟩ →
          (leafRules depth (g.assignments registry)).IsLeaf ⟨v, p ++ s⟩ →
          ¬ WrittenFirst p q s) := by
  have ha : ⟨⟨v, p⟩, ⟨v, q⟩⟩ ∈ g.assignments registry :=
    mem_assignments_of_outcome hedge List.mem_cons_self
      (List.mem_singleton.mpr (rfl : BoundAssignment.within v p q = _))
  have hfits : (leafRules depth (g.assignments registry)).Fits (.within v p q) :=
    LeafRules.fits_of_mem ha
  obtain ⟨t', hrun, hi⟩ := ((CellM.yields_assignment hfits).map fun ops => [ops]).runs t ht
  have h := servesWithin_of_interns hv ha hi
  refine ⟨_, t', hrun, hi.grows, fun α new cells => ⟨fun c x hc hx => h.after_kept hc hx, ?_⟩,
    h.copiesAtOnce_iff⟩
  intro s hs
  obtain ⟨hb, hmem⟩ := h.numbers.target _ (h.moveWithin_mem hs)
  refine ⟨hi.consistent.selector?_cell hb hmem, fun hp => h.after_unmatched hs hp, fun hp => ⟨?_, ?_⟩⟩
  · exact hi.consistent.selector?_cell hv (h.source_mem hs hp)
  · exact h.after_matched new cells hs hp

/-- A value is replaced by one of its fields, and read at three depths. -/
def FlowGraph.unwrapped : FlowGraph :=
  let copied := (Cursor.start none).append
    (.assign ⟨.tracked 0, ["a"]⟩ ⟨.tracked 0, []⟩) none
  let outer := copied.append (.assign ⟨.tracked 0, ["x"]⟩ (.whole (.tracked 1))) none
  let middle := outer.append (.assign ⟨.tracked 0, ["a", "x"]⟩ (.whole (.tracked 2))) none
  (middle.append (.assign ⟨.tracked 0, ["a", "a", "x"]⟩ (.whole (.tracked 3))) none).graph

theorem FlowGraph.leaves_unwrapped :
    (leafRules 3 (FlowGraph.unwrapped.assignments .builtin)).leaves? (.tracked 0) =
      some [["a", "a", "x"], ["a", "x"], ["x"]] := by
  cbv

theorem unwrapped_copy_contents :
    ⟨⟨1⟩, .assign ⟨.tracked 0, ["a"]⟩ ⟨.tracked 0, []⟩⟩ ∈
        FlowGraph.unwrapped.successors .root ∧
      ∃ ops t', (CellM.chains .builtin (leafRules 3 (FlowGraph.unwrapped.assignments .builtin))
          (.assign ⟨.tracked 0, ["a"]⟩ ⟨.tracked 0, []⟩)).run .empty = .ok ([ops], t') ∧
        (∀ new cells : Cells Nat,
          ops.foldl (Cells.exec new) cells (t'.cell ⟨.tracked 0, ["x"]⟩) =
            ops.foldl (Cells.exec new) cells (t'.cell ⟨.tracked 0, ["a", "x"]⟩)) ∧
        ¬ t'.CopiesAtOnce (leafRules 3 (FlowGraph.unwrapped.assignments .builtin)) (.tracked 0)
          ["a"] [] ops := by
  have hedge : ⟨⟨1⟩, .assign ⟨.tracked 0, ["a"]⟩ ⟨.tracked 0, []⟩⟩ ∈
      FlowGraph.unwrapped.successors .root := by decide +kernel
  have hleaf : ∀ path ∈ [["a", "a", "x"], ["a", "x"], ["x"]],
      (leafRules 3 (FlowGraph.unwrapped.assignments .builtin)).IsLeaf ⟨.tracked 0, path⟩ := by
    intro path hpath
    rw [LeafRules.IsLeaf, FlowGraph.leaves_unwrapped]
    exact hpath
  obtain ⟨ops, t', hrun, -, hcontents, hiff⟩ :=
    self_copy_contents .builtin 3 rfl hedge .empty .empty
  refine ⟨hedge, ops, t', hrun, fun new cells => ?_, fun hcopies => ?_⟩
  · have hread := ((hcontents Nat new cells).2 ["x"] (hleaf _ (by decide))).2.2
      (hleaf _ (by decide))
    exact hread.2.trans (if_pos (by decide))
  · exact hiff.mp hcopies ["x"] (hleaf _ (by decide)) (hleaf _ (by decide)) (by decide)

/-- The chain that replaces a value by its field `a` first fills the leaf `a.a.x`, which has no
corresponding leaf, then copies it to `a.x`, and then that to `x`: all three leaves end up with the
same new content, and what `a.x` held is lost. -/
theorem unwrapped_overwrites_sources :
    (CellM.chains .builtin (leafRules 3 (FlowGraph.unwrapped.assignments .builtin))
        (.assign ⟨.tracked 0, ["a"]⟩ ⟨.tracked 0, []⟩)).run .empty =
      .ok ([[.move .blank (.tracked 0) .same, .move (.tracked 0) (.tracked 1) .same,
          .move (.tracked 1) (.tracked 2) .same]],
        ⟨[(⟨.tracked 0, ["x"]⟩, .tracked 2), (⟨.tracked 0, ["a", "x"]⟩, .tracked 1),
            (⟨.tracked 0, ["a", "a", "x"]⟩, .tracked 0)],
          [⟨.tracked 0, ["a", "a", "x"]⟩, ⟨.tracked 0, ["a", "x"]⟩, ⟨.tracked 0, ["x"]⟩]⟩) ∧
      ∀ (new cells : Cells Nat),
        [Operation.move .blank (.tracked 0) .same, .move (.tracked 0) (.tracked 1) .same,
          .move (.tracked 1) (.tracked 2) .same].foldl (Cells.exec new) cells (.tracked 2) =
          new (.tracked 0) := by
  refine ⟨by cbv, fun new cells => ?_⟩
  simp [Cells.exec, ValueId.isBlank]

end SliceLineage
